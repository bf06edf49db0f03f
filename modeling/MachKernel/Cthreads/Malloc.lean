import MachKernel.Lib.Bytes
import MachKernel.Lib.FreeList
import MachKernel.Lib.Runs
import MachKernel.Vm.Page

/-! The memory allocator for multiple threads (`malloc.c` of `libthreads`). -/

namespace MachKernel.Cthreads.Malloc
open Bytes FreeList Runs Vm Function

def minSize : ℕ := 8

/-- `sizeof(union header)`. -/
def headerSize : ℕ := 4

def nbuckets : ℕ := 29

/-- Where `malloc_free_list` is. An element has a lock and a head. -/
class MallocFreeList where
  address : ℕ
  fits : address + 8 * nbuckets < 2 ^ 32

/-- The loop over the block sizes, `n` being an `int` and `size` unsigned. -/
def findBucket (size : BitVec 32) : ℕ → ℕ → BitVec 32 → Option (ℕ × BitVec 32)
  | 0, _, _ => none
  | fuel + 1, i, n => if n < size then findBucket size fuel (i + 1) (n <<< 1) else some (i, n)

/-- Memory that was made a block of a free list. -/
structure Block where
  addr : ℕ
  bucket : ℕ
  deriving DecidableEq

def Block.size (b : Block) : ℕ := 2 ^ (b.bucket + 3)

def Block.base (b : Block) : ℕ := b.addr + headerSize

/-- The memory of a task, which addresses it has, the heads of the free lists, and the blocks that
were made so far. -/
structure Heap where
  mem : Mem
  mapped : ℕ → Bool
  head : ℕ → ℕ
  carved : List Block

/-- Where a thread is: it has taken a block for a size from its free list, in `realloc` for an old
block. -/
inductive Pc
  | out
  | popped (b : Block) (size : BitVec 32) (old : Option Block)
  deriving DecidableEq

/-- The blocks that callers have are known by their bases. -/
structure System where
  heap : Heap
  pc : ℕ → Pc
  allocated : List ℕ

/-- `h->next`. -/
def next (mem : Mem) (h : ℕ) : ℕ := (get32 mem h).toNat

/-- A block is put on its list. -/
def Heap.push (s : Heap) (b : Block) : Heap :=
  { s with
    mem := put32 s.mem b.addr (BitVec.ofNat 32 (s.head b.bucket))
    head := update s.head b.bucket b.addr }

/-- The loop of `more_memory`. -/
def Heap.carve (size i : ℕ) : ℕ → ℕ → Heap → Heap
  | 0, _, s => s
  | n + 1, h, s => carve size i n (h + size) ({ s with carved := ⟨h, i⟩ :: s.carved }.push ⟨h, i⟩)

section
variable [PageSize]

def amount (size : ℕ) : ℕ := if size ≤ pageSize then pageSize else size

/-- `more_memory`, when `vm_allocate` gives memory, which is zero, at an address. -/
def Heap.moreMemory (s : Heap) (size i addr : ℕ) : Heap :=
  Heap.carve size i (if size ≤ pageSize then pageSize / size else 1) addr { s with
    mem := fun a => if addr ≤ a ∧ a < addr + amount size then 0 else s.mem a
    mapped := fun a => s.mapped a || decide (addr ≤ a ∧ a < addr + amount size) }

/-- The part of `malloc` that has the lock, with what `vm_allocate` gives. There is no result when
that fails: the address that it was to set is used. -/
def Heap.take (s : Heap) (size i : ℕ) (vm : Option ℕ) : Option (ℕ × Heap) :=
  let pop := fun s : Heap =>
    (s.head i, { s with head := update s.head i (next s.mem (s.head i)) })
  if s.head i = 0 then
    match vm with
    | none => none
    | some addr =>
      let s := s.moreMemory size i addr
      if s.head i = 0 then some (0, s) else some (pop s)
  else some (pop s)

end

section
variable [MallocFreeList]

/-- `&malloc_free_list[i]`. -/
def freeListAddress (i : ℕ) : ℕ := MallocFreeList.address + 8 * i

/-- The list that a header names, if it passes the sanity checks. -/
def Heap.bucketAt (s : Heap) (h : ℕ) : Option ℕ :=
  let fl := (get32 s.mem h).toNat
  let i := (fl - MallocFreeList.address) / 8
  if i < nbuckets ∧ fl = freeListAddress i then some i else none

/-- The header of an allocated block is set. -/
def Heap.setHeader (s : Heap) (b : Block) : Heap :=
  { s with mem := put32 s.mem b.addr (BitVec.ofNat 32 (freeListAddress b.bucket)) }

/-- `free`, of a block that is not null. -/
def System.free (s : System) (base : ℕ) : System :=
  match s.heap.bucketAt (base - headerSize) with
  | none => s
  | some i => { s with
      heap := s.heap.push ⟨base - headerSize, i⟩
      allocated := s.allocated.erase base }

end

/-- The calls, each up to its next access to a free list, and how they go on; and what the callers
write to their blocks. -/
inductive Event
  | malloc (t : ℕ) (size : BitVec 32) (vm : Option ℕ)
  | free (t base : ℕ)
  | realloc (t oldBase : ℕ) (newSize : BitVec 32) (vm : Option ℕ)
  | proceed (t : ℕ)
  | store (base i : ℕ) (byte : Byte)

inductive Result
  | returns (base : ℕ)
  | taken
  | done

section
variable [PageSize] [MallocFreeList]

/-- `malloc` up to the unlock; the search of a size that never ends has no result. -/
def System.malloc (s : System) (t : ℕ) (size : BitVec 32) (vm : Option ℕ) (old : Option Block) :
    Option (Result × System) :=
  if size.toInt ≤ 0 then some (.returns 0, s)
  else
    (findBucket (size + 4) 32 0 8).bind fun (i, n) =>
      (s.heap.take n.toNat i vm).map fun (h, heap) =>
        if h = 0 then (.returns 0, { s with heap })
        else (.taken, { s with heap, pc := update s.pc t (.popped ⟨h, i⟩ size old) })

/-- What goes on after the block is taken: its header, and in `realloc` the copy and `free`. -/
def System.proceed (s : System) (t : ℕ) (b : Block) (size : BitVec 32) : Option Block → System
  | none =>
    { heap := s.heap.setHeader b
      pc := update s.pc t .out
      allocated := b.base :: s.allocated }
  | some old =>
    let heap := s.heap.setHeader b
    let heap := { heap with
      mem := copy heap.mem old.base heap.mem b.base (min (old.size - headerSize) size.toNat) }
    { (System.free { s with heap } old.base) with
      pc := update s.pc t .out
      allocated := b.base :: s.allocated }

/-- A thread makes one call at a time, with blocks that it has. -/
def System.step (s : System) : Event → Option (Result × System)
  | .malloc t size vm => if s.pc t = .out then s.malloc t size vm none else none
  | .free t base =>
    if s.pc t = .out then
      if base = 0 then some (.done, s)
      else if base ∈ s.allocated then some (.done, s.free base) else none
    else none
  | .realloc t oldBase newSize vm =>
    if s.pc t = .out then
      if oldBase = 0 then some (.returns 0, s)
      else if oldBase ∈ s.allocated then
        match s.heap.bucketAt (oldBase - headerSize) with
        | none => some (.returns 0, s)
        | some i =>
          (s.malloc t newSize vm (some ⟨oldBase - headerSize, i⟩)).map fun
            | (.returns _, s) => (.returns 0, s.free oldBase)
            | (r, s) => (r, { s with allocated := s.allocated.erase oldBase })
      else none
    else none
  | .proceed t =>
    match s.pc t with
    | .out => none
    | .popped b size old => some (.returns b.base, s.proceed t b size old)
  | .store base i byte =>
    if base ∈ s.allocated then
      match s.heap.bucketAt (base - headerSize) with
      | none => none
      | some j =>
        if i + headerSize < 2 ^ (j + 3) then
          some (.done, { s with heap := { s.heap with
            mem := update s.heap.mem (base + i) byte } })
        else none
    else none

/-! What the calls are to do. -/

/-- Whose a block is: on a free list, in a call that has taken it or moves its data, or a caller's.
-/
inductive Place
  | free
  | taken (t : ℕ)
  | moving (t : ℕ)
  | allocated
  deriving DecidableEq

def Block.Disjoint (b c : Block) : Prop := b.addr + b.size ≤ c.addr ∨ c.addr + c.size ≤ b.addr

/-- No two blocks overlap, and a free list has the blocks of its size that are nobody's. -/
structure Heap.Sound (s : Heap) (place : ℕ → Place) (free : ℕ → List ℕ) : Prop where
  pos : ∀ b ∈ s.carved, 0 < b.addr
  bucket : ∀ b ∈ s.carved, b.bucket < nbuckets
  bound : ∀ b ∈ s.carved, b.addr + b.size ≤ 2 ^ 32
  inside : ∀ b ∈ s.carved, ∀ k < b.size, s.mapped (b.addr + k)
  disjoint : s.carved.Pairwise Block.Disjoint
  lists : ∀ i, Chain (next s.mem) (s.head i) (free i)
  free_iff : ∀ i h, h ∈ free i ↔ ⟨h, i⟩ ∈ s.carved ∧ place h = .free
  header : ∀ b ∈ s.carved, (place b.addr = .allocated ∨ ∃ t, place b.addr = .moving t) →
    get32 s.mem b.addr = BitVec.ofNat 32 (freeListAddress b.bucket)

def Pc.taken : Pc → Option Block
  | .out => none
  | .popped b _ _ => some b

def Pc.moving : Pc → Option Block
  | .out => none
  | .popped _ _ old => old

/-- The blocks that are not free are the callers' and those in calls. -/
structure System.Sound (s : System) (place : ℕ → Place) (free : ℕ → List ℕ) : Prop where
  heap : s.heap.Sound place free
  nodup : s.allocated.Nodup
  allocated_iff : ∀ base, base ∈ s.allocated ↔
    ∃ b ∈ s.heap.carved, b.base = base ∧ place b.addr = .allocated
  taken_iff : ∀ t b, (s.pc t).taken = some b ↔ b ∈ s.heap.carved ∧ place b.addr = .taken t
  moving_iff : ∀ t b, (s.pc t).moving = some b ↔ b ∈ s.heap.carved ∧ place b.addr = .moving t
  fits : ∀ t b size old, s.pc t = .popped b size old → size.toNat + headerSize ≤ b.size

/-- The block is a caller's, or its data are to be moved. -/
def System.InUse (s : System) (b : Block) : Prop :=
  b.base ∈ s.allocated ∨ ∃ t, (s.pc t).moving = some b

/-- The data of the blocks in use are left as they are. -/
def Keeps (s s' : System) : Prop :=
  ∀ b ∈ s.heap.carved, s.InUse b → s'.InUse b → ∀ k < b.size - headerSize,
    s'.heap.mem (b.base + k) = s.heap.mem (b.base + k)

/-- A call that returns 0 changes nothing; one that returns a block gives it to the caller, big
enough and with the data of the old block. -/
def Serves (s : System) (e : Event) (r : Result) (s' : System) : Prop :=
  match e, r with
  | .malloc _ _ _, .returns base => base = 0 ∧ s' = s
  | .malloc t size _, .taken => (∃ b, s'.pc t = .popped b size none) ∧ s'.allocated = s.allocated
  | .free _ base, .done => s'.allocated = s.allocated.erase base
  | .realloc _ _ _ _, .returns base => base = 0 ∧ s' = s
  | .realloc t oldBase newSize _, .taken =>
    (∃ b old, s'.pc t = .popped b newSize (some old) ∧ old.base = oldBase) ∧
      s'.allocated = s.allocated.erase oldBase
  | .proceed t, .returns base => ∃ b size old, s.pc t = .popped b size old ∧ b ∈ s'.heap.carved ∧
      base = b.base ∧ size.toNat + headerSize ≤ b.size ∧ base ∉ s.allocated ∧
      s'.allocated = base :: s.allocated ∧
      ∀ o ∈ old, ∀ k < min (o.size - headerSize) size.toNat,
        s'.heap.mem (base + k) = s.heap.mem (o.base + k)
  | .store base i byte, .done =>
    s' = { s with heap := { s.heap with mem := update s.heap.mem (base + i) byte } }
  | _, _ => False

def spec (a : System) (e : Event) (r : Result) (a' s' : System) : Prop :=
  a' = s' ∧ (∃ place free, s'.Sound place free) ∧ Serves a e r s' ∧
    ((∀ base i byte, e ≠ .store base i byte) → Keeps a s')

/-- The free list for a size. -/
def bucketFor (size : BitVec 32) : ℕ := Nat.clog 2 (size.toNat + headerSize) - 3

/-- Where `vm_allocate` gives memory, the task had none. -/
def Fresh (s : System) (size : BitVec 32) (addr : ℕ) : Prop :=
  addr + amount (2 ^ (bucketFor size + 3)) ≤ 2 ^ 32 ∧
    ∀ a, addr ≤ a → a < addr + amount (2 ^ (bucketFor size + 3)) → s.heap.mapped a = false

/-- A thread makes one call at a time, with blocks that are allocated; and `vm_allocate` gives new
memory. -/
def Legal (s : System) : Event → Prop
  | .malloc t size vm => s.pc t = .out ∧ ∀ addr ∈ vm, Fresh s size addr
  | .free t base => s.pc t = .out ∧ (base = 0 ∨ base ∈ s.allocated)
  | .realloc t oldBase newSize vm => s.pc t = .out ∧ (oldBase = 0 ∨ oldBase ∈ s.allocated) ∧
      ∀ addr ∈ vm, Fresh s newSize addr
  | .proceed t => s.pc t ≠ .out
  | .store base i _ => base ∈ s.allocated ∧
      ∃ b ∈ s.heap.carved, b.base = base ∧ i + headerSize < b.size

/-- There is a block size for the request, and a free block or memory at another address than 0. -/
def CanServe (s : System) (size : BitVec 32) (vm : Option ℕ) : Prop :=
  size.toNat + headerSize ≤ 2 ^ 31 ∧ (s.heap.head (bucketFor size) = 0 → ∃ addr ∈ vm, addr ≠ 0)

/-- Requests that are positive are served; and `realloc` requests are. -/
def Fits (s : System) : Event → Prop
  | .malloc _ size vm => 0 < size.toInt → CanServe s size vm
  | .realloc _ oldBase newSize vm => oldBase ≠ 0 → 0 < newSize.toInt ∧ CanServe s newSize vm
  | _ => True

end

end MachKernel.Cthreads.Malloc
