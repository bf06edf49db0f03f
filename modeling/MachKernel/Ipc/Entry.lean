import MachKernel.Ipc.Traverse
import MachKernel.Lib.FreeList

/-! The entries of an IPC space: a table of slots and a splay tree for the names that do not fit
(`ipc/ipc_entry.c`, `ipc/ipc_space.c`, `ipc/ipc_table.c`). -/

namespace MachKernel.Ipc
open Assoc Function

/-! ## Names and entries -/

namespace MachPort

instance neZero_gens : NeZero 256 := ⟨by norm_num⟩

/-- `MACH_PORT_INDEX`. -/
def index (name : MachPort) : ℕ := name.val / 256

/-- `MACH_PORT_GEN`, shifted down. -/
def gen (name : MachPort) : Fin 256 := Fin.ofNat 256 name.val

/-- `MACH_PORT_MAKE`. -/
def make (index : ℕ) (gen : Fin 256) : MachPort := Fin.ofNat (2 ^ 32) (index * 256 + gen.val)

end MachPort

/-- `IE_BITS_TYPE`: a bit for each kind of right. -/
structure PortType where
  send : Bool
  receive : Bool
  sendOnce : Bool
  portSet : Bool
  deadName : Bool
deriving DecidableEq

/-- `MACH_PORT_TYPE_NONE`. -/
def PortType.none : PortType := ⟨false, false, false, false, false⟩

/-- What an entry says of its right: the bits of `IE_BITS_RIGHT_MASK`, `ie_object` and
`ie_request`. In a free slot `ie_request` is `ie_next`. -/
structure Capability where
  type : PortType
  urefs : ℕ
  marequest : Bool
  compat : Bool
  object : Option ℕ
  request : ℕ
deriving DecidableEq

/-- All bits zero. -/
def Capability.zero : Capability := ⟨.none, 0, false, false, none, 0⟩

/-- A slot of the table: the right, the generation and `IE_BITS_COLLISION`. -/
structure IpcEntry where
  cap : Capability
  gen : Fin 256
  collision : Bool
deriving DecidableEq

namespace IpcEntry

/-- After `bzero`. -/
def zero : IpcEntry := ⟨.zero, 0, false⟩

def next (e : IpcEntry) : ℕ := e.cap.request

def setNext (e : IpcEntry) (next : ℕ) : IpcEntry := { e with cap := { e.cap with request := next } }

/-- `ie_bits` is zero. -/
def bitsZero (e : IpcEntry) : Bool :=
  e.cap.type = .none && e.cap.urefs = 0 && !e.cap.marequest && !e.cap.compat && !e.collision &&
    e.gen = 0

end IpcEntry

/-- A pointer to an entry: to a slot of the table, or to the tree entry of a name. -/
inductive EntryRef
  | table (index : ℕ)
  | tree (name : MachPort)
deriving DecidableEq

/-! ## Table sizes -/

/-- The first loop of `ipc_table_fill`: powers of two up to the page size. -/
def fillPowers (pageSize minsize elemsize : ℕ) : ℕ → ℕ → List ℕ × ℕ
  | 0, size => ([], size)
  | fuel + 1, size =>
    if size < pageSize then
      let (l, size') := fillPowers pageSize minsize elemsize fuel (size * 2)
      (if minsize ≤ size then size / elemsize :: l else l, size')
    else ([], size)

/-- The second loop: fifteen sizes a page apart, fifteen two pages apart, and so on. -/
def fillPages (minsize elemsize : ℕ) : ℕ → ℕ → ℕ → List ℕ
  | 0, _, _ => []
  | fuel + 1, size, incrsize =>
    (List.range 15).filterMap (fun period =>
      if minsize ≤ size + period * incrsize then some ((size + period * incrsize) / elemsize)
      else none) ++
    fillPages minsize elemsize fuel (size + 15 * incrsize) (incrsize * 2)

/-- `ipc_table_fill`. -/
def tableFill (pageSize num min elemsize : ℕ) : List ℕ :=
  let (powers, size) := fillPowers pageSize (min * elemsize) elemsize 32 1
  (powers ++ fillPages (min * elemsize) elemsize num size pageSize).take num

/-- `sizeof(struct ipc_entry)`. -/
def sizeofEntry : ℕ := 16

/-- `sizeof(struct ipc_tree_entry)`. -/
def sizeofTreeEntry : ℕ := 32

/-- `ipc_table_entries`: increasing sizes, the last one twice, all indices below that of
`MACH_PORT_DEAD`. -/
class TableSizes where
  its : ℕ → ℕ
  last : ℕ
  pos : 0 < its 0
  increasing : ∀ i, i + 1 < last → its i < its (i + 1)
  final : ∀ i, i + 1 = last → its i = its last
  bound : ∀ i, i ≤ last → its i ≤ 2 ^ 24 - 1

/-- `ipc_table_init`, with pages of 4096 bytes. -/
def tableInit : TableSizes where
  its i := (tableFill 4096 127 4 sizeofEntry).getD (min i 126) 0
  last := 127
  pos := by decide +kernel
  increasing := by
    have h : ∀ i < 126, (tableFill 4096 127 4 sizeofEntry).getD (min i 126) 0 <
        (tableFill 4096 127 4 sizeofEntry).getD (min (i + 1) 126) 0 := by decide +kernel
    exact fun i hi => h i (by omega)
  final := by
    intro i hi
    obtain rfl : i = 126 := by omega
    rfl
  bound := by
    have h : ∀ i < 128, (tableFill 4096 127 4 sizeofEntry).getD (min i 126) 0 ≤ 2 ^ 24 - 1 := by
      decide +kernel
    exact fun i hi => h i (by omega)

/-! ## Spaces -/

/-- `struct ipc_space`. The table has the size of its level, `is_table_next` is the next level. -/
structure IpcSpace where
  isActive : Bool
  isGrowing : Bool
  table : ℕ → IpcEntry
  level : ℕ
  tree : SplayTree MachPort Capability
  treeTotal : ℕ
  treeSmall : ℕ

/-- A splay tree on the stack. -/
def scratchTree : SplayTree MachPort Capability := ⟨0, .null, [], []⟩

namespace IpcSpace

/-- The entry that a pointer points to. -/
def entry (s : IpcSpace) : EntryRef → Option Capability
  | .table i => some (s.table i).cap
  | .tree name => get s.tree.toList name

def modifySlot (s : IpcSpace) (i : ℕ) (f : IpcEntry → IpcEntry) : IpcSpace :=
  { s with table := update s.table i (f (s.table i)) }

/-- A write through a pointer to an entry. -/
def write (s : IpcSpace) (f : Capability → Capability) : EntryRef → IpcSpace
  | .table i => s.modifySlot i fun e => { e with cap := f e.cap }
  | .tree name => { s with tree := s.tree.modify name f }

variable [TableSizes]

def tableSize (s : IpcSpace) : ℕ := TableSizes.its s.level

/-- `is_table_next->its_size`. -/
def tableNext (s : IpcSpace) : ℕ := TableSizes.its (s.level + 1)

/-- `ipc_space_create`, without the notify port. -/
def create (initial : ℕ) : IpcSpace where
  isActive := true
  isGrowing := false
  table i := ⟨{ Capability.zero with
    request := if i + 1 = TableSizes.its initial then 0 else i + 1 }, 255, false⟩
  level := initial
  tree := scratchTree
  treeTotal := 0
  treeSmall := 0

/-- `ipc_entry_tree_collision`. -/
def treeCollision (s : IpcSpace) (name : MachPort) : Bool × IpcSpace :=
  let ((lower, upper), tree) := s.tree.bounds name
  ((decide (lower ≠ ⊤) && decide (lower.index = name.index)) ||
    (decide (upper ≠ ⊥) && decide (upper.index = name.index)), { s with tree := tree })

def treeLookup (s : IpcSpace) (name : MachPort) : Option EntryRef × IpcSpace :=
  let (found, tree) := s.tree.lookup name
  (found.map fun _ => .tree name, { s with tree := tree })

/-- `ipc_entry_lookup`. -/
def lookup (s : IpcSpace) (name : MachPort) : Option EntryRef × IpcSpace :=
  if name.index < s.tableSize then
    let entry := s.table name.index
    if entry.gen ≠ name.gen then
      if entry.collision = true then s.treeLookup name else (none, s)
    else if entry.cap.type = .none then (none, s)
    else (some (.table name.index), s)
  else if s.treeTotal = 0 then (none, s)
  else s.treeLookup name

/-- `ipc_entry_get`. -/
def entryGet (s : IpcSpace) : Option (MachPort × EntryRef × IpcSpace) :=
  let firstFree := (s.table 0).next
  if firstFree = 0 then none
  else
    let free := s.table firstFree
    let s := s.modifySlot 0 fun e => e.setNext free.next
    let gen := free.gen + 1
    let s := s.modifySlot firstFree fun e => { e.setNext 0 with gen := gen }
    some (.make firstFree gen, .table firstFree, s)

/-- What a turn of `ipc_entry_alloc_name` ends with: an entry, or a call for which the lock is
dropped. -/
inductive AllocName
  | invalidTask
  | found (entry : EntryRef)
  | allocated (entry : EntryRef)
  | growTable
  | allocTreeEntry
deriving DecidableEq

/-- The counters and the collision bit, before a tree entry for the name is inserted. -/
def countTree (s : IpcSpace) (name : MachPort) : IpcSpace :=
  let s := { s with treeTotal := s.treeTotal + 1 }
  if name.index < s.tableSize then s.modifySlot name.index fun e => { e with collision := true }
  else if name.index < s.tableNext then
    let (collision, s) := s.treeCollision name
    if collision = false then { s with treeSmall := s.treeSmall + 1 } else s
  else s

/-- One turn of `ipc_entry_alloc_name` with the space locked. `treeEntry` says whether an entry
was allocated in an earlier turn. -/
def allocName (s : IpcSpace) (name : MachPort) (treeEntry : Bool) : Option (AllocName × IpcSpace) :=
  let index := name.index
  if s.isActive = false then some (.invalidTask, s)
  else if 0 < index ∧ index < s.tableSize ∧ (s.table index).cap.type = .none then
    -- the slot is ripped out of the free list, after a search for the one in front of it
    (FreeList.before (fun i => (s.table i).next) index s.tableSize 0).map fun free =>
      let s := s.modifySlot free fun e => e.setNext (s.table index).next
      let s := s.modifySlot index fun e =>
        ⟨{ Capability.zero with object := e.cap.object }, name.gen, false⟩
      (.allocated (.table index), s)
  else if 0 < index ∧ index < s.tableSize ∧ (s.table index).gen = name.gen then
    some (.found (.table index), s)
  else
    let (found, s) := if s.treeTotal > 0 then s.treeLookup name else (none, s)
    match found with
    | some entry => some (.found entry, s)
    | none =>
      if s.tableSize ≤ index ∧ index < s.tableNext ∧
          (s.tableNext - s.tableSize) * sizeofEntry < (s.treeSmall + 1) * sizeofTreeEntry then
        some (.growTable, s)
      else if treeEntry = true then
        let s := s.countTree name
        some (.allocated (.tree name), { s with tree := s.tree.insert name .zero })
      else some (.allocTreeEntry, s)

/-- `ipc_entry_dealloc`. -/
def dealloc (s : IpcSpace) (name : MachPort) (entry : EntryRef) : IpcSpace :=
  let index := name.index
  if index < s.tableSize ∧ entry = .table index then
    if (s.table index).collision = true then
      -- an entry is moved from the tree to the table
      let (tree, collisions) := s.tree.split (.make (index + 1) 0) scratchTree
      let (collisions, small) := collisions.split (.make index 0) scratchTree
      match collisions.pick with
      | none => s
      | some (tname, tentry) =>
        let collisions := collisions.delete tname
        let rest := collisions.pick.isSome
        let tree := if rest = true then (tree.join collisions).1 else tree
        let tree := (tree.join small).1
        let s := s.modifySlot index fun _ => ⟨tentry, tname.gen, rest⟩
        { s with tree := tree, treeTotal := s.treeTotal - 1 }
    else
      let s := s.modifySlot index fun e =>
        ⟨{ Capability.zero with object := e.cap.object, request := (s.table 0).next }, e.gen, false⟩
      s.modifySlot 0 fun e => e.setNext index
  else
    let s := { s with tree := s.tree.delete name, treeTotal := s.treeTotal - 1 }
    if index < s.tableSize then
      let (collision, s) := s.treeCollision name
      if collision = false then s.modifySlot index fun e => { e with collision := false } else s
    else if index < s.tableNext then
      let (collision, s) := s.treeCollision name
      if collision = false then { s with treeSmall := s.treeSmall - 1 } else s
    else s

/-! ## Growth -/

/-- How a turn of `ipc_entry_grow_table` starts: with a wait, without a larger size, or with the
allocation of a table, for which the lock is dropped. -/
inductive GrowStart
  | wait
  | noSpace
  | growing
deriving DecidableEq

def growStart (s : IpcSpace) : GrowStart × IpcSpace :=
  if s.isGrowing = true then (.wait, s)
  else if s.tableSize = s.tableNext then (.noSpace, s)
  else (.growing, { s with isGrowing := true })

/-- The traversal that moves tree entries into the new part of the table: the first entry with an
index is moved, others collide with it. -/
def moveEntry (s : (ℕ → IpcEntry) × ℕ) (name : MachPort) (tentry : Capability) :
    Bool × (ℕ → IpcEntry) × ℕ :=
  let entry := s.1 name.index
  if entry.bitsZero = false then
    (false, update s.1 name.index { entry with collision := true }, s.2)
  else (true, update s.1 name.index ⟨tentry, name.gen, false⟩, s.2 - 1)

/-- The traversal that counts indices for `is_tree_small`. -/
def countSmall (s : ℕ × ℕ) (name : MachPort) (_tentry : Capability) : Bool × ℕ × ℕ :=
  (false, if name.index ≠ s.2 then (s.1 + 1, name.index) else s)

/-- The loop that puts unused new slots on the free list, from the last slot down. -/
def addFree (osize : ℕ) : ℕ → (ℕ → IpcEntry) × ℕ → (ℕ → IpcEntry) × ℕ
  | 0, s => s
  | n + 1, (table, free) =>
    let i := osize + n
    if (table i).bitsZero = true then
      addFree osize n (update table i { (table i).setNext free with gen := 255 }, i)
    else addFree osize n (table, free)

/-- The table after it was copied, the tree entries that fit were moved and counted. -/
def growEntries (s : IpcSpace) : IpcSpace :=
  let osize := TableSizes.its (s.level - 1)
  if s.treeTotal > 0 then
    let (tree, small) := s.tree.split (.make s.tableNext 0) scratchTree
    let (small, move) := small.split (.make s.tableSize 0) scratchTree
    let (move, ignore) := move.split (.make osize 0) scratchTree
    let (move, table, total) := move.traverse moveEntry (s.table, s.treeTotal)
    let (small, nosmall, _) := small.traverse countSmall (0, 0)
    let tree := (tree.join small).1
    let tree := (tree.join move).1
    let tree := (tree.join ignore).1
    { s with table := table, tree := tree, treeTotal := total, treeSmall := nosmall }
  else s

/-- What `ipc_entry_grow_table` does with the new table once the lock is held again. -/
def grow (s : IpcSpace) : IpcSpace :=
  let osize := s.tableSize
  let copied : ℕ → IpcEntry := fun i => if i < osize then s.table i else .zero
  let s := growEntries { s with table := copied, level := s.level + 1 }
  let (table, free) := addFree osize (s.tableSize - osize) (s.table, (s.table 0).next)
  { s with table := update table 0 ((table 0).setNext free) }

/-- The rest of a turn, with the table that was allocated or without. -/
def growFinish (s : IpcSpace) (table : Bool) : IpcSpace :=
  let s := { s with isGrowing := false }
  if table = false then s
  else if s.isActive = false then s
  else s.grow

end IpcSpace

end MachKernel.Ipc
