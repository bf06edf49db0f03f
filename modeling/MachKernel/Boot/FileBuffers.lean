import Mathlib.Data.Finite.Defs
import Mathlib.Data.Set.Finite.Basic
import Mathlib.Tactic

/-! The buffers of the bootstrap file reader (`boot_ufs/file_io.c`): the indirect blocks and the
data block that a file structure keeps, and the block list of a `file_direct`. -/

namespace MachKernel.Boot.FileBuffers
open Function

inductive Content
  | block (b : ℤ)
  | zeros
  | other
deriving DecidableEq

structure Buffer where
  size : ℕ
  content : Content
deriving DecidableEq

/-- What keeps a buffer: `f_blk[l]`, `f_buf`, the `fd_blocks` of a `file_direct`, and the local
variables `data` (`buf` in `read_inode`) and `buffer`. -/
inductive Slot
  | blk (l : ℕ)
  | buf
  | blocks (d : ℕ)
  | data
  | buffer
deriving DecidableEq

/-- The address of a buffer, 0 for none, beside its size. -/
structure Held where
  addr : ℕ
  size : ℕ
deriving DecidableEq

/-- The memory given and not yet deallocated. A call of `vm_deallocate`, or an access, that is not
to a piece of it as a whole is wild. -/
structure Heap where
  slot : Slot → Held
  live : ℕ → Option Buffer
  wild : Bool

open Heap

/-- Where the kernel puts new memory, which may depend on anything. -/
structure Kernel where
  place : ℕ → (ℕ → Option Buffer) → ℕ
  fresh : ∀ i live, {a | live a ≠ none}.Finite → place i live ≠ 0 ∧ live (place i live) = none

namespace Heap

/-- `vm_deallocate`. -/
def deallocate (h : Heap) (x : Held) : Heap :=
  if (h.live x.addr).map Buffer.size = some x.size then
    { h with live := update h.live x.addr none }
  else { h with wild := true }

/-- A buffer from `device_read` or `vm_allocate`. -/
def fill (k : Kernel) (h : Heap) (s : Slot) (i : ℕ) (b : Buffer) : Heap :=
  { h with
    slot := update h.slot s ⟨k.place i h.live, b.size⟩
    live := update h.live (k.place i h.live) (some b) }

/-- The buffer is deallocated if there is one, and its address cleared, but not its size. -/
def drop (h : Heap) (s : Slot) : Heap :=
  if (h.slot s).addr = 0 then h
  else
    { h.deallocate (h.slot s) with slot := update h.slot s ⟨0, (h.slot s).size⟩ }

def move (h : Heap) (s t : Slot) : Heap :=
  { h with slot := update (update h.slot t (h.slot s)) s ⟨0, 0⟩ }

/-- The buffer of a level is replaced in `block_map`. -/
def cache (h : Heap) (l : ℕ) : Heap :=
  let old := h.slot (.blk l)
  let h := h.move .data (.blk l)
  if old.size ≠ 0 then h.deallocate old else h

end Heap

/-- `struct icommon`, as far as it is used here. -/
structure Inode where
  db : ℕ → ℤ
  ib : ℕ → ℤ
  size : ℕ

/-- The disk: the words of its blocks and its inodes, with `f_nindir` and the shifts of a block and
of a fragment. -/
structure Disk where
  words : ℤ → ℕ → ℤ
  inode : ℕ → Inode
  nindir : ℕ → ℕ
  bshift : ℕ
  fshift : ℕ

/-- `struct file`. No `f_buf_blkno` is -1. -/
structure File where
  heap : Heap
  inode : Inode
  blkNo : ℕ → ℤ
  bufBlkno : Option ℕ

/-- The answer to `device_read` or `vm_allocate`, of size 0 when it fails, and whether
`lock_try_write` has the lock then. -/
structure Reply where
  size : ℕ
  choice : ℕ
  locked : Bool

abbrev ndaddr : ℕ := 12

namespace Disk

/-- The level of the indirect block to begin with, and the number of the block in it. -/
def findLevel (dk : Disk) : List ℕ → ℕ → Option (ℕ × ℕ)
  | [], _ => none
  | l :: ls, n => if n < dk.nindir l then some (l, n) else dk.findLevel ls (n - dk.nindir l)

def idx (dk : Disk) (level n : ℕ) : ℕ := if level = 0 then n else n / dk.nindir (level - 1)

/-- What the indirect blocks on the disk lead to, 0 where there is none. -/
def walk (dk : Disk) : ℕ → ℤ → ℕ → ℤ
  | 0, ind, n => if ind = 0 then 0 else dk.words ind (dk.idx 0 n)
  | l + 1, ind, n =>
    if ind = 0 then 0 else dk.walk l (dk.words ind (dk.idx (l + 1) n)) (n % dk.nindir l)

/-- The disk block of a block of a file. -/
def fileBlock (dk : Disk) (ino : Inode) (n : ℕ) : Option ℤ :=
  if n < ndaddr then some (ino.db n)
  else (dk.findLevel [0, 1, 2] (n - ndaddr)).map fun (l, n) => dk.walk l (ino.ib l) n

def lblkno (dk : Disk) (offset : ℕ) : ℕ := offset / 2 ^ dk.bshift

def blksize (dk : Disk) (ino : Inode) (n : ℕ) : ℕ :=
  if ndaddr ≤ n ∨ (n + 1) * 2 ^ dk.bshift ≤ ino.size then 2 ^ dk.bshift
  else (ino.size % 2 ^ dk.bshift + (2 ^ dk.fshift - 1)) / 2 ^ dk.fshift * 2 ^ dk.fshift

end Disk

namespace File

variable (k : Kernel) (dk : Disk)

def readInode (f : File) (inumber : ℕ) (r : Reply) : File :=
  if r.size = 0 then f
  else
    let h := (f.heap.fill k .data r.choice ⟨r.size, .other⟩).drop .data
    let h := (((h.drop (.blk 0)).drop (.blk 1)).drop (.blk 2)).drop .buf
    ⟨h, dk.inode inumber, fun _ => -1, none⟩

/-- A word of the block at `data`. -/
def wordAt (f : File) (s : Slot) (i : ℕ) : ℤ :=
  match f.heap.live (f.heap.slot s).addr with
  | some ⟨_, .block b⟩ => dk.words b i
  | _ => 0

/-- An access to memory that was given back shows. -/
def touch (f : File) (s : Slot) : File :=
  { f with heap.wild := f.heap.wild || (f.heap.live (f.heap.slot s).addr).isNone }

/-- A turn of the loop of `block_map`: the next block number, unless a read fails. -/
def turn (f : File) (level : ℕ) (ind : ℤ) (n : ℕ) (r : Reply) : Option (ℤ × File) :=
  if f.blkNo level = ind then
    some (f.wordAt dk (.blk level) (dk.idx level n), f.touch (.blk level))
  else if r.size = 0 then none
  else
    let f := { f with heap := f.heap.fill k .data r.choice ⟨r.size, .block ind⟩ }
    if r.locked then
      let f := { f with heap := f.heap.cache level, blkNo := update f.blkNo level ind }
      some (f.wordAt dk (.blk level) (dk.idx level n), f.touch (.blk level))
    else some (f.wordAt dk .data (dk.idx level n), { f with heap := f.heap.drop .data })

def mapLoop (rs : ℕ → Reply) : ℕ → ℤ → ℕ → File → Option ℤ × File
  | 0, ind, n, f =>
    if ind = 0 then (some 0, f)
    else
      match f.turn k dk 0 ind n (rs 0) with
      | none => (none, f)
      | some (next, f) => (some next, f)
  | l + 1, ind, n, f =>
    if ind = 0 then (some 0, f)
    else
      match f.turn k dk (l + 1) ind n (rs (l + 1)) with
      | none => (none, f)
      | some (next, f) => mapLoop rs l next (n % dk.nindir l) f

/-- `block_map`, which fails when a read does, or beyond the last level. -/
def blockMap (f : File) (n : ℕ) (rs : ℕ → Reply) : Option ℤ × File :=
  if n < ndaddr then (some (f.inode.db n), f)
  else
    match dk.findLevel [0, 1, 2] (n - ndaddr) with
    | none => (none, f)
    | some (l, n) => mapLoop k dk rs l (f.inode.ib l) n f

/-- `buf_read_file`: the address and the size of the rest of the block. -/
def bufReadFile (f : File) (offset : ℕ) (rs : ℕ → Reply) (r : Reply) : Option (ℕ × ℕ) × File :=
  let n := dk.lblkno offset
  let off := offset % 2 ^ dk.bshift
  let size := dk.blksize f.inode n
  let found (f : File) : Option (ℕ × ℕ) × File :=
    (some ((f.heap.slot .buf).addr + off, min (size - off) (f.inode.size - offset)), f)
  if f.inode.size ≤ offset then (none, f)
  else if f.bufBlkno = some n then found f
  else
    match f.blockMap k dk n rs with
    | (none, f) => (none, f)
    | (some b, f) =>
      let h := if (f.heap.slot .buf).addr = 0 then f.heap else f.heap.deallocate (f.heap.slot .buf)
      if b = 0 then
        -- the result of vm_allocate is not looked at
        let h := if r.size = 0 then
            { h with slot := update h.slot .buf ⟨(h.slot .buf).addr, size⟩ }
          else h.fill k .buf r.choice ⟨size, .zeros⟩
        found { f with heap := h, bufBlkno := some n }
      else if r.size = 0 then (none, { f with heap := h })
      else
        found { f with
          heap := h.fill k .buf r.choice ⟨r.size, .block b⟩, bufBlkno := some n }

/-- The loop of `add_file_direct` over `n` blocks of the file, from `i` on. -/
def mapBlocks (rs : ℕ → ℕ → Reply) : ℕ → ℕ → File → Bool × File
  | 0, _, f => (true, f)
  | n + 1, i, f =>
    match f.blockMap k dk i (rs i) with
    | (none, f) => (false, f)
    | (some _, f) => mapBlocks rs n (i + 1) f

/-- The size of the list in bytes with the blocks of the file. -/
def listSize (f : File) (d : ℕ) : ℕ :=
  dk.lblkno f.inode.size * 4 + (f.heap.slot (.blocks d)).size

/-- `vm_allocate` of that size; there is no memory of size 0. -/
def newList (f : File) (d : ℕ) (r : Reply) : File :=
  if f.listSize dk d = 0 then f
  else { f with heap := f.heap.fill k .buffer r.choice ⟨f.listSize dk d, .other⟩ }

/-- `add_file_direct` for the `file_direct` `d`, which is on the same device or not. -/
def addFileDirect (f : File) (d : ℕ) (same : Bool) (rs : ℕ → ℕ → Reply) (r : Reply) : File :=
  if same = false then f
  else if f.listSize dk d ≠ 0 ∧ r.size = 0 then f
  else
    match (f.newList k dk d r).mapBlocks k dk rs (dk.lblkno f.inode.size) 0 with
    | (false, f) => { f with heap := f.heap.drop .buffer }
    | (true, f) =>
      let h := (f.heap.drop (.blocks d)).move .buffer (.blocks d)
      { f with heap := (((h.drop .buf).drop (.blk 0)).drop (.blk 1)).drop (.blk 2) }

end File

/-! ## What keeps which buffer -/

/-- A heap in which each slot keeps the buffer that `v` says, and no other memory is live. -/
structure Rep (h : Heap) (v : Slot → Option Buffer) : Prop where
  tame : h.wild = false
  finite : {a | h.live a ≠ none}.Finite
  zero : h.live 0 = none
  empty : ∀ s, v s = none → (h.slot s).addr = 0
  held : ∀ s b, v s = some b → (h.slot s).size = b.size ∧ h.live (h.slot s).addr = some b
  apart : ∀ s t, v s ≠ none → (h.slot s).addr = (h.slot t).addr → s = t
  owned : ∀ a, h.live a ≠ none → ∃ s, v s ≠ none ∧ (h.slot s).addr = a

@[simp] theorem Heap.deallocate_slot (h : Heap) (x : Held) : (h.deallocate x).slot = h.slot := by
  unfold deallocate
  split <;> rfl

theorem Heap.drop_slot (h : Heap) {s t : Slot} (hst : t ≠ s) : (h.drop s).slot t = h.slot t := by
  unfold drop
  split
  · rfl
  · exact update_of_ne hst _ _

theorem Heap.cache_slot (h : Heap) {l m : ℕ} (hm : m ≠ l) :
    (h.cache l).slot (.blk m) = h.slot (.blk m) := by
  unfold cache
  dsimp only
  split <;> simp [move, hm]

namespace Rep
variable {k : Kernel} {h : Heap} {v : Slot → Option Buffer} {s t : Slot} {b : Buffer}

theorem addr_eq_zero_iff (hr : Rep h v) (s : Slot) : (h.slot s).addr = 0 ↔ v s = none := by
  refine ⟨fun h0 => ?_, hr.empty s⟩
  cases hv : v s with
  | none => rfl
  | some b =>
    have := (hr.held s b hv).2
    rw [h0, hr.zero] at this
    cases this

theorem fill (hr : Rep h v) (hs : v s = none) (i : ℕ) (b : Buffer) :
    Rep (h.fill k s i b) (update v s (some b)) := by
  obtain ⟨h0, hfree⟩ := k.fresh i h.live hr.finite
  have hne : ∀ t, (h.slot t).addr ≠ k.place i h.live := by
    intro t he
    cases hv : v t with
    | none => exact h0 (he ▸ hr.empty t hv)
    | some b =>
      have := (hr.held t b hv).2
      rw [he, hfree] at this
      cases this
  obtain ⟨tame, finite, zero, empty, held, apart, owned⟩ := hr
  constructor
  · exact tame
  · refine (finite.insert (k.place i h.live)).subset fun a ha => ?_
    by_cases he : a = k.place i h.live
    · exact .inl he
    · right
      simpa [Heap.fill, he] using ha
  all_goals simp only [Heap.fill]
  · grind [update_apply]
  · grind [update_apply]
  · grind [update_apply]
  · intro t u ht he
    have := apart t u
    by_cases hst : t = s <;> by_cases hsu : u = s <;> grind [update_apply]
  · intro a ha
    by_cases he : a = k.place i h.live
    · exact ⟨s, by simp, by simp [he]⟩
    · obtain ⟨t, ht, hta⟩ := owned a (by simpa [he] using ha)
      exact ⟨t, by grind [update_apply], by grind [update_apply]⟩

theorem deallocate_eq (hr : Rep h v) (hs : v s = some b) : h.deallocate (h.slot s) =
      { h with live := update h.live (h.slot s).addr none } := by
  obtain ⟨hsize, hlive⟩ := hr.held s b hs
  rw [deallocate, if_pos (by rw [hlive, hsize]; rfl)]

theorem drop (hr : Rep h v) (s : Slot) : Rep (h.drop s) (update v s none) := by
  cases hv : v s with
  | none =>
    rw [Heap.drop, if_pos (hr.empty s hv), ← hv, update_eq_self]
    exact hr
  | some b =>
    have hne : (h.slot s).addr ≠ 0 := by rw [Ne, hr.addr_eq_zero_iff, hv]; simp
    rw [Heap.drop, if_neg hne, hr.deallocate_eq hv]
    have hzero := hr.addr_eq_zero_iff
    obtain ⟨tame, finite, zero, empty, held, apart, owned⟩ := hr
    constructor
    · exact tame
    · refine finite.subset fun a ha => ?_
      simp only [Set.mem_ofPred_eq, update_apply] at ha ⊢
      split at ha
      · exact absurd rfl ha
      · exact ha
    all_goals dsimp only
    · grind [update_apply]
    · grind [update_apply]
    · grind [update_apply]
    · grind [update_apply]
    · intro a ha
      have hne : a ≠ (h.slot s).addr := fun he => by simp [he] at ha
      obtain ⟨t, ht, hta⟩ := owned a (by simpa [hne] using ha)
      exact ⟨t, by grind [update_apply], by grind [update_apply]⟩

theorem move (hr : Rep h v) (hst : s ≠ t) (ht : v t = none) :
    Rep (h.move s t) (update (update v t (v s)) s none) := by
  have hzero := hr.addr_eq_zero_iff
  obtain ⟨tame, finite, zero, empty, held, apart, owned⟩ := hr
  refine ⟨tame, finite, zero, ?_, ?_, ?_, ?_⟩
  all_goals simp only [Heap.move]
  · grind [update_apply]
  · grind [update_apply]
  · intro u w hu he
    have := apart s w
    have := apart u s
    have := apart u w
    by_cases hut : u = t <;> by_cases hwt : w = t <;> grind [update_apply]
  · intro a ha
    obtain ⟨u, hu, hua⟩ := owned a ha
    by_cases hus : u = s
    · exact ⟨t, by grind [update_apply], by grind [update_apply]⟩
    · exact ⟨u, by grind [update_apply], by grind [update_apply]⟩

theorem cache (hr : Rep h v) {l : ℕ} (hsize : (h.slot (.blk l)).size ≠ 0 ↔ v (.blk l) ≠ none) :
    Rep (h.cache l) (update (update v (.blk l) (v .data)) .data none) := by
  cases hv : v (.blk l) with
  | none =>
    have h0 : ¬(h.slot (.blk l)).size ≠ 0 := fun hne => hsize.mp hne hv
    rw [Heap.cache, if_neg h0]
    exact hr.move (by simp) hv
  | some b =>
    have hd := (hr.drop (.blk l)).move (s := .data) (t := .blk l) (by simp) (by simp)
    have hne : (h.slot (.blk l)).addr ≠ 0 := by rw [Ne, hr.addr_eq_zero_iff, hv]; simp
    have he : h.cache l = (h.drop (.blk l)).move .data (.blk l) := by
      rw [Heap.cache, if_pos (hsize.mpr (by simp [hv])), Heap.drop, if_neg hne, hr.deallocate_eq hv]
      obtain ⟨hs, hl⟩ := hr.held _ _ hv
      rw [Heap.deallocate, if_pos (by simp only [Heap.move]; rw [hl, hs]; rfl)]
      simp [Heap.move]
    rw [he]
    simpa using hd

end Rep

/-- What a disk block reads as, 0 being a hole. -/
def contentOf (b : ℤ) : Content := if b = 0 then .zeros else .block b

/-- A file whose block numbers tell what its buffers hold. -/
structure Kept (dk : Disk) (f : File) (v : Slot → Option Buffer) : Prop where
  rep : Rep f.heap v
  data : v .data = none
  size : ∀ l, (v (.blk l)).all (·.size ≠ 0)
  blk : ∀ l, f.blkNo l ≠ -1 → (v (.blk l)).map Buffer.content = some (.block (f.blkNo l))
  buf : ∀ n, f.bufBlkno = some n → ∃ b, dk.fileBlock f.inode n = some b ∧
    (v .buf).map Buffer.content = some (contentOf b)

/-- The size of a level without buffer is not of a buffer that is gone, unless the level stays as it
is: its block is not read, or cannot be cached. -/
def Ready (f : File) (r : Reply) (l : ℕ) (b : ℤ) : Prop :=
  b ≠ -1 ∧ ((f.heap.slot (.blk l)).addr ≠ 0 ∨ (f.heap.slot (.blk l)).size = 0 ∨ r.size = 0 ∨
    r.locked = false)

/-- `P` holds of the indirect blocks on the way. -/
def Disk.Way (dk : Disk) (P : ℕ → ℤ → Prop) : ℕ → ℤ → ℕ → Prop
  | 0, ind, _ => ind = 0 ∨ P 0 ind
  | l + 1, ind, n => ind = 0 ∨ P (l + 1) ind ∧
      dk.Way P l (dk.words ind (dk.idx (l + 1) n)) (n % dk.nindir l)

def Disk.FileWay (dk : Disk) (P : ℕ → ℤ → Prop) (ino : Inode) (n : ℕ) : Prop :=
  ndaddr ≤ n → ∀ p, dk.findLevel [0, 1, 2] (n - ndaddr) = some p → dk.Way P p.1 (ino.ib p.1) p.2

/-- No indirect block on the way is cached. -/
def Uncached (dk : Disk) (f : File) (rs : ℕ → Reply) (n : ℕ) : Prop :=
  dk.FileWay (fun l _ => (rs l).locked = false) f.inode n

/-- Only indirect blocks are replaced, and none is given up. -/
structure Grows (f : File) (v : Slot → Option Buffer) (f' : File) (v' : Slot → Option Buffer) :
    Prop where
  inode : f'.inode = f.inode
  bufBlkno : f'.bufBlkno = f.bufBlkno
  others : ∀ s, (∀ l, s ≠ .blk l) → v' s = v s
  blk : ∀ l, f'.heap.slot (.blk l) = f.heap.slot (.blk l) ∨ (f'.heap.slot (.blk l)).addr ≠ 0

section
variable {k : Kernel} {dk : Disk} {f f' f'' : File} {v v' v'' : Slot → Option Buffer}

theorem Grows.refl : Grows f v f v := ⟨rfl, rfl, fun _ _ => rfl, fun _ => .inl rfl⟩

theorem Grows.trans (h : Grows f v f' v') (h' : Grows f' v' f'' v'') : Grows f v f'' v'' := by
  refine ⟨h'.inode.trans h.inode, h'.bufBlkno.trans h.bufBlkno,
    fun s hs => (h'.others s hs).trans (h.others s hs), fun l => ?_⟩
  rcases h'.blk l with he | hne
  · rw [he]
    exact h.blk l
  · exact .inr hne

theorem Grows.ready (h : Grows f v f' v') {r : Reply} {l : ℕ} {b : ℤ} (hr : Ready f r l b) :
    Ready f' r l b := by
  refine ⟨hr.1, ?_⟩
  rcases h.blk l with he | hne
  · rw [he]
    exact hr.2
  · exact .inl hne

theorem Disk.Way.mono {P Q : ℕ → ℤ → Prop} (hPQ : ∀ l b, P l b → Q l b) {l n : ℕ} {ind : ℤ}
    (h : dk.Way P l ind n) : dk.Way Q l ind n := by
  induction l generalizing ind n with
  | zero => exact h.imp_right (hPQ _ _)
  | succ l ih => exact h.imp_right fun h => ⟨hPQ _ _ h.1, ih h.2⟩

theorem Rep.wordAt (h : Rep f.heap v) {s : Slot} {b : ℤ}
    (hs : (v s).map Buffer.content = some (.block b)) (i : ℕ) :
    f.wordAt dk s i = dk.words b i ∧ f.touch s = f := by
  obtain ⟨⟨size, content⟩, hv, hc⟩ := Option.map_eq_some_iff.mp hs
  have hl := (h.held s _ hv).2
  cases hc
  refine ⟨by simp only [File.wordAt, hl], ?_⟩
  simp [File.touch, hl]

theorem Kept.turn (h : Kept dk f v) {level : ℕ} {ind : ℤ} {r : Reply} (hr : Ready f r level ind)
    (n : ℕ) : f.turn k dk level ind n r = none ∨
      ∃ f' v', f.turn k dk level ind n r = some (dk.words ind (dk.idx level n), f') ∧
        Kept dk f' v' ∧ Grows f v f' v' ∧ (r.locked = false → f'.blkNo = f.blkNo) := by
  unfold File.turn
  split
  next hno =>
    obtain ⟨hw, ht⟩ := h.rep.wordAt (hno ▸ h.blk level (hno ▸ hr.1)) (dk.idx level n)
    exact .inr ⟨f, v, by rw [hw, ht], h, .refl, fun _ => rfl⟩
  split
  next => exact .inl rfl
  next hsize =>
  right
  have hfill := h.rep.fill h.data (k := k) r.choice ⟨r.size, .block ind⟩
  dsimp only
  split
  next hlocked =>
    have hslot : (f.heap.slot (.blk level)).size ≠ 0 ↔ v (.blk level) ≠ none := by
      have hz := h.rep.addr_eq_zero_iff (.blk level)
      have hs := h.size level
      cases hv : v (.blk level) with
      | none => grind [Ready]
      | some b =>
        have := (h.rep.held _ _ hv).1
        simp_all
    obtain ⟨v', hv', hc⟩ : ∃ v', v' = _ ∧ Rep _ v' :=
      ⟨_, rfl, hfill.cache (l := level) (by simpa [fill] using hslot)⟩
    have hk : Kept dk { f with
          heap := (f.heap.fill k .data r.choice ⟨r.size, .block ind⟩).cache level
          blkNo := update f.blkNo level ind } v' := by
      refine ⟨hc, by simp [hv'], fun l => ?_, fun l hl => ?_, by simpa [hv'] using h.buf⟩
      · have := h.size l
        by_cases hll : l = level <;> simp_all
      · have := h.blk l
        by_cases hll : l = level <;> simp_all
    obtain ⟨hw, ht⟩ := hk.rep.wordAt (s := .blk level) (b := ind) (by simp [hv']) (dk.idx level n)
    refine ⟨_, v', by rw [hw, ht], hk, ⟨rfl, rfl, fun s hs => ?_, fun l => ?_⟩, by simp [hlocked]⟩
    · have := h.data
      cases s <;> simp_all
    · by_cases hll : l = level
      · right
        rw [Ne, hc.addr_eq_zero_iff]
        simp [hv', hll]
      · left
        rw [cache_slot _ hll]
        simp [fill]
  next hlocked =>
    have hd := hfill.drop .data
    rw [update_idem, ← h.data, update_eq_self] at hd
    obtain ⟨hw, -⟩ := Rep.wordAt
      (f := { f with heap := f.heap.fill k .data r.choice ⟨r.size, .block ind⟩ }) hfill
      (s := .data) (b := ind) (by simp) (dk.idx level n)
    refine ⟨{ f with heap := (f.heap.fill k .data r.choice ⟨r.size, .block ind⟩).drop .data }, v,
      by rw [hw], ⟨hd, h.data, h.size, h.blk, h.buf⟩, ⟨rfl, rfl, fun _ _ => rfl, fun l => .inl ?_⟩,
      fun _ => rfl⟩
    dsimp only
    rw [drop_slot _ (by simp)]
    simp [fill]

theorem Kept.mapLoop {rs : ℕ → Reply} {l n : ℕ} {ind : ℤ} (h : Kept dk f v)
    (hr : dk.Way (fun l b => Ready f (rs l) l b) l ind n) :
    ∃ f' v' res, File.mapLoop k dk rs l ind n f = (res, f') ∧ Kept dk f' v' ∧ Grows f v f' v' ∧
      (dk.Way (fun l _ => (rs l).locked = false) l ind n → f'.blkNo = f.blkNo) ∧
      ∀ b, res = some b → b = dk.walk l ind n := by
  induction l generalizing f v ind n with
  | zero =>
    unfold File.mapLoop Disk.walk
    split
    · exact ⟨f, v, _, rfl, h, .refl, fun _ => rfl, fun b hb => by simpa using hb.symm⟩
    next hne =>
      obtain ht | ⟨f', v', ht, hk, hg, hl⟩ := h.turn (k := k) (hr.resolve_left hne) n <;> rw [ht]
      · exact ⟨f, v, _, rfl, h, .refl, fun _ => rfl, by simp⟩
      · exact ⟨f', v', _, rfl, hk, hg, fun hw => hl (hw.resolve_left hne),
          fun b hb => by simpa using hb.symm⟩
  | succ l ih =>
    unfold File.mapLoop Disk.walk
    split
    · exact ⟨f, v, _, rfl, h, .refl, fun _ => rfl, fun b hb => by simpa using hb.symm⟩
    next hne =>
      obtain ⟨hr0, hway⟩ := hr.resolve_left hne
      obtain ht | ⟨f₁, v₁, ht, hk, hg, hl⟩ := h.turn (k := k) hr0 n <;> rw [ht]
      · exact ⟨f, v, _, rfl, h, .refl, fun _ => rfl, by simp⟩
      · obtain ⟨f', v', res, he, hk', hg', hl', hb⟩ := ih hk (hway.mono fun _ _ => hg.ready)
        exact ⟨f', v', res, he, hk', hg.trans hg', fun hw =>
          (hl' (hw.resolve_left hne).2).trans (hl (hw.resolve_left hne).1), hb⟩

/-- `block_map` keeps the buffers and tells what the disk says. -/
theorem Kept.blockMap {rs : ℕ → Reply} {n : ℕ} (h : Kept dk f v)
    (hr : dk.FileWay (fun l b => Ready f (rs l) l b) f.inode n) :
    ∃ f' v' res, f.blockMap k dk n rs = (res, f') ∧ Kept dk f' v' ∧ Grows f v f' v' ∧
      (Uncached dk f rs n → f'.blkNo = f.blkNo) ∧
      ∀ b, res = some b → dk.fileBlock f.inode n = some b := by
  unfold File.blockMap Disk.fileBlock
  split
  · exact ⟨f, v, _, rfl, h, .refl, fun _ => rfl, fun b hb => hb⟩
  next hn =>
    cases hl : dk.findLevel [0, 1, 2] (n - ndaddr) with
    | none => exact ⟨f, v, _, rfl, h, .refl, fun _ => rfl, by simp⟩
    | some p =>
      obtain ⟨f', v', res, he, hk, hg, hu, hb⟩ := h.mapLoop (k := k) (hr (not_lt.mp hn) p hl)
      exact ⟨f', v', res, he, hk, hg, fun hw => hu (hw (not_lt.mp hn) p hl),
        fun b h => by rw [hb b h]; rfl⟩

theorem Kept.mapBlocks {t : ℕ → ℕ → Reply} {n i : ℕ} (h : Kept dk f v)
    (hr : ∀ j < i + n, dk.FileWay (fun l b => Ready f (t j l) l b) f.inode j) :
    ∃ f' v' res, f.mapBlocks k dk t n i = (res, f') ∧ Kept dk f' v' ∧ Grows f v f' v' ∧
      ((∀ j < i + n, Uncached dk f (t j) j) → f'.blkNo = f.blkNo) := by
  induction n generalizing f v i with
  | zero => exact ⟨f, v, _, rfl, h, .refl, fun _ => rfl⟩
  | succ n ih =>
    obtain ⟨f₁, v₁, res, he, hk, hg, hu, -⟩ := h.blockMap (k := k) (hr i (by omega))
    unfold File.mapBlocks
    rw [he]
    cases res with
    | none => exact ⟨f₁, v₁, _, rfl, hk, hg, fun hw => hu (hw i (by omega))⟩
    | some b =>
      obtain ⟨f', v', res, he', hk', hg', hu'⟩ := ih (i := i + 1) hk fun j hlt hj p hp => by
        rw [hg.inode]
        exact (hr j (by omega) hj p hp).mono fun _ _ => hg.ready
      refine ⟨f', v', res, he', hk', hg.trans hg', fun hw => ?_⟩
      refine (hu' fun j hj => ?_).trans (hu (hw i (by omega)))
      unfold Uncached
      rw [hg.inode]
      exact hw j (by omega)

theorem Kept.of_rep {h : Heap} {v' : Slot → Option Buffer} (hk : Kept dk f v) (hr : Rep h v')
    (hdata : v' .data = none) (hblk : ∀ l, v' (.blk l) = v (.blk l)) (hbuf : v' .buf = v .buf) :
    Kept dk { f with heap := h } v' := by
  refine ⟨hr, hdata, fun l => ?_, fun l hl => ?_, fun n hn => ?_⟩
  · rw [hblk]
    exact hk.size l
  · rw [hblk]
    exact hk.blk l hl
  · rw [hbuf]
    exact hk.buf n hn

theorem Kept.readInode (h : Kept dk f v) (inumber : ℕ) (r : Reply) :
    ∃ v', Kept dk (f.readInode k dk inumber r) v' ∧ v' .buffer = v .buffer := by
  unfold File.readInode
  split
  · exact ⟨v, h, rfl⟩
  have hr := (h.rep.fill h.data (k := k) r.choice ⟨r.size, .other⟩).drop .data
  rw [update_idem, ← h.data, update_eq_self] at hr
  have hd := (((hr.drop (.blk 0)).drop (.blk 1)).drop (.blk 2)).drop .buf
  refine ⟨_, ⟨hd, by simp [h.data], fun l => ?_, by simp, by simp⟩, by simp⟩
  have := h.size l
  grind [update_apply]

theorem Heap.drop_fill (h : Heap) (s : Slot) (i : ℕ) (b : Buffer) : (h.drop s).fill k s i b =
      (if (h.slot s).addr = 0 then h else h.deallocate (h.slot s)).fill k s i b := by
  unfold drop
  split
  · rfl
  · simp [fill]

/-- A step of `buf_read_file` that does not lose the data block. -/
def FineRead (dk : Disk) (f : File) (offset : ℕ) (rs : ℕ → Reply) (r : Reply) : Prop :=
  f.inode.size ≤ offset ∨ f.bufBlkno = some (dk.lblkno offset) ∨
    dk.FileWay (fun l b => Ready f (rs l) l b) f.inode (dk.lblkno offset) ∧
      (r.size ≠ 0 ∨ (f.heap.slot .buf).addr = 0 ∧ dk.fileBlock f.inode (dk.lblkno offset) ≠ some 0)

theorem Kept.bufReadFile {rs : ℕ → Reply} {r : Reply} {offset : ℕ} (h : Kept dk f v)
    (hf : FineRead dk f offset rs r) :
    ∃ v', Kept dk (f.bufReadFile k dk offset rs r).2 v' ∧ v' .buffer = v .buffer := by
  unfold File.bufReadFile
  dsimp only
  split
  · exact ⟨v, h, rfl⟩
  next hsize =>
  split
  · exact ⟨v, h, rfl⟩
  next hhit =>
  obtain ⟨hway, hread⟩ := (hf.resolve_left hsize).resolve_left hhit
  obtain ⟨f', w, res, he, hk, hg, -, hb⟩ := h.blockMap (k := k) hway
  have hbuffer : w .buffer = v .buffer := hg.others _ (by simp)
  rw [he]
  cases res with
  | none => exact ⟨w, hk, hbuffer⟩
  | some b =>
    have hblock := hb b rfl
    rw [← hg.inode] at hblock
    have hfill := fun c => (hk.rep.drop .buf).fill (k := k) (update_self ..) r.choice c
    simp only [drop_fill, update_idem] at hfill
    have hkept : ∀ c : Buffer, c.content = contentOf b → Kept dk { f' with
          heap := (if (f'.heap.slot .buf).addr = 0 then f'.heap
            else f'.heap.deallocate (f'.heap.slot .buf)).fill k .buf r.choice c
          bufBlkno := some (dk.lblkno offset) } (update w .buf (some c)) := by
      intro c hc
      refine ⟨hfill c, by simp [hk.data], by simpa using hk.size, by simpa using hk.blk, ?_⟩
      rintro n ⟨⟩
      exact ⟨b, hblock, by simp [hc]⟩
    by_cases hr : r.size = 0
    · obtain ⟨h0, hhole⟩ := hread.resolve_left (not_not.mpr hr)
      have hb0 : b ≠ 0 := by
        rintro rfl
        exact hhole (hb 0 rfl)
      have h0' : (f'.heap.slot .buf).addr = 0 := by
        rw [hk.rep.addr_eq_zero_iff, hg.others _ (by simp), ← h.rep.addr_eq_zero_iff]
        exact h0
      simp only [if_neg hb0, if_pos hr, if_pos h0']
      exact ⟨w, hk, hbuffer⟩
    · by_cases hb0 : b = 0
      · simp only [if_pos hb0, if_neg hr]
        exact ⟨_, hkept _ (by simp [contentOf, hb0]), by simpa using hbuffer⟩
      · simp only [if_neg hb0, if_neg hr]
        exact ⟨_, hkept _ (by simp [contentOf, hb0]), by simpa using hbuffer⟩

/-- A step of `add_file_direct` that leaves no block number behind. -/
def FineAdd (k : Kernel) (dk : Disk) (f : File) (d : ℕ) (same : Bool) (rs : ℕ → ℕ → Reply)
    (r : Reply) : Prop :=
  same = false ∨ f.listSize dk d ≠ 0 ∧ r.size = 0 ∨
    (∀ j < dk.lblkno f.inode.size, dk.FileWay (fun l b => Ready f (rs j l) l b) f.inode j) ∧
      (((f.newList k dk d r).mapBlocks k dk rs (dk.lblkno f.inode.size) 0).1 = false ∨
        f.bufBlkno = none ∧ (∀ l, f.blkNo l = -1) ∧
          ∀ j < dk.lblkno f.inode.size, Uncached dk f (rs j) j)

theorem Kept.newList (h : Kept dk f v) (hb : v .buffer = none) (d : ℕ) (r : Reply) :
    ∃ v', Kept dk (f.newList k dk d r) v' ∧
      (f.newList k dk d r).heap.slot = update f.heap.slot .buffer
        ((f.newList k dk d r).heap.slot .buffer) ∧
      (f.newList k dk d r).inode = f.inode ∧ (f.newList k dk d r).blkNo = f.blkNo ∧
      (f.newList k dk d r).bufBlkno = f.bufBlkno := by
  unfold File.newList
  split
  · exact ⟨v, h, by simp, rfl, rfl, rfl⟩
  · exact ⟨_, h.of_rep (h.rep.fill hb r.choice _) (by simp [h.data]) (by simp) (by simp),
      by simp [fill], rfl, rfl, rfl⟩

theorem Kept.addFileDirect {d : ℕ} {same : Bool} {rs : ℕ → ℕ → Reply} {r : Reply}
    (h : Kept dk f v) (hb : v .buffer = none) (hf : FineAdd k dk f d same rs r) :
    ∃ v', Kept dk (f.addFileDirect k dk d same rs r) v' ∧ v' .buffer = none := by
  unfold File.addFileDirect
  split
  · exact ⟨v, h, hb⟩
  next hsame =>
  split
  · exact ⟨v, h, hb⟩
  next halloc =>
  obtain ⟨hready, hend⟩ := (hf.resolve_left hsame).resolve_left halloc
  obtain ⟨v₀, h₀, hslot, hino, hno, hbuf⟩ := h.newList (k := k) hb d r
  obtain ⟨f', w, res, he, hk, hg, hu⟩ := h₀.mapBlocks (k := k) (t := rs)
    (n := dk.lblkno f.inode.size) (i := 0)
    fun j hj hnd p hp => by
      rw [hino]
      refine (hready j (by omega) hnd p hp).mono fun l b hr => ⟨hr.1, ?_⟩
      rw [hslot, update_of_ne (by simp)]
      exact hr.2
  rw [he] at hend ⊢
  cases res with
  | false => exact ⟨_, hk.of_rep (hk.rep.drop .buffer) (by simp [hk.data]) (by simp) (by simp), by simp⟩
  | true =>
    obtain ⟨hnone, hall, hun⟩ := hend.resolve_left (by simp)
    have hno' : f'.blkNo = f.blkNo := by
      refine (hu fun j hj => ?_).trans hno
      unfold Uncached
      rw [hino]
      exact hun j (by omega)
    have hr := (((((hk.rep.drop (.blocks d)).move (s := .buffer) (t := .blocks d) (by simp)
      (by simp)).drop .buf).drop (.blk 0)).drop (.blk 1)).drop (.blk 2)
    refine ⟨_, ⟨hr, by simp [hk.data], fun l => ?_, fun l hl => ?_, fun n hn => ?_⟩, by simp⟩
    · have := hk.size l
      grind [update_apply]
    · exact absurd (by rw [hno', hall]) hl
    · rw [hg.bufBlkno, hbuf, hnone] at hn
      cases hn

/-! ## Runs -/

/-- The calls on a file; `read_file` is its calls of `buf_read_file`. -/
inductive Event
  | readInode (inumber : ℕ) (r : Reply)
  | blockMap (n : ℕ) (rs : ℕ → Reply)
  | bufReadFile (offset : ℕ) (rs : ℕ → Reply) (r : Reply)
  | addFileDirect (d : ℕ) (same : Bool) (rs : ℕ → ℕ → Reply) (r : Reply)

def File.step (k : Kernel) (dk : Disk) (f : File) : Event → File
  | .readInode inumber r => f.readInode k dk inumber r
  | .blockMap n rs => (f.blockMap k dk n rs).2
  | .bufReadFile offset rs r => (f.bufReadFile k dk offset rs r).2
  | .addFileDirect d same rs r => f.addFileDirect k dk d same rs r

/-- A call that does not meet what an earlier one left behind, and does not leave such behind. -/
def Fine (k : Kernel) (dk : Disk) (f : File) : Event → Prop
  | .readInode _ _ => True
  | .blockMap n rs => dk.FileWay (fun l b => Ready f (rs l) l b) f.inode n
  | .bufReadFile offset rs r => FineRead dk f offset rs r
  | .addFileDirect d same rs r => FineAdd k dk f d same rs r

/-- A file whose inode has been read, without buffers. -/
def File.init (ino : Inode) : File := ⟨⟨fun _ => ⟨0, 0⟩, fun _ => none, false⟩, ino, fun _ => -1, none⟩

inductive Reached (k : Kernel) (dk : Disk) : File → Prop
  | init (ino : Inode) : Reached k dk (.init ino)
  | step {f : File} {e : Event} (h : Reached k dk f) (hf : Fine k dk f e) : Reached k dk (f.step k dk e)

/-- What the fields say is there, nothing else is, and each buffer is given back as it was got. -/
structure Sound (dk : Disk) (f : File) : Prop where
  tame : f.heap.wild = false
  blk : ∀ l, f.blkNo l ≠ -1 → (f.heap.slot (.blk l)).addr ≠ 0 ∧
    f.heap.live (f.heap.slot (.blk l)).addr = some ⟨(f.heap.slot (.blk l)).size, .block (f.blkNo l)⟩
  buf : ∀ n, f.bufBlkno = some n → (f.heap.slot .buf).addr ≠ 0 ∧
    ∃ b, dk.fileBlock f.inode n = some b ∧
      f.heap.live (f.heap.slot .buf).addr = some ⟨(f.heap.slot .buf).size, contentOf b⟩
  owned : ∀ a, f.heap.live a ≠ none → ∃! s, (f.heap.slot s).addr = a

theorem Kept.init (dk : Disk) (ino : Inode) : Kept dk (.init ino) fun _ => none := by
  refine ⟨⟨rfl, ?_, rfl, fun _ _ => rfl, by simp, by simp, by simp [File.init]⟩, rfl, by simp,
    by simp [File.init], by simp [File.init]⟩
  simp [File.init]

theorem Reached.kept (h : Reached k dk f) : ∃ v, Kept dk f v ∧ v .buffer = none := by
  induction h with
  | init ino => exact ⟨_, .init dk ino, rfl⟩
  | @step f e _ hf ih =>
    obtain ⟨v, hk, hb⟩ := ih
    cases e with
    | readInode inumber r =>
      obtain ⟨v', hk', hb'⟩ := hk.readInode (k := k) inumber r
      exact ⟨v', hk', hb'.trans hb⟩
    | blockMap n rs =>
      obtain ⟨f', v', res, he, hk', hg, -⟩ := hk.blockMap (k := k) hf
      refine ⟨v', ?_, (hg.others _ (by simp)).trans hb⟩
      simpa only [File.step, he] using hk'
    | bufReadFile offset rs r =>
      obtain ⟨v', hk', hb'⟩ := hk.bufReadFile (k := k) hf
      exact ⟨v', hk', hb'.trans hb⟩
    | addFileDirect d same rs r => exact hk.addFileDirect hb hf

theorem Rep.live_eq {h : Heap} {v : Slot → Option Buffer} (hr : Rep h v) {s : Slot} {c : Content}
    (hs : (v s).map Buffer.content = some c) :
    (h.slot s).addr ≠ 0 ∧ h.live (h.slot s).addr = some ⟨(h.slot s).size, c⟩ := by
  obtain ⟨b, hv, rfl⟩ := Option.map_eq_some_iff.mp hs
  obtain ⟨hsize, hlive⟩ := hr.held s b hv
  refine ⟨by rw [Ne, hr.addr_eq_zero_iff, hv]; simp, ?_⟩
  rw [hlive, hsize]

theorem Reached.sound (h : Reached k dk f) : Sound dk f := by
  obtain ⟨v, hk, -⟩ := h.kept
  refine ⟨hk.rep.tame, fun l hl => hk.rep.live_eq (hk.blk l hl), fun n hn => ?_, fun a ha => ?_⟩
  · obtain ⟨b, hblock, hc⟩ := hk.buf n hn
    exact ⟨(hk.rep.live_eq hc).1, b, hblock, (hk.rep.live_eq hc).2⟩
  · obtain ⟨s, hs, rfl⟩ := hk.rep.owned a ha
    exact ⟨s, rfl, fun t ht => (hk.rep.apart s t hs ht.symm).symm⟩

end

open Classical in
/-- Memory is put where the answer says, if it can be. -/
noncomputable def asAnswered : Kernel where
  place i live := if i ≠ 0 ∧ live i = none then i
    else if h : ∃ a, a ≠ 0 ∧ live a = none then h.choose else 0
  fresh i live hfin := by
    obtain ⟨a, ha⟩ := (hfin.insert 0).exists_notMem
    have hex : ∃ a, a ≠ 0 ∧ live a = none := ⟨a, by simpa using ha⟩
    by_cases hi : i ≠ 0 ∧ live i = none
    · simp only [if_pos hi]
      exact hi
    · simp only [if_neg hi, dif_pos hex]
      exact hex.choose_spec

/-- Files of two blocks of 8192 bytes, with an indirect block. -/
def smallDisk : Disk where
  words b i := b + i
  inode _ := ⟨fun n => 100 + n, fun _ => 200, 16384⟩
  nindir l := 2048 ^ (l + 1)
  bshift := 13
  fshift := 10

def given (choice : ℕ) : Reply := ⟨8192, choice, true⟩

def failed : Reply := ⟨0, 0, true⟩

/-- A new file after some calls. -/
noncomputable def after (es : List Event) : File :=
  es.foldl (File.step asAnswered smallDisk) (.init (smallDisk.inode 2))

theorem reached_sound_read :
    Sound smallDisk ((File.init (smallDisk.inode 2)).step asAnswered smallDisk
      (.bufReadFile 0 (fun _ => failed) (given 1))) := by
  have hfine : FineRead smallDisk (.init (smallDisk.inode 2)) 0 (fun _ => failed) (given 1) :=
    .inr (.inr ⟨fun h => absurd h (by decide), .inl (by decide)⟩)
  exact (Reached.step (k := asAnswered) (e := .bufReadFile 0 (fun _ => failed) (given 1))
    (.init _) hfine).sound

/-- The buffer of the block that the file says it has is gone. -/
def File.BufGone (f : File) : Prop :=
  f.bufBlkno = some 0 ∧ f.heap.live (f.heap.slot .buf).addr = none

/-- A data block that cannot be read after the old buffer was given up, which is then given up
again; an indirect block after the size outlived the buffer; and a list of blocks made of a file
that has a buffer. -/
theorem buffers_lost : (after [.bufReadFile 0 (fun _ => failed) (given 1),
      .bufReadFile 8192 (fun _ => failed) failed]).BufGone ∧
    (after [.bufReadFile 0 (fun _ => failed) (given 1), .bufReadFile 8192 (fun _ => failed) failed,
      .bufReadFile 8192 (fun _ => failed) (given 2)]).heap.wild = true ∧
    (after [.blockMap 12 (fun _ => given 1), .readInode 3 (given 2),
      .blockMap 12 (fun _ => given 1)]).heap.wild = true ∧
    (after [.bufReadFile 0 (fun _ => failed) (given 1),
      .addFileDirect 0 true (fun _ _ => failed) (given 2)]).BufGone := by
  refine ⟨⟨?_, ?_⟩, ?_, ?_, ?_, ?_⟩ <;> decide

end MachKernel.Boot.FileBuffers
