import MachKernel.Boot.PageMap
import Mathlib.Data.List.ReduceOption

/-! The buffers of the block maps (`boot_ufs/default_pager.c`): what `kalloc` gave for them, with
its size, and what becomes of buffers and blocks in a run of the operations on paging objects. -/

namespace MachKernel.Boot
open Vm Function List Option

/-! ## The operations -/

/-- What a buffer holds: the blocks of pages, or pointers to second-level maps. -/
inductive Entries
  | blocks (l : List (Option ℕ))
  | tables (l : List (Option ℕ))

def Entries.length : Entries → ℕ
  | blocks l | tables l => l.length

structure Buffer where
  size : ℕ
  entries : Entries

/-- The buffers by their address. An address that was given is not given again, so that the use of a
buffer that was freed shows. -/
structure Kheap where
  buffer : ℕ → Option Buffer
  next : ℕ

def pagemapSize (npgs : ℕ) : ℕ := npgs * 4

def indirectPagemapSize (npgs : ℕ) : ℕ := indirectPagemapEntries npgs * 4

/-- `struct dpager`, less its lock and its partition. -/
structure DpagerAt where
  map : ℕ
  size : ℕ

namespace Kheap

/-- `kalloc`, and the loop that fills the buffer: it is wild unless it fills the buffer. -/
def kalloc (h : Kheap) (size : ℕ) (entries : Entries) : Except Stop (ℕ × Kheap) :=
  if entries.length * 4 = size then
    .ok (h.next, ⟨update h.buffer h.next (some ⟨size, entries⟩), h.next + 1⟩)
  else .error .wild

/-- `kfree`, which is wild for another size than that of the buffer. -/
def kfree (h : Kheap) (addr size : ℕ) : Except Stop Kheap :=
  match h.buffer addr with
  | none => .error .wild
  | some b =>
    if b.size = size then .ok { h with buffer := update h.buffer addr none }
    else .error .wild

/-- The first `n` words of a buffer of blocks. -/
def blocksAt (h : Kheap) (addr n : ℕ) : Except Stop (List (Option ℕ)) :=
  match h.buffer addr with
  | some ⟨_, .blocks l⟩ => if n ≤ l.length then .ok (l.take n) else .error .wild
  | _ => .error .wild

/-- The first `n` words of a buffer of pointers. -/
def tablesAt (h : Kheap) (addr n : ℕ) : Except Stop (List (Option ℕ)) :=
  match h.buffer addr with
  | some ⟨_, .tables l⟩ => if n ≤ l.length then .ok (l.take n) else .error .wild
  | _ => .error .wild

/-- The block of a page in the map of a paging object. -/
def block (h : Kheap) (pager : DpagerAt) (fPage : ℕ) : Option ℕ :=
  if IndirectPagemap pager.size then
    match h.buffer pager.map with
    | some ⟨_, .tables l⟩ =>
      match l[fPage / pagemapEntries]?.join with
      | none => none
      | some mapptr =>
        match h.buffer mapptr with
        | some ⟨_, .blocks l⟩ => l[fPage % pagemapEntries]?.join
        | _ => none
    | _ => none
  else
    match h.buffer pager.map with
    | some ⟨_, .blocks l⟩ => l[fPage]?.join
    | _ => none

/-- A word of a buffer is set. -/
def setEntries (h : Kheap) (addr : ℕ) (entries : Entries) : Kheap :=
  { h with
    buffer := update h.buffer addr ((h.buffer addr).map fun b => { b with entries }) }

end Kheap

namespace DpagerAt

/-- `pager_alloc`, for a size in pages. -/
def pagerAlloc (h : Kheap) (size : ℕ) : Except Stop (DpagerAt × Kheap) :=
  let size := doubleUntil size size 1
  let mapptr :=
    if IndirectPagemap size then
      h.kalloc (indirectPagemapSize size) (.tables (.replicate (indirectPagemapEntries size) none))
    else h.kalloc (pagemapSize size) (.blocks (.replicate size none))
  mapptr.map fun (map, h) => (⟨map, size⟩, h)

def pagerExtend (h : Kheap) (pager : DpagerAt) (newSize : ℕ) : Except Stop (DpagerAt × Kheap) :=
  let oldSize := pager.size
  let newSize := doubleUntil newSize newSize oldSize
  if IndirectPagemap oldSize then
    (h.tablesAt pager.map (indirectPagemapEntries oldSize)).bind fun old =>
    (h.kalloc (indirectPagemapSize newSize) (.tables (old ++
      .replicate (indirectPagemapEntries newSize - indirectPagemapEntries oldSize) none))).bind
        fun (map, h) =>
    (h.kfree pager.map (indirectPagemapSize oldSize)).map fun h => (⟨map, newSize⟩, h)
  else if IndirectPagemap newSize then
    -- the second-level map first
    (h.blocksAt pager.map oldSize).bind fun old =>
    (h.kalloc (pagemapSize pagemapEntries) (.blocks (old ++
      .replicate (pagemapEntries - oldSize) none))).bind fun (table, h) =>
    (h.kfree pager.map (pagemapSize oldSize)).bind fun h =>
    (h.kalloc (indirectPagemapSize newSize) (.tables (some table ::
      .replicate (indirectPagemapEntries newSize - 1) none))).map fun (map, h) =>
      (⟨map, newSize⟩, h)
  else
    (h.blocksAt pager.map oldSize).bind fun old =>
    (h.kalloc (pagemapSize newSize) (.blocks (old ++
      .replicate (newSize - oldSize) none))).bind fun (map, h) =>
    (h.kfree pager.map (pagemapSize oldSize)).map fun h => (⟨map, newSize⟩, h)

/-- The end of `pager_write_offset`, with the map that has the page. -/
def writeBlock (h : Kheap) (mapptr fPage : ℕ) (part : Part) : Except Stop (ℕ × Kheap × Part) :=
  match h.buffer mapptr with
  | some ⟨_, .blocks l⟩ =>
    (assignBlock l fPage part).map fun (block, l, part) =>
      (block, h.setEntries mapptr (.blocks l), part)
  | _ => .error .wild

/-- `pager_write_offset` when the page is in the map. -/
def pagerWriteWithin (h : Kheap) (pager : DpagerAt) (fPage : ℕ) (part : Part) :
    Except Stop (ℕ × Kheap × Part) :=
  if IndirectPagemap pager.size then
    match h.buffer pager.map with
    | some ⟨_, .tables l⟩ =>
      match l[fPage / pagemapEntries]? with
      | none => .error .wild
      | some none =>
        (h.kalloc (pagemapSize pagemapEntries) (.blocks (.replicate pagemapEntries none))).bind
          fun (mapptr, h) =>
        let h := h.setEntries pager.map (.tables (l.set (fPage / pagemapEntries) (some mapptr)))
        writeBlock h mapptr (fPage % pagemapEntries) part
      | some (some mapptr) => writeBlock h mapptr (fPage % pagemapEntries) part
    | _ => .error .wild
  else writeBlock h pager.map fPage part

/-- `pager_write_offset`, for the page of the offset. One extension covers the page. -/
def pagerWriteOffset (h : Kheap) (pager : DpagerAt) (fPage : ℕ) (part : Part) :
    Except Stop (ℕ × DpagerAt × Kheap × Part) :=
  (if pager.size ≤ fPage then pagerExtend h pager (fPage + 1) else .ok (pager, h)).bind
    fun (pager, h) => (pagerWriteWithin h pager fPage part).map fun (block, h, part) =>
      (block, pager, h, part)

end DpagerAt

def pagerDeallocPage (part : Part) (page : ℕ) : Except Stop Part :=
  if part.totalSize ≤ page then .error (.panic "dealloc_page")
  else
    let byte := page / 8
    let bit := page % 8
    .ok { part with
      bitmap := part.bitmap.set byte (part.bitmap.getD byte 0 &&& (0xff - 1 <<< bit))
      free := part.free + 1 }

/-- The loops of `pager_dealloc` over the blocks of a map. -/
def pagerDeallocBlocks : List (Option ℕ) → Part → Except Stop Part
  | [], part => .ok part
  | none :: l, part => pagerDeallocBlocks l part
  | some block :: l, part => (pagerDeallocPage part block).bind (pagerDeallocBlocks l)

namespace DpagerAt

/-- The loop of `pager_dealloc` over the second-level maps, from the last one down. -/
def pagerDeallocTables (tables : List (Option ℕ)) : ℕ → Kheap → Part → Except Stop (Kheap × Part)
  | 0, h, part => .ok (h, part)
  | i + 1, h, part =>
    match tables[i]? with
    | none => .error .wild
    | some none => pagerDeallocTables tables i h part
    | some (some mapptr) =>
      (h.blocksAt mapptr pagemapEntries).bind fun blocks =>
      (pagerDeallocBlocks blocks part).bind fun part =>
      (h.kfree mapptr (pagemapSize pagemapEntries)).bind fun h => pagerDeallocTables tables i h part

def pagerDealloc (h : Kheap) (pager : DpagerAt) (part : Part) : Except Stop (Kheap × Part) :=
  if IndirectPagemap pager.size then
    (h.tablesAt pager.map (indirectPagemapEntries pager.size)).bind fun tables =>
    (pagerDeallocTables tables (indirectPagemapEntries pager.size) h part).bind fun (h, part) =>
    (h.kfree pager.map (indirectPagemapSize pager.size)).map fun h => (h, part)
  else
    (h.blocksAt pager.map pager.size).bind fun blocks =>
    (pagerDeallocBlocks blocks part).bind fun part =>
    (h.kfree pager.map (pagemapSize pager.size)).map fun h => (h, part)

end DpagerAt

/-! ## Runs -/

/-- A partition with its paging objects, by the addresses of their descriptors. -/
structure PagingArea where
  part : Part
  heap : Kheap
  pager : ℕ → Option DpagerAt

inductive PagingOp
  | alloc (ds size : ℕ)
  | writeOffset (ds offset : ℕ)
  | extend (ds newSize : ℕ)
  | dealloc (ds : ℕ)

namespace PagingArea

/-- `part_create`, for a size in bytes. -/
def create [PageSize] (size : ℕ) : PagingArea :=
  ⟨partCreate (atop size), ⟨fun _ => none, 0⟩, fun _ => none⟩

/-- An object is allocated once, and used until it is deallocated. -/
def Enabled (w : PagingArea) : PagingOp → Prop
  | .alloc ds _ => w.pager ds = none
  | .writeOffset ds _ | .extend ds _ | .dealloc ds => w.pager ds ≠ none

def setPager (w : PagingArea) (ds : ℕ) (pager : Option DpagerAt) : PagingArea :=
  { w with pager := update w.pager ds pager }

/-- An operation that is run to completion. -/
def step [PageSize] (w : PagingArea) : PagingOp → Except Stop PagingArea
  | .alloc ds size =>
    (DpagerAt.pagerAlloc w.heap (atop size)).map fun (pager, heap) =>
      { w.setPager ds pager with heap }
  | .writeOffset ds offset =>
    match w.pager ds with
    | none => .error .wild
    | some pager =>
      (DpagerAt.pagerWriteOffset w.heap pager (atop offset) w.part).map
        fun (_, pager, heap, part) => { w.setPager ds pager with heap, part }
  | .extend ds newSize =>
    match w.pager ds with
    | none => .error .wild
    | some pager =>
      (DpagerAt.pagerExtend w.heap pager newSize).map fun (pager, heap) =>
        { w.setPager ds pager with heap }
  | .dealloc ds =>
    match w.pager ds with
    | none => .error .wild
    | some pager =>
      (DpagerAt.pagerDealloc w.heap pager w.part).map fun (heap, part) =>
        { w.setPager ds none with heap, part }

/-- The block of a page, as the block map of the object has it. -/
def block (w : PagingArea) (ds fPage : ℕ) : Option ℕ :=
  (w.pager ds).bind fun pager => w.heap.block pager fPage

/-- The areas that come of a run. -/
inductive Reachable [PageSize] (size : ℕ) : PagingArea → Prop
  | create : Reachable size (create size)
  | step {w w' : PagingArea} {op : PagingOp} (h : Reachable size w) (hop : w.Enabled op)
    (hs : w.step op = .ok w') : Reachable size w'

end PagingArea

/-! ## Whose buffers they are -/

/-- Whose map a buffer was allocated for: the map of an object, or a second-level map of it. -/
abbrev Role := ℕ → Option (ℕ × Option ℕ)

/-- A pointer to a second-level map, and what the map says. -/
def Pointed (role : Role) (h : Kheap) (ds i : ℕ) : Option ℕ → Option (List (Option ℕ)) → Prop
  | none, none => True
  | some a, some table => role a = some (ds, some i) ∧
      h.buffer a = some ⟨pagemapSize pagemapEntries, .blocks table⟩
  | _, _ => False

/-- The buffers of an object make up a block map. -/
def Holds (role : Role) (h : Kheap) (ds : ℕ) (p : DpagerAt) (d : Dpager) : Prop :=
  d.size = p.size ∧ role p.map = some (ds, none) ∧
  match d.map with
  | .direct blocks => h.buffer p.map = some ⟨pagemapSize p.size, .blocks blocks⟩
  | .indirect tables => ∃ ptrs, h.buffer p.map = some ⟨indirectPagemapSize p.size, .tables ptrs⟩ ∧
      ptrs.length = tables.length ∧ ∀ i, Pointed role h ds i ptrs[i]?.join tables[i]?.join

/-- An operation on an object leaves the buffers of the others alone. -/
structure Private (ds : ℕ) (role : Role) (h : Kheap) (role' : Role) (h' : Kheap) : Prop where
  below : ∀ a, role' a ≠ none → a < h'.next
  others : ∀ a ds' o, role a = some (ds', o) → ds' ≠ ds → role' a = role a ∧ h'.buffer a = h.buffer a

variable {role role' role'' : Role} {h h' h'' : Kheap} {ds ds' i : ℕ} {p p' : DpagerAt} {d : Dpager}

theorem Private.trans (h₁ : Private ds role h role' h') (h₂ : Private ds role' h' role'' h'') :
    Private ds role h role'' h'' where
  below := h₂.below
  others a ds' o ha hne := by
    obtain ⟨hrole, hbuffer⟩ := h₁.others a ds' o ha hne
    obtain ⟨hrole', hbuffer'⟩ := h₂.others a ds' o (hrole.trans ha) hne
    exact ⟨hrole'.trans hrole, hbuffer'.trans hbuffer⟩

variable {t : Option (List (Option ℕ))} {a size n : ℕ} {entries : Entries} {l : List (Option ℕ)}

theorem Pointed.congr {a : Option ℕ} (hp : Pointed role h ds i a t)
    (hsame : ∀ a, role a = some (ds, some i) → role' a = role a ∧ h'.buffer a = h.buffer a) :
    Pointed role' h' ds i a t := by
  cases a <;> cases t
  · trivial
  · exact hp
  · exact hp
  · obtain ⟨hrole, hbuffer⟩ := hp
    obtain ⟨hrole', hbuffer'⟩ := hsame _ hrole
    exact ⟨hrole'.trans hrole, hbuffer'.trans hbuffer⟩

theorem Holds.others (hd : Holds role h ds' p d) (hp : Private ds role h role' h') (hne : ds' ≠ ds) :
    Holds role' h' ds' p d := by
  obtain ⟨hsize, hrole, hmap⟩ := hd
  obtain ⟨hrole', hbuffer⟩ := hp.others _ _ _ hrole hne
  refine ⟨hsize, hrole'.trans hrole, ?_⟩
  cases hd : d.map with
  | direct blocks =>
    rw [hd] at hmap
    exact hbuffer.trans hmap
  | indirect tables =>
    rw [hd] at hmap
    obtain ⟨ptrs, hmap, hlen, hptrs⟩ := hmap
    exact ⟨ptrs, hbuffer.trans hmap, hlen, fun i =>
      (hptrs i).congr fun a ha => hp.others a _ _ ha hne⟩

theorem Holds.block_eq (hd : Holds role h ds p d) (hfits : d.Fits) : h.block p = d.block := by
  obtain ⟨hsize, -, hmap⟩ := hd
  obtain ⟨map, size⟩ := d
  obtain rfl : size = p.size := hsize
  obtain ⟨-, hform⟩ := hfits
  funext j
  unfold Kheap.block Dpager.block
  cases map with
  | direct blocks =>
    dsimp only at hmap hform ⊢
    rw [if_neg hform.1, hmap]
  | indirect tables =>
    dsimp only at hmap hform ⊢
    obtain ⟨ptrs, hmap, -, hptrs⟩ := hmap
    rw [if_pos hform.1, hmap]
    dsimp only
    have hptr := hptrs (j / pagemapEntries)
    cases ha : ptrs[j / pagemapEntries]?.join <;> cases ht : tables[j / pagemapEntries]?.join <;>
      rw [ha, ht] at hptr
    · rfl
    · exact hptr.elim
    · exact hptr.elim
    · dsimp only
      rw [hptr.2]
      rfl

/-! ## Buffers that are allocated and freed -/

/-- The buffers after `kalloc`. -/
def Kheap.added (h : Kheap) (size : ℕ) (entries : Entries) : Kheap :=
  ⟨update h.buffer h.next (some ⟨size, entries⟩), h.next + 1⟩

theorem kalloc_eq (hlen : entries.length * 4 = size) :
    h.kalloc size entries = .ok (h.next, h.added size entries) := if_pos hlen

theorem kfree_eq (ha : h.buffer a = some ⟨size, entries⟩) :
    h.kfree a size = .ok { h with buffer := update h.buffer a none } := by
  unfold Kheap.kfree
  rw [ha]
  exact if_pos rfl

theorem kfree_added (hne : a ≠ h.next)
    (ha : h.buffer a = some ⟨size, entries⟩) (size' : ℕ) (entries' : Entries) :
    (h.added size' entries').kfree a size = .ok { h.added size' entries' with
      buffer := update (h.added size' entries').buffer a none } :=
  kfree_eq ((update_of_ne hne _ _).trans ha)

theorem blocksAt_eq (ha : h.buffer a = some ⟨size, .blocks l⟩)
    (hlen : l.length = n) : h.blocksAt a n = .ok l := by
  unfold Kheap.blocksAt
  rw [ha]
  dsimp only
  rw [if_pos hlen.ge, ← hlen, take_length]

theorem tablesAt_eq (ha : h.buffer a = some ⟨size, .tables l⟩)
    (hlen : l.length = n) : h.tablesAt a n = .ok l := by
  unfold Kheap.tablesAt
  rw [ha]
  dsimp only
  rw [if_pos hlen.ge, ← hlen, take_length]

theorem Private.add (hbelow : ∀ a, role a ≠ none → a < h.next) (ds : ℕ) (o : Option ℕ) (size : ℕ)
    (entries : Entries) :
    Private ds role h (update role h.next (some (ds, o))) (h.added size entries) where
  below a ha := by
    change a < h.next + 1
    by_cases hnext : a = h.next
    · omega
    · rw [update_of_ne hnext] at ha
      exact (hbelow a ha).trans (Nat.lt_succ_self _)
  others a ds' o' ha hne := by
    have hnext : a ≠ h.next := (hbelow a (by rw [ha]; simp)).ne
    exact ⟨update_of_ne hnext _ _, update_of_ne hnext _ _⟩

theorem Private.update (hbelow : ∀ a, role a ≠ none → a < h.next) {o : Option ℕ}
    (ha : role a = some (ds, o)) (b : Option Buffer) :
    Private ds role h role { h with buffer := update h.buffer a b } where
  below := hbelow
  others a' ds' o' ha' hne := by
    refine ⟨rfl, update_of_ne ?_ _ _⟩
    rintro rfl
    rw [ha] at ha'
    exact hne (Prod.ext_iff.mp (some.inj ha')).1.symm

theorem Pointed.none_left (hi : Pointed role h ds i none t) : t = none := by
  cases t with
  | none => rfl
  | some table => exact hi.elim

namespace DpagerAt

theorem pagerAlloc_spec (hbelow : ∀ a, role a ≠ none → a < h.next) (ds size : ℕ) :
    ∃ p' h' role', pagerAlloc h size = .ok (p', h') ∧ Holds role' h' ds p' (Boot.pagerAlloc size) ∧
      Private ds role h role' h' := by
  unfold pagerAlloc Boot.pagerAlloc
  dsimp only
  by_cases hind : IndirectPagemap (doubleUntil size size 1)
  · rw [if_pos hind, if_pos hind, kalloc_eq (by simp [Entries.length, indirectPagemapSize])]
    refine ⟨_, _, _, rfl, ⟨rfl, update_self _ _ _, _, update_self _ _ _, by simp,
      fun i => ?_⟩, .add hbelow ds none _ _⟩
    have hnone : ∀ {β : Type}, (List.replicate (indirectPagemapEntries (doubleUntil size size 1))
        (none : Option β))[i]?.join = none := by
      intro β
      rw [getElem?_replicate]
      split_ifs <;> rfl
    rw [hnone, hnone]
    trivial
  · rw [if_neg hind, if_neg hind, kalloc_eq (by simp [Entries.length, pagemapSize])]
    exact ⟨_, _, _, rfl, ⟨rfl, update_self _ _ _, update_self _ _ _⟩, .add hbelow ds none _ _⟩

theorem replaced (hbelow : ∀ a, role a ≠ none → a < h.next) (hrole : role p.map = some (ds, none))
    (size : ℕ) (entries : Entries) :
    Private ds role h (update role h.next (some (ds, none))) { h.added size entries with
        buffer := update (h.added size entries).buffer p.map none } := by
  have hadd := Private.add hbelow ds none size entries
  refine hadd.trans (.update hadd.below (o := none) ?_ none)
  rw [update_of_ne (hbelow _ (by rw [hrole]; simp)).ne]
  exact hrole

theorem replaced_same (hbelow : ∀ a, role a ≠ none → a < h.next) (hrole : role p.map = some (ds, none))
    (size : ℕ) (entries : Entries) {a : ℕ} (ha : role a = some (ds, some i)) :
    update role h.next (some (ds, none)) a = role a ∧
      update (h.added size entries).buffer p.map none a = h.buffer a := by
  have hnext : a ≠ h.next := (hbelow _ (by rw [ha]; simp)).ne
  have hmap : a ≠ p.map := by
    rintro rfl
    rw [hrole] at ha
    cases ha
  exact ⟨update_of_ne hnext _ _, (update_of_ne hmap _ _).trans (update_of_ne hnext _ _)⟩

theorem pagerExtend_spec (hbelow : ∀ a, role a ≠ none → a < h.next) (hd : Holds role h ds p d)
    (hfits : d.Fits) (newSize : ℕ) {d' : Dpager} (hd' : Boot.pagerExtend d newSize = .ok d') :
    ∃ p' h' role', pagerExtend h p newSize = .ok (p', h') ∧ Holds role' h' ds p' d' ∧
      Private ds role h role' h' := by
  obtain ⟨hsize, hrole, hmap⟩ := hd
  obtain ⟨map, size⟩ := d
  obtain rfl : size = p.size := hsize
  obtain ⟨hpos, hform⟩ := hfits
  have hle := le_doubleUntil newSize newSize p.size
  have hnext : p.map ≠ h.next := (hbelow _ (by rw [hrole]; simp)).ne
  unfold pagerExtend
  dsimp only
  cases map with
  | indirect tables =>
    obtain ⟨hind, hlen, htables⟩ := hform
    obtain ⟨ptrs, hmap, hptrlen, hptrs⟩ := hmap
    dsimp only at hind hlen
    have htake : tables.take (indirectPagemapEntries p.size) = tables := by
      rw [← hlen, take_length]
    rw [if_pos hind, tablesAt_eq hmap (hptrlen.trans hlen)]
    simp only [Boot.pagerExtend, if_pos hind, htake] at hd'
    obtain rfl := Except.ok.inj hd'
    have hmono := indirectPagemapEntries_mono hle
    simp only [Except.bind, Except.map]
    rw [kalloc_eq (by
      rw [Entries.length, length_append, length_replicate, hptrlen, hlen, indirectPagemapSize]
      omega)]
    dsimp only
    rw [kfree_added hnext hmap]
    refine ⟨_, _, _, rfl, ⟨rfl, update_self _ _ _, ptrs ++ .replicate
      (indirectPagemapEntries (doubleUntil newSize newSize p.size) - indirectPagemapEntries p.size)
      none, ?_, ?_, fun i => ?_⟩, replaced hbelow hrole _ _⟩
    · exact (update_of_ne hnext.symm _ _).trans (update_self _ _ _)
    · rw [length_append, length_append, hptrlen, length_replicate, length_replicate]
    · rw [join_getElem?_append_replicate, join_getElem?_append_replicate]
      exact (hptrs i).congr fun a ha => replaced_same hbelow hrole _ _ ha
  | direct blocks =>
    obtain ⟨hdir, hlen⟩ := hform
    dsimp only at hmap hdir hlen
    have htake : blocks.take p.size = blocks := by rw [← hlen, take_length]
    rw [if_neg hdir, blocksAt_eq hmap hlen]
    simp only [Boot.pagerExtend, if_neg hdir, htake] at hd'
    by_cases hind : IndirectPagemap (doubleUntil newSize newSize p.size)
    · rw [if_pos hind] at hd' ⊢
      obtain rfl := Except.ok.inj hd'
      have hsmall : p.size ≤ pagemapEntries := not_lt.1 hdir
      simp only [Except.bind, Except.map]
      rw [kalloc_eq (by
        rw [Entries.length, length_append, length_replicate, hlen, pagemapSize]
        omega)]
      dsimp only
      rw [kfree_added hnext hmap]
      dsimp only
      rw [kalloc_eq (by
        rw [Entries.length, length_cons, length_replicate, indirectPagemapSize,
          indirectPagemapEntries, Nat.add_sub_cancel])]
      -- the old map is the first second-level map
      have hadd := Private.add hbelow ds (some 0) (pagemapSize pagemapEntries)
        (.blocks (blocks ++ List.replicate (pagemapEntries - p.size) none))
      have hold : update role h.next (some (ds, some 0)) p.map = some (ds, none) := by
        rw [update_of_ne hnext, hrole]
      have hfree := hadd.trans (.update hadd.below hold none)
      refine ⟨_, _, _, rfl, ⟨rfl, update_self _ _ _, _, update_self _ _ _, by simp,
        fun i => ?_⟩, hfree.trans (.add hfree.below ds none _ _)⟩
      have hne : h.next ≠ h.next + 1 := by omega
      cases i with
      | zero =>
        refine ⟨?_, ?_⟩
        · exact (update_of_ne hne _ _).trans (update_self _ _ _)
        · exact (update_of_ne hne _ _).trans
            ((update_of_ne hnext.symm _ _).trans (update_self _ _ _))
      | succ i =>
        have hnone : ∀ {β : Type} (x : Option β) (n : ℕ),
            (x :: List.replicate n none)[i + 1]?.join = none := by
          intro β x n
          rw [getElem?_cons_succ, getElem?_replicate]
          split_ifs <;> rfl
        rw [hnone, hnone]
        trivial
    · rw [if_neg hind] at hd' ⊢
      obtain rfl := Except.ok.inj hd'
      simp only [Except.bind, Except.map]
      rw [kalloc_eq (by
        rw [Entries.length, length_append, length_replicate, hlen, pagemapSize]
        omega)]
      dsimp only
      rw [kfree_added hnext hmap]
      refine ⟨_, _, _, rfl, ⟨rfl, update_self _ _ _, ?_⟩, replaced hbelow hrole _ _⟩
      exact (update_of_ne hnext.symm _ _).trans (update_self _ _ _)

/-! ## Writes -/

/-- An operation on the buffers of an object does what the one on its map does. -/
def WritesAs (role : Role) (h : Kheap) (ds : ℕ) (p : DpagerAt) :
    Except Stop (ℕ × Dpager × Part) → Except Stop (ℕ × Kheap × Part) → Prop
  | .error e, r => r = .error e
  | .ok (b, d, part), r => ∃ h' role', r = .ok (b, h', part) ∧ Holds role' h' ds p d ∧
      Private ds role h role' h'

theorem writeBlock_eq {a fPage size : ℕ} {part : Part} {l : List (Option ℕ)}
    (ha : h.buffer a = some ⟨size, .blocks l⟩) :
    writeBlock h a fPage part = (assignBlock l fPage part).map fun (block, l, part) =>
      (block, { h with buffer := update h.buffer a (some ⟨size, .blocks l⟩) }, part) := by
  unfold writeBlock Kheap.setEntries
  rw [ha]
  rfl

theorem Holds.setTable {ptrs : List (Option ℕ)} {tables : List (Option (List (Option ℕ)))}
    (hrole : role p.map = some (ds, none))
    (hmap : h.buffer p.map = some ⟨indirectPagemapSize p.size, .tables ptrs⟩)
    (hlen : ptrs.length = tables.length) {k a : ℕ} (hk : k < ptrs.length)
    (hptr : ptrs[k]?.join = some a) (ha : role a = some (ds, some k))
    (hptrs : ∀ i ≠ k, Pointed role h ds i ptrs[i]?.join tables[i]?.join) (table : List (Option ℕ)) :
    Holds role ⟨update h.buffer a (some ⟨pagemapSize pagemapEntries, .blocks table⟩), h.next⟩ ds p
      ⟨.indirect (tables.set k (some table)), p.size⟩ := by
  have hne : p.map ≠ a := by
    rintro rfl
    rw [hrole] at ha
    cases ha
  refine ⟨rfl, hrole, ptrs, (update_of_ne hne _ _).trans hmap, by rw [length_set, hlen],
    fun i => ?_⟩
  by_cases hi : i = k
  · rw [hi, hptr, getElem?_set_self (hlen ▸ hk)]
    exact ⟨ha, update_self _ _ _⟩
  · rw [getElem?_set_ne (Ne.symm hi)]
    refine (hptrs i hi).congr fun a' ha' => ⟨rfl, update_of_ne ?_ _ _⟩
    rintro rfl
    rw [ha] at ha'
    exact hi (some.inj (Prod.ext_iff.mp (some.inj ha')).2).symm

theorem pagerWriteWithin_spec (hbelow : ∀ a, role a ≠ none → a < h.next) (hd : Holds role h ds p d)
    (hfits : d.Fits) (fPage : ℕ) (part : Part) :
    WritesAs role h ds p (Boot.pagerWriteWithin d fPage part) (pagerWriteWithin h p fPage part) := by
  obtain ⟨hsize, hrole, hmap⟩ := hd
  obtain ⟨map, size⟩ := d
  obtain rfl : size = p.size := hsize
  obtain ⟨hpos, hform⟩ := hfits
  unfold pagerWriteWithin Boot.pagerWriteWithin
  cases map with
  | direct blocks =>
    have hdir : ¬ IndirectPagemap p.size := hform.1
    dsimp only at hmap ⊢
    rw [if_neg hdir, if_neg hdir, writeBlock_eq hmap]
    cases assignBlock blocks fPage part with
    | error e => rfl
    | ok r =>
      exact ⟨_, _, rfl, ⟨rfl, hrole, update_self _ _ _⟩, .update hbelow hrole _⟩
  | indirect tables =>
    have hind : IndirectPagemap p.size := hform.1
    obtain ⟨ptrs, hmap, hlen, hptrs⟩ := hmap
    dsimp only
    rw [if_pos hind, if_pos hind, hmap]
    dsimp only
    generalize hk : fPage / pagemapEntries = k
    rcases lt_or_ge k ptrs.length with hlt | hge
    swap
    · rw [getElem?_eq_none hge, getElem?_eq_none (hlen ▸ hge)]
      rfl
    obtain ⟨ptr, hp⟩ : ∃ ptr, ptrs[k]? = some ptr := ⟨_, getElem?_eq_getElem hlt⟩
    obtain ⟨t, ht⟩ : ∃ t, tables[k]? = some t := ⟨_, getElem?_eq_getElem (hlen ▸ hlt)⟩
    have hptr := hptrs k
    rw [hp, ht, join_some, join_some] at hptr
    rw [hp, ht]
    have hnext : p.map ≠ h.next := (hbelow _ (by rw [hrole]; simp)).ne
    cases ptr with
    | none =>
      obtain rfl := hptr.none_left
      dsimp only
      rw [kalloc_eq (by simp [Entries.length, pagemapSize])]
      -- the new second-level map, and the pointer to it
      let entries : Entries := .blocks (List.replicate pagemapEntries none)
      let tables' : Entries := .tables (ptrs.set k (some h.next))
      let h' : Kheap := ⟨update (h.added (pagemapSize pagemapEntries) entries).buffer p.map
        (some ⟨indirectPagemapSize p.size, tables'⟩), h.next + 1⟩
      have hadd := Private.add hbelow ds (some k) (pagemapSize pagemapEntries) entries
      have hrole' : update role h.next (some (ds, some k)) p.map = some (ds, none) :=
        (update_of_ne hnext _ _).trans hrole
      have hset := hadd.trans (.update hadd.below hrole' (some ⟨indirectPagemapSize p.size, tables'⟩))
      have hentries : (h.added (pagemapSize pagemapEntries) entries).setEntries p.map tables' = h' := by
        unfold Kheap.setEntries
        rw [show (h.added (pagemapSize pagemapEntries) entries).buffer p.map = _ from
          (update_of_ne hnext _ _).trans hmap]
        rfl
      have hbuffer : h'.buffer h.next = some ⟨pagemapSize pagemapEntries, entries⟩ :=
        (update_of_ne hnext.symm _ _).trans (update_self _ _ _)
      change WritesAs role h ds p _ (writeBlock
        ((h.added (pagemapSize pagemapEntries) entries).setEntries p.map tables') h.next _ part)
      rw [hentries, getD_none, writeBlock_eq hbuffer]
      cases assignBlock (List.replicate pagemapEntries none) (fPage % pagemapEntries) part with
      | error e => rfl
      | ok r =>
        have hself : update role h.next (some (ds, some k)) h.next = some (ds, some k) :=
          update_self _ _ _
        refine ⟨_, _, rfl, ?_, hset.trans (.update hset.below hself _)⟩
        have hmap' : h'.buffer p.map =
            some ⟨indirectPagemapSize p.size, .tables (ptrs.set k (some h.next))⟩ :=
          update_self _ _ _
        refine Holds.setTable hrole' hmap' (by rw [length_set, hlen])
          (by rwa [length_set]) (by rw [getElem?_set_self hlt, join_some]) hself
          (fun i hi => ?_) _
        rw [getElem?_set_ne hi.symm]
        refine (hptrs i).congr fun a ha => ?_
        have hne : a ≠ h.next := (hbelow _ (by rw [ha]; simp)).ne
        have hmapne : a ≠ p.map := by
          rintro rfl
          rw [hrole] at ha
          cases ha
        exact ⟨update_of_ne hne _ _, (update_of_ne hmapne _ _).trans (update_of_ne hne _ _)⟩
    | some a =>
      cases t with
      | none => exact hptr.elim
      | some table =>
        dsimp only
        rw [getD_some, writeBlock_eq hptr.2]
        cases assignBlock table (fPage % pagemapEntries) part with
        | error e => rfl
        | ok r =>
          refine ⟨_, _, rfl, ?_, .update hbelow hptr.1 _⟩
          exact Holds.setTable hrole hmap hlen hlt (by rw [hp, join_some]) hptr.1
            (fun i _ => hptrs i) _

theorem pagerWriteOffset_spec (hbelow : ∀ a, role a ≠ none → a < h.next) (hd : Holds role h ds p d)
    (hfits : d.Fits) (fPage : ℕ) (part : Part) :
    match Boot.pagerWriteOffset d fPage part with
    | .error e => pagerWriteOffset h p fPage part = .error e
    | .ok (b, d', part') => ∃ p' h' role', pagerWriteOffset h p fPage part = .ok (b, p', h', part') ∧
        Holds role' h' ds p' d' ∧ Private ds role h role' h' := by
  -- a write to the object as it is, or as it was extended
  have hwithin : ∀ {role' : Role} {h' : Kheap} {p' : DpagerAt} {d' : Dpager},
      Private ds role h role' h' → Holds role' h' ds p' d' → d'.Fits →
      match Boot.pagerWriteWithin d' fPage part with
      | .error e => ((pagerWriteWithin h' p' fPage part).map fun (block, h, part) =>
          (block, p', h, part)) = .error e
      | .ok (b, d'', part') => ∃ p'' h'' role'', ((pagerWriteWithin h' p' fPage part).map
          fun (block, h, part) => (block, p', h, part)) = .ok (b, p'', h'', part') ∧
          Holds role'' h'' ds p'' d'' ∧ Private ds role h role'' h'' := by
    intro role' h' p' d' hpriv hd' hfits'
    have hspec := pagerWriteWithin_spec hpriv.below hd' hfits' fPage part
    cases hr : Boot.pagerWriteWithin d' fPage part with
    | error e =>
      rw [hr] at hspec
      rw [show pagerWriteWithin h' p' fPage part = .error e from hspec]
      rfl
    | ok r =>
      obtain ⟨b, d'', part'⟩ := r
      rw [hr] at hspec
      obtain ⟨h'', role'', hw, hd'', hpriv'⟩ := hspec
      rw [hw]
      exact ⟨p', h'', role'', rfl, hd'', hpriv.trans hpriv'⟩
  have hrefl : Private ds role h role h := ⟨hbelow, fun _ _ _ _ _ => ⟨rfl, rfl⟩⟩
  unfold pagerWriteOffset Boot.pagerWriteOffset
  rw [hd.1]
  by_cases hle : p.size ≤ fPage
  · rw [if_pos hle, if_pos hle]
    obtain ⟨d', hd', hfits', -⟩ := hfits.extend (fPage + 1)
    obtain ⟨p', h', role', hextend, hholds, hpriv⟩ := pagerExtend_spec hbelow hd hfits _ hd'
    rw [hd', hextend]
    exact hwithin hpriv hholds hfits'
  · rw [if_neg hle, if_neg hle]
    exact hwithin hrefl hd hfits

end DpagerAt

namespace Dpager
variable {fPage : ℕ} {part : Part} {e : Stop}

theorem assignBlock_error {map : List (Option ℕ)} (hf : fPage < map.length)
    (hb : blockOrAlloc map[fPage]?.join part = .error e) : assignBlock map fPage part = .error e := by
  rw [getElem?_eq_getElem hf, join_some] at hb
  rw [assignBlock, getElem?_eq_getElem hf]
  simp only [hb, Except.map]

theorem Fits.writeWithin_error (h : d.Fits) (hf : fPage < d.size)
    (hb : blockOrAlloc (d.block fPage) part = .error e) :
    Boot.pagerWriteWithin d fPage part = .error e := by
  obtain ⟨map, size⟩ := d
  obtain ⟨hpos, hform⟩ := h
  unfold Boot.pagerWriteWithin
  cases map with
  | direct blocks =>
    obtain ⟨hdir, hlen⟩ := hform
    dsimp only at hdir hlen hf ⊢
    rw [if_neg hdir, assignBlock_error (hlen ▸ hf) hb]
    rfl
  | indirect tables =>
    obtain ⟨hind, hlen, htables⟩ := hform
    dsimp only at hind hlen hf ⊢
    have hlt : fPage / pagemapEntries < tables.length := hlen ▸ div_lt_indirectPagemapEntries hf
    have hmod : fPage % pagemapEntries < pagemapEntries := Nat.mod_lt _ (by decide)
    obtain ⟨t, ht⟩ : ∃ t, tables[fPage / pagemapEntries]? = some t :=
      ⟨_, getElem?_eq_getElem hlt⟩
    unfold block at hb
    dsimp only at hb
    rw [ht, join_some] at hb
    rw [if_pos hind, ht]
    dsimp only
    cases t with
    | none =>
      rw [getD_none, assignBlock_error (by rw [length_replicate]; exact hmod)]
      · rfl
      · rw [getElem?_replicate, if_pos hmod]
        exact hb
    | some table =>
      rw [getD_some, assignBlock_error
        (by rw [htables table (mem_of_getElem? ht)]; exact hmod) hb]
      rfl

theorem Fits.write_error (h : d.Fits) (hb : blockOrAlloc (d.block fPage) part = .error e) :
    Boot.pagerWriteOffset d fPage part = .error e := by
  unfold Boot.pagerWriteOffset
  split_ifs with hle
  · obtain ⟨d', hd', hfits, hblock, hsize, -⟩ := h.extend (fPage + 1)
    rw [hd']
    exact hfits.writeWithin_error hsize (hblock ▸ hb)
  · exact h.writeWithin_error (not_le.1 hle) hb

end Dpager

/-! ## Blocks that are given back -/

namespace Part
variable {part : Part} {taken : Finset ℕ}

theorem testBit_clear {b bit i : ℕ} (hb : b < 2 ^ 8) (hbit : bit < 8) :
    (b &&& (0xff - 1 <<< bit)).testBit i = (b.testBit i && decide (i ≠ bit)) := by
  rw [Nat.testBit_and]
  by_cases hi : i < 8
  · congr 1
    interval_cases bit <;> interval_cases i <;> rfl
  · have hzero : b.testBit i = false :=
      Nat.testBit_lt_two_pow (hb.trans_le (Nat.pow_le_pow_right (by decide) (not_lt.mp hi)))
    rw [hzero, Bool.false_and, Bool.false_and]

theorem Marks.dealloc (h : part.Marks taken) {block : ℕ} (hin : block ∈ taken) :
    ∃ part', pagerDeallocPage part block = .ok part' ∧ part'.Marks (taken.erase block) ∧
      part'.totalSize = part.totalSize := by
  have hlt := h.lt block hin
  have hbyte : block / 8 < part.bitmap.length := by
    rw [h.length, howmany]
    omega
  have hget : part.bitmap.getD (block / 8) 0 < 2 ^ 8 := by
    rw [getD_eq_getElem _ _ hbyte]
    exact h.byte _ (getElem_mem hbyte)
  refine ⟨_, if_neg (not_le.mpr hlt), ?_, rfl⟩
  constructor
  · simpa using h.length
  · intro b hb
    rcases mem_or_eq_of_mem_set hb with hb | rfl
    · exact h.byte b hb
    · exact lt_of_le_of_lt Nat.and_le_left hget
  · intro i
    have hold := h.used i
    unfold Part.used at hold ⊢
    dsimp only
    rw [Finset.mem_erase, getD_eq_getElem?_getD, getElem?_set]
    by_cases hi : block / 8 = i / 8
    · rw [if_pos hi, if_pos hbyte, getD_some, testBit_clear hget (Nat.mod_lt _ (by decide)),
        Bool.and_eq_true, decide_eq_true_eq, hi, hold]
      have hiff : i % 8 ≠ block % 8 ↔ i ≠ block := by omega
      rw [hiff, and_comm]
    · rw [if_neg hi, ← getD_eq_getElem?_getD, hold]
      exact ⟨fun hmem => ⟨fun hc => hi (by rw [hc]), hmem⟩, And.right⟩
  · exact fun i hi => h.lt i (Finset.mem_of_mem_erase hi)
  · have hfree := h.free
    have hcard := Finset.card_erase_add_one hin
    dsimp only
    omega

theorem Marks.deallocBlocks (h : part.Marks taken) {l : List (Option ℕ)}
    (hin : ∀ b ∈ l.reduceOption, b ∈ taken) (hnodup : l.reduceOption.Nodup) :
    ∃ part', pagerDeallocBlocks l part = .ok part' ∧ part'.totalSize = part.totalSize ∧
      part'.Marks (taken \ l.reduceOption.toFinset) := by
  induction l generalizing part taken with
  | nil =>
    refine ⟨part, rfl, rfl, ?_⟩
    rw [reduceOption_nil, toFinset_nil, Finset.sdiff_empty]
    exact h
  | cons b l ih =>
    cases b with
    | none =>
      rw [reduceOption_cons_of_none] at hin hnodup ⊢
      exact ih h hin hnodup
    | some b =>
      rw [reduceOption_cons_of_some] at hin hnodup ⊢
      obtain ⟨hfirst, hnodup⟩ := nodup_cons.mp hnodup
      obtain ⟨part₁, hdealloc, hmarks, htotal⟩ := h.dealloc (hin b (mem_cons_self ..))
      obtain ⟨part₂, hrest, htotal₂, hmarks₂⟩ := ih hmarks (fun b' hb' => by
        refine Finset.mem_erase.mpr ⟨?_, hin b' (mem_cons_of_mem _ hb')⟩
        rintro rfl
        exact hfirst hb') hnodup
      refine ⟨part₂, ?_, htotal₂.trans htotal, ?_⟩
      · rw [pagerDeallocBlocks, hdealloc]
        exact hrest
      · rw [toFinset_cons, Finset.sdiff_insert, ← Finset.erase_sdiff_comm]
        exact hmarks₂

end Part

theorem mem_reduceOption {b : ℕ} : b ∈ l.reduceOption ↔ ∃ j : ℕ, l[j]?.join = some b := by
  rw [reduceOption_mem_iff, mem_iff_getElem?]
  refine exists_congr fun j => ?_
  cases l[j]? <;> simp

theorem nodup_reduceOption (hinj : ∀ i j b : ℕ, l[i]?.join = some b → l[j]?.join = some b → i = j) :
    l.reduceOption.Nodup := by
  induction l with
  | nil => exact nodup_nil
  | cons b l ih =>
    have hrest := ih fun i j b hi hj => Nat.succ_inj.mp (hinj (i + 1) (j + 1) b hi hj)
    cases b with
    | none =>
      rw [reduceOption_cons_of_none]
      exact hrest
    | some b =>
      rw [reduceOption_cons_of_some]
      refine nodup_cons.mpr ⟨fun hmem => ?_, hrest⟩
      obtain ⟨j, hj⟩ := mem_reduceOption.mp hmem
      cases hinj 0 (j + 1) b rfl hj

namespace DpagerAt

/-- A block of a second-level map. -/
def InTable (tables : List (Option (List (Option ℕ)))) (i j b : ℕ) : Prop :=
  ∃ table, tables[i]?.join = some table ∧ table[j]?.join = some b

variable {part : Part} {tables : List (Option (List (Option ℕ)))} {taken : Finset ℕ}

/-- The second-level maps below the `n`th give back their blocks and are freed. -/
theorem pagerDeallocTables_spec {ptrs : List (Option ℕ)} {n : ℕ} (hn : n ≤ ptrs.length)
    (hbelow : ∀ a, role a ≠ none → a < h.next)
    (hptrs : ∀ i < n, Pointed role h ds i ptrs[i]?.join tables[i]?.join)
    (htables : ∀ table, some table ∈ tables → table.length = pagemapEntries)
    (hmarks : part.Marks taken) (hin : ∀ i < n, ∀ j b, InTable tables i j b → b ∈ taken)
    (hinj : ∀ i j i' j' b, InTable tables i j b → InTable tables i' j' b → i = i' ∧ j = j') :
    ∃ h' part' taken', pagerDeallocTables ptrs n h part = .ok (h', part') ∧
      Private ds role h role h' ∧ (∀ a, role a = some (ds, none) → h'.buffer a = h.buffer a) ∧
      part'.Marks taken' ∧ part'.totalSize = part.totalSize ∧
      ∀ b, b ∈ taken' ↔ b ∈ taken ∧ ¬ ∃ i < n, ∃ j, InTable tables i j b := by
  induction n generalizing h part taken with
  | zero =>
    exact ⟨h, part, taken, rfl, ⟨hbelow, fun _ _ _ _ _ => ⟨rfl, rfl⟩⟩, fun _ _ => rfl, hmarks, rfl,
      fun b => ⟨fun hb => ⟨hb, by simp⟩, And.left⟩⟩
  | succ n ih =>
    obtain ⟨ptr, hp⟩ : ∃ ptr, ptrs[n]? = some ptr := ⟨_, getElem?_eq_getElem hn⟩
    have hptr := hptrs n (Nat.lt_succ_self n)
    rw [hp, Option.join_some] at hptr
    rw [pagerDeallocTables, hp]
    cases ptr with
    | none =>
      have hnone := hptr.none_left
      obtain ⟨h', part', taken', hrun, hpriv, hmap, hmarks', htotal, htaken⟩ := ih (by omega) hbelow
        (fun i hi => hptrs i (by omega)) hmarks (fun i hi => hin i (by omega))
      refine ⟨h', part', taken', hrun, hpriv, hmap, hmarks', htotal, fun b => ?_⟩
      rw [htaken]
      refine and_congr_right fun _ => not_congr ⟨?_, ?_⟩
      · rintro ⟨i, hi, hb⟩
        exact ⟨i, by omega, hb⟩
      · rintro ⟨i, hi, j, hb⟩
        refine ⟨i, lt_of_le_of_ne (by omega) ?_, j, hb⟩
        rintro rfl
        obtain ⟨table, ht, -⟩ := hb
        rw [hnone] at ht
        cases ht
    | some a =>
      cases ht : tables[n]?.join with
      | none =>
        rw [ht] at hptr
        exact hptr.elim
      | some table =>
        rw [ht] at hptr
        obtain ⟨hrole, hbuffer⟩ := hptr
        have hlen : table.length = pagemapEntries := by
          refine htables table (List.mem_of_getElem? (i := n) ?_)
          cases hget : tables[n]? with
          | none =>
            rw [hget] at ht
            cases ht
          | some t =>
            rw [hget] at ht
            exact congrArg some ht
        have hblock : ∀ {j b}, table[j]?.join = some b → InTable tables n j b := fun hb =>
          ⟨table, ht, hb⟩
        obtain ⟨part₁, hblocks, htotal₁, hmarks₁⟩ := hmarks.deallocBlocks (fun b hb => by
            obtain ⟨j, hj⟩ := mem_reduceOption.mp hb
            exact hin n (Nat.lt_succ_self n) j b (hblock hj))
          (nodup_reduceOption fun i j b hi hj => (hinj _ _ _ _ _ (hblock hi) (hblock hj)).2)
        have hupdate := Private.update hbelow hrole none
        obtain ⟨h', part', taken', hrun, hpriv, hmap, hmarks', htotal, htaken⟩ := ih (by omega)
          hupdate.below (fun i hi => (hptrs i (by omega)).congr fun a' ha' => ⟨rfl, update_of_ne (by
              rintro rfl
              rw [hrole] at ha'
              have hin := (Prod.ext_iff.mp (some.inj ha')).2
              exact absurd (some.inj hin) (by omega)) _ _⟩) hmarks₁
          (fun i hi j b hb => by
            refine Finset.mem_sdiff.mpr ⟨hin i (by omega) j b hb, fun hmem => ?_⟩
            obtain ⟨j', hj'⟩ := mem_reduceOption.mp (List.mem_toFinset.mp hmem)
            have hi' := (hinj _ _ _ _ _ hb (hblock hj')).1
            omega)
        refine ⟨h', part', taken', ?_, hupdate.trans hpriv, fun a' ha' => ?_, hmarks',
          htotal.trans htotal₁, fun b => ?_⟩
        · dsimp only
          rw [blocksAt_eq hbuffer hlen]
          simp only [Except.bind, hblocks]
          rw [kfree_eq hbuffer]
          exact hrun
        · refine (hmap a' ha').trans (update_of_ne ?_ _ _)
          rintro rfl
          rw [hrole] at ha'
          cases ha'
        · rw [htaken, Finset.mem_sdiff, List.mem_toFinset, and_assoc]
          refine and_congr_right fun _ => ?_
          rw [← not_or]
          refine not_congr ⟨?_, ?_⟩
          · rintro (hmem | ⟨i, hi, hb⟩)
            · obtain ⟨j, hj⟩ := mem_reduceOption.mp hmem
              exact ⟨n, Nat.lt_succ_self n, j, hblock hj⟩
            · exact ⟨i, by omega, hb⟩
          · rintro ⟨i, hi, j, hb⟩
            rcases Nat.lt_succ_iff_lt_or_eq.mp hi with hlt | rfl
            · exact .inr ⟨i, hlt, j, hb⟩
            · obtain ⟨table', ht', hj⟩ := hb
              rw [ht] at ht'
              obtain rfl := some.inj ht'
              exact .inl (mem_reduceOption.mpr ⟨j, hj⟩)

theorem entry_div_mod {i j : ℕ} (hj : j < pagemapEntries) :
    (i * pagemapEntries + j) / pagemapEntries = i ∧ (i * pagemapEntries + j) % pagemapEntries = j := by
  have hpos : 0 < pagemapEntries := by decide
  rw [Nat.add_comm]
  exact ⟨by rw [Nat.add_mul_div_right _ _ hpos, Nat.div_eq_of_lt hj, Nat.zero_add],
    by rw [Nat.add_mul_mod_self_right, Nat.mod_eq_of_lt hj]⟩

theorem inTable_block {size i j b : ℕ}
    (htables : ∀ table, some table ∈ tables → table.length = pagemapEntries)
    (hb : InTable tables i j b) : j < pagemapEntries ∧
      Dpager.block ⟨.indirect tables, size⟩ (i * pagemapEntries + j) = some b := by
  obtain ⟨table, ht, hj⟩ := hb
  have hlen := htables table (List.mem_of_getElem? (Option.join_eq_some_iff.mp ht))
  have hlt : j < pagemapEntries := by
    rw [← hlen]
    exact (List.getElem?_eq_some_iff.mp (Option.join_eq_some_iff.mp hj)).1
  refine ⟨hlt, ?_⟩
  unfold Dpager.block
  dsimp only
  rw [(entry_div_mod hlt).1, (entry_div_mod hlt).2, ht, bind_some, hj]

theorem block_inTable {size j b : ℕ} (hb : Dpager.block ⟨.indirect tables, size⟩ j = some b) :
    j / pagemapEntries < tables.length ∧
      InTable tables (j / pagemapEntries) (j % pagemapEntries) b := by
  unfold Dpager.block at hb
  dsimp only at hb
  cases ht : tables[j / pagemapEntries]?.join with
  | none =>
    rw [ht] at hb
    cases hb
  | some table =>
    rw [ht, bind_some] at hb
    exact ⟨(List.getElem?_eq_some_iff.mp (Option.join_eq_some_iff.mp ht)).1, table, ht, hb⟩

/-- `pager_dealloc` gives back the blocks of the object. -/
theorem pagerDealloc_spec (hbelow : ∀ a, role a ≠ none → a < h.next) (hd : Holds role h ds p d)
    (hfits : d.Fits) (hmarks : part.Marks taken) (hin : ∀ j b, d.block j = some b → b ∈ taken)
    (hinj : ∀ j j' b, d.block j = some b → d.block j' = some b → j = j') :
    ∃ h' part' taken', pagerDealloc h p part = .ok (h', part') ∧ Private ds role h role h' ∧
      part'.Marks taken' ∧ part'.totalSize = part.totalSize ∧
      ∀ b, b ∈ taken' ↔ b ∈ taken ∧ ¬ ∃ j, d.block j = some b := by
  obtain ⟨hsize, hrole, hmap⟩ := hd
  obtain ⟨map, size⟩ := d
  obtain rfl : size = p.size := hsize
  obtain ⟨hpos, hform⟩ := hfits
  unfold pagerDealloc
  cases map with
  | direct blocks =>
    have hdir : ¬ IndirectPagemap p.size := hform.1
    obtain ⟨part', hblocks, htotal, hmarks'⟩ := hmarks.deallocBlocks (l := blocks) (fun b hb => by
        obtain ⟨j, hj⟩ := mem_reduceOption.mp hb
        exact hin j b hj) (nodup_reduceOption hinj)
    rw [if_neg hdir, blocksAt_eq hmap hform.2]
    simp only [Except.bind, Except.map, hblocks]
    rw [kfree_eq hmap]
    refine ⟨_, part', _, rfl, .update hbelow hrole none, hmarks', htotal, fun b => ?_⟩
    rw [Finset.mem_sdiff, List.mem_toFinset, mem_reduceOption]
    rfl
  | indirect tables =>
    obtain ⟨hind, hlen, htables⟩ := hform
    obtain ⟨ptrs, hmap, hptrlen, hptrs⟩ := hmap
    dsimp only at hind hlen
    have hblock : ∀ {i j b}, InTable tables i j b →
        j < pagemapEntries ∧ Dpager.block ⟨.indirect tables, p.size⟩ (i * pagemapEntries + j) = some b :=
      inTable_block htables
    obtain ⟨h', part', taken', hrun, hpriv, hsame, hmarks', htotal, htaken⟩ :=
      pagerDeallocTables_spec (n := indirectPagemapEntries p.size) (hlen.symm.trans hptrlen.symm).le
        hbelow (fun i _ => hptrs i) htables hmarks (fun i _ j b hb => hin _ b (hblock hb).2)
        (fun i j i' j' b hb hb' => by
          obtain ⟨hj, hb⟩ := hblock hb
          obtain ⟨hj', hb'⟩ := hblock hb'
          have heq := hinj _ _ _ hb hb'
          have hij := entry_div_mod (i := i) hj
          rw [heq] at hij
          have hij' := entry_div_mod (i := i') hj'
          exact ⟨hij.1.symm.trans hij'.1, hij.2.symm.trans hij'.2⟩)
    rw [if_pos hind, tablesAt_eq hmap (hptrlen.trans hlen)]
    simp only [Except.bind, hrun]
    rw [kfree_eq ((hsame _ hrole).trans hmap)]
    refine ⟨_, part', taken', rfl, hpriv.trans (.update hpriv.below hrole none), hmarks', htotal,
      fun b => ?_⟩
    rw [htaken]
    refine and_congr_right fun _ => not_congr ⟨?_, ?_⟩
    · rintro ⟨i, -, j, hb⟩
      exact ⟨_, (hblock hb).2⟩
    · rintro ⟨j, hb⟩
      obtain ⟨hj, hb⟩ := block_inTable hb
      exact ⟨_, hlen ▸ hj, _, hb⟩

end DpagerAt

namespace PagingArea
variable {w w' : PagingArea}

/-- The blocks of the objects are those that the bitmap marks, and none of them is there twice. -/
structure Shares (w : PagingArea) (taken : Finset ℕ) : Prop where
  marks : w.part.Marks taken
  mem : ∀ b, b ∈ taken ↔ ∃ ds j, w.block ds j = some b
  inj : ∀ ds j ds' j' b, w.block ds j = some b → w.block ds' j' = some b → ds = ds' ∧ j = j'

/-- The buffers of each object make up a block map. -/
structure Sound (w : PagingArea) (role : Role) : Prop where
  below : ∀ a, role a ≠ none → a < w.heap.next
  holds : ∀ ds p, w.pager ds = some p → ∃ d, Holds role w.heap ds p d ∧ d.Fits

section
variable {role : Role} {taken : Finset ℕ} {ds : ℕ}

theorem block_eq {p : DpagerAt} {d : Dpager} (hp : w.pager ds = some p)
    (hd : Holds role w.heap ds p d) (hfits : d.Fits) : w.block ds = d.block := by
  funext j
  rw [block, hp, bind_some, hd.block_eq hfits]

theorem block_none (hp : w.pager ds = none) (j : ℕ) : w.block ds j = none := by
  rw [block, hp]
  rfl

theorem Sound.change (h : w.Sound role) {role' : Role} {h' : Kheap} (part' : Part)
    (hpriv : Private ds role w.heap role' h') (new : Option DpagerAt)
    (hnew : ∀ p, new = some p → ∃ d, Holds role' h' ds p d ∧ d.Fits) :
    ({ w.setPager ds new with heap := h', part := part' } : PagingArea).Sound role' ∧
      ∀ ds' ≠ ds, ({ w.setPager ds new with heap := h', part := part' } : PagingArea).block ds' =
        w.block ds' := by
  refine ⟨⟨hpriv.below, fun ds' p hp => ?_⟩, fun ds' hne => ?_⟩
  · by_cases hds : ds' = ds
    · subst hds
      have hself : update w.pager ds' new ds' = new := update_self _ _ _
      exact hnew p (hself.symm.trans hp)
    · obtain ⟨d, hd, hfits⟩ := h.holds ds' p ((update_of_ne hds _ _).symm.trans hp)
      exact ⟨d, hd.others hpriv hds, hfits⟩
  · have hsame : ({ w.setPager ds new with heap := h', part := part' } : PagingArea).pager ds' =
        w.pager ds' := update_of_ne hne _ _
    cases hp : w.pager ds' with
    | none =>
      funext j
      rw [block_none hp, block_none (hsame.trans hp)]
    | some p =>
      obtain ⟨d, hd, hfits⟩ := h.holds ds' p hp
      rw [block_eq hp hd hfits, block_eq (hsame.trans hp) (hd.others hpriv hne) hfits]

theorem Shares.same (h : w.Shares taken) (hpart : w'.part = w.part) (hblock : w'.block = w.block) :
    w'.Shares taken where
  marks := hpart ▸ h.marks
  mem b := by rw [h.mem, hblock]
  inj := by rw [hblock]; exact h.inj

theorem Shares.insert (h : w.Shares taken) {b fPage : ℕ} (hb : b ∉ taken)
    (hnone : w.block ds fPage = none) (hmarks : w'.part.Marks (insert b taken))
    (hself : w'.block ds = update (w.block ds) fPage (some b))
    (hothers : ∀ ds' ≠ ds, w'.block ds' = w.block ds') : w'.Shares (insert b taken) := by
  -- the blocks are those from before, and the new one
  have hblock : ∀ ds' j b', w'.block ds' j = some b' ↔
      w.block ds' j = some b' ∨ (ds' = ds ∧ j = fPage) ∧ b' = b := by
    intro ds' j b'
    by_cases hds : ds' = ds
    · subst hds
      rw [hself]
      by_cases hj : j = fPage
      · subst hj
        rw [update_self, hnone]
        simp [eq_comm]
      · rw [update_of_ne hj]
        simp [hj]
    · rw [hothers ds' hds]
      simp [hds]
  have hnew : ∀ ds' j, w.block ds' j ≠ some b := fun ds' j hc => hb ((h.mem b).mpr ⟨ds', j, hc⟩)
  refine ⟨hmarks, fun b' => ?_, fun ds₁ j₁ ds₂ j₂ b' h₁ h₂ => ?_⟩
  · rw [Finset.mem_insert, h.mem]
    constructor
    · rintro (rfl | ⟨ds', j, hj⟩)
      · exact ⟨ds, fPage, (hblock _ _ _).mpr (.inr ⟨⟨rfl, rfl⟩, rfl⟩)⟩
      · exact ⟨ds', j, (hblock _ _ _).mpr (.inl hj)⟩
    · rintro ⟨ds', j, hj⟩
      rcases (hblock _ _ _).mp hj with hj | ⟨-, rfl⟩
      · exact .inr ⟨ds', j, hj⟩
      · exact .inl rfl
  · rcases (hblock _ _ _).mp h₁ with h₁ | ⟨⟨rfl, rfl⟩, rfl⟩ <;>
      rcases (hblock _ _ _).mp h₂ with h₂ | ⟨⟨rfl, rfl⟩, hb₂⟩
    · exact h.inj _ _ _ _ _ h₁ h₂
    · exact absurd (hb₂ ▸ h₁) (hnew _ _)
    · exact absurd h₂ (hnew _ _)
    · exact ⟨rfl, rfl⟩

theorem Shares.remove (h : w.Shares taken) {taken' : Finset ℕ} (hmarks : w'.part.Marks taken')
    (htaken : ∀ b, b ∈ taken' ↔ b ∈ taken ∧ ¬ ∃ j, w.block ds j = some b)
    (hself : ∀ j, w'.block ds j = none) (hothers : ∀ ds' ≠ ds, w'.block ds' = w.block ds') :
    w'.Shares taken' := by
  have hblock : ∀ ds' j b, w'.block ds' j = some b ↔ w.block ds' j = some b ∧ ds' ≠ ds := by
    intro ds' j b
    by_cases hds : ds' = ds
    · subst hds
      rw [hself]
      simp
    · rw [hothers ds' hds]
      simp [hds]
  refine ⟨hmarks, fun b => ?_, fun ds₁ j₁ ds₂ j₂ b h₁ h₂ => ?_⟩
  · rw [htaken, h.mem]
    constructor
    · rintro ⟨⟨ds', j, hj⟩, hnot⟩
      refine ⟨ds', j, (hblock _ _ _).mpr ⟨hj, ?_⟩⟩
      rintro rfl
      exact hnot ⟨j, hj⟩
    · rintro ⟨ds', j, hj⟩
      obtain ⟨hj, hds⟩ := (hblock _ _ _).mp hj
      exact ⟨⟨ds', j, hj⟩, fun ⟨j', hj'⟩ => hds (h.inj _ _ _ _ _ hj hj').1⟩
  · exact h.inj _ _ _ _ _ ((hblock _ _ _).mp h₁).1 ((hblock _ _ _).mp h₂).1

variable [PageSize]

theorem dealloc_spec (h : w.Sound role) (hs : w.Shares taken) (hop : w.Enabled (.dealloc ds)) :
    ∃ w' taken', w.step (.dealloc ds) = .ok w' ∧ w'.Sound role ∧ w'.Shares taken' ∧
      w'.part.totalSize = w.part.totalSize ∧ (∀ j, w'.block ds j = none) ∧
      ∀ ds' ≠ ds, w'.block ds' = w.block ds' := by
  obtain ⟨p, hp⟩ := ne_none_iff_exists'.mp hop
  obtain ⟨d, hd, hfits⟩ := h.holds ds p hp
  have hblock := block_eq hp hd hfits
  obtain ⟨h', part', taken', hdealloc, hpriv, hmarks, htotal, htaken⟩ :=
    DpagerAt.pagerDealloc_spec h.below hd hfits hs.marks
      (fun j b hj => (hs.mem b).mpr ⟨ds, j, by rw [hblock]; exact hj⟩)
      (fun j j' b hj hj' => (hs.inj ds j ds j' b (by rw [hblock]; exact hj)
        (by rw [hblock]; exact hj')).2)
  obtain ⟨hsound, hothers⟩ := h.change part' hpriv none nofun
  have hself : ∀ j, ({ w.setPager ds none with heap := h', part := part' } : PagingArea).block ds j =
      none := block_none (update_self _ _ _)
  refine ⟨_, taken', ?_, hsound, hs.remove hmarks (fun b => ?_) hself hothers, htotal, hself, hothers⟩
  · unfold step
    dsimp only
    rw [hp]
    dsimp only
    rw [hdealloc]
    rfl
  · rw [htaken, hblock]
theorem step_spec (h : w.Sound role) (hs : w.Shares taken) {op : PagingOp} (hop : w.Enabled op) :
    (∃ w' role' taken', w.step op = .ok w' ∧ w'.Sound role' ∧ w'.Shares taken' ∧
      w'.part.totalSize = w.part.totalSize) ∨
      w.step op = .error (.panic "*** PAGING SPACE EXHAUSTED ***") ∧ w.part.free = 0 ∧
        ∃ ds offset, op = .writeOffset ds offset ∧ w.block ds (atop offset) = none := by
  cases op with
  | alloc ds size =>
    obtain ⟨p', h', role', halloc, hholds, hpriv⟩ :=
      DpagerAt.pagerAlloc_spec h.below ds (atop size)
    have hfits := Dpager.fits_pagerAlloc (atop size)
    obtain ⟨hsound, hothers⟩ := h.change w.part hpriv (some p')
      fun p hp => ⟨_, some.inj hp ▸ hholds, hfits⟩
    refine .inl ⟨_, role', taken, ?_, hsound, hs.same rfl (funext fun ds' => ?_), rfl⟩
    · unfold step
      dsimp only
      rw [halloc]
      rfl
    · by_cases hds : ds' = ds
      · subst hds
        rw [block_eq (update_self _ _ _) hholds hfits]
        funext j
        rw [Dpager.block_pagerAlloc, block_none hop]
      · exact hothers ds' hds
  | extend ds newSize =>
    obtain ⟨p, hp⟩ := ne_none_iff_exists'.mp hop
    obtain ⟨d, hd, hfits⟩ := h.holds ds p hp
    obtain ⟨d', hd', hfits', hblock, -⟩ := hfits.extend newSize
    obtain ⟨p', h', role', hextend, hholds, hpriv⟩ :=
      DpagerAt.pagerExtend_spec h.below hd hfits newSize hd'
    obtain ⟨hsound, hothers⟩ := h.change w.part hpriv (some p')
      fun p hp => ⟨_, some.inj hp ▸ hholds, hfits'⟩
    refine .inl ⟨_, role', taken, ?_, hsound, hs.same rfl (funext fun ds' => ?_), rfl⟩
    · unfold step
      dsimp only
      rw [hp]
      dsimp only
      rw [hextend]
      rfl
    · by_cases hds : ds' = ds
      · subst hds
        rw [block_eq (update_self _ _ _) hholds hfits', block_eq hp hd hfits, hblock]
      · exact hothers ds' hds
  | dealloc ds =>
    obtain ⟨w', taken', hstep, hsound, hshares, htotal, -⟩ := dealloc_spec h hs hop
    exact .inl ⟨w', role, taken', hstep, hsound, hshares, htotal⟩
  | writeOffset ds offset =>
    obtain ⟨p, hp⟩ := ne_none_iff_exists'.mp hop
    obtain ⟨d, hd, hfits⟩ := h.holds ds p hp
    have hblock := block_eq hp hd hfits
    have hspec := DpagerAt.pagerWriteOffset_spec h.below hd hfits (atop offset) w.part
    have hstep : w.step (.writeOffset ds offset) =
        (DpagerAt.pagerWriteOffset w.heap p (atop offset) w.part).map
          fun (_, pager, heap, part) => { w.setPager ds (some pager) with heap, part } := by
      unfold step
      dsimp only
      rw [hp]
    rw [hstep]
    -- the object after the write
    have hwrote : ∀ {b : ℕ} {d' : Dpager} {part' : Part},
        Boot.pagerWriteOffset d (atop offset) w.part = .ok (b, d', part') → d'.Fits →
        ∃ w' role', (DpagerAt.pagerWriteOffset w.heap p (atop offset) w.part).map
          (fun (_, pager, heap, part) =>
            ({ w.setPager ds (some pager) with heap, part } : PagingArea)) = .ok w' ∧
          w'.Sound role' ∧ w'.part = part' ∧ w'.block ds = d'.block ∧
          ∀ ds' ≠ ds, w'.block ds' = w.block ds' := by
      intro b d' part' hw hfits'
      rw [hw] at hspec
      obtain ⟨p', h', role', hwrite, hholds, hpriv⟩ := hspec
      obtain ⟨hsound, hothers⟩ := h.change part' hpriv (some p')
        fun p hp => ⟨_, some.inj hp ▸ hholds, hfits'⟩
      rw [hwrite]
      exact ⟨_, role', rfl, hsound, rfl, block_eq (update_self _ _ _) hholds hfits', hothers⟩
    cases hb : d.block (atop offset) with
    | some b =>
      have hhas : blockOrAlloc (d.block (atop offset)) w.part = .ok (b, w.part) := by
        rw [hb]
        rfl
      obtain ⟨d', hw, hfits', hblock', -⟩ := hfits.write hhas
      rw [← hb, update_eq_self] at hblock'
      obtain ⟨w', role', hmap, hsound, hpart, hself, hothers⟩ := hwrote hw hfits'
      refine .inl ⟨w', role', taken, hmap, hsound, hs.same hpart (funext fun ds' => ?_), by rw [hpart]⟩
      by_cases hds : ds' = ds
      · rw [hds, hself, hblock', hblock]
      · exact hothers ds' hds
    | none =>
      by_cases hfree : w.part.free = 0
      · have herror : blockOrAlloc (d.block (atop offset)) w.part =
            .error (.panic "*** PAGING SPACE EXHAUSTED ***") := by
          rw [hb, blockOrAlloc, pagerAllocPage, if_pos hfree]
        rw [hfits.write_error herror] at hspec
        dsimp only at hspec
        rw [hspec]
        exact .inr ⟨rfl, hfree, ds, offset, rfl, by rw [hblock, hb]⟩
      · obtain ⟨b, part', halloc, hnot, hmarks, htotal, -⟩ := hs.marks.alloc hfree
        have hnew : blockOrAlloc (d.block (atop offset)) w.part = .ok (b, part') := by
          rw [hb, blockOrAlloc, halloc]
        obtain ⟨d', hw, hfits', hblock', -⟩ := hfits.write hnew
        obtain ⟨w', role', hmap, hsound, hpart, hself, hothers⟩ := hwrote hw hfits'
        exact .inl ⟨w', role', insert b taken, hmap, hsound,
          hs.insert hnot (by rw [hblock, hb]) (hpart ▸ hmarks) (by rw [hself, hblock', hblock]) hothers,
          by rw [hpart, htotal]⟩

theorem Reachable.shares {size : ℕ} (h : Reachable size w) :
    ∃ role taken, w.Sound role ∧ w.Shares taken ∧ w.part.totalSize = atop size := by
  induction h with
  | create =>
    exact ⟨fun _ => none, ∅, ⟨fun a ha => absurd rfl ha, nofun⟩, ⟨Part.marks_create _, fun b =>
      ⟨fun hb => absurd hb (Finset.notMem_empty b), fun ⟨ds, j, hj⟩ => by cases hj⟩,
      fun ds j _ _ b hj => by cases hj⟩, rfl⟩
  | step _ hop hstep ih =>
    obtain ⟨role, taken, hsound, hshares, htotal⟩ := ih
    rcases step_spec hsound hshares hop with ⟨w', role', taken', hstep', hsound', hshares', htotal'⟩ |
      ⟨herror, -⟩
    · obtain rfl := Except.ok.inj (hstep'.symm.trans hstep)
      exact ⟨role', taken', hsound', hshares', htotal'.trans htotal⟩
    · rw [herror] at hstep
      cases hstep

end

end PagingArea

end MachKernel.Boot
