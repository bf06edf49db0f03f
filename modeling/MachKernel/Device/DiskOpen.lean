import MachKernel.Lib.Runs
import Mathlib.Algebra.BigOperators.Group.List.Basic

/-! Opening a disk (`mac2dev/sdisk.c`): the threads in `sd_open` of one disk, which block for the
disk to be no longer busy or for a transfer. -/

namespace MachKernel.Device.DiskOpen
open Runs Function List

/-! ## The disk -/

abbrev hashSize : ℕ := 8

/-- The number of a partition, five bits of the device number. -/
abbrev PartNo := Fin 32

def hash (part : PartNo) : ℕ := part.val &&& (hashSize - 1)

/-- `disk_part_t`. -/
structure DiskPart where
  part : PartNo
  offset : ℕ
  length : ℕ
  name : List ℕ
  type : List ℕ
deriving DecidableEq

/-- `struct disk`. -/
structure Disk where
  valid : Bool
  busy : Bool
  nparts : ℤ
  oparts : ℕ
  parts : ℕ → List DiskPart

inductive Lookup
  | found (part : DiskPart)
  | notFound
  | doesNotExist
deriving DecidableEq

/-- A block, as `Block0` and as `Partition`. -/
structure Block where
  sbSig : ℕ
  sbBlkCount : ℕ
  pmSig : ℕ
  pmMapBlkCnt : ℕ
  pmPyPartStart : ℕ
  pmPartBlkCnt : ℕ
  pmPartName : List ℕ
  pmPartType : List ℕ

def sbSIGWord : ℕ := 0x4552
def pMapSIG : ℕ := 0x504D

/-- An unsigned word put in a short. -/
def short (n : ℕ) : ℤ := (n : ℤ).bmod (2 ^ 16)

inductive Result
  | success
  | noSuchDevice
  | noMemory
deriving DecidableEq

namespace Disk
variable (disk : Disk)

/-- `disk_part_lookup`. Only the first descriptor is looked at before the number of partitions. -/
def diskPartLookup (part : PartNo) : Lookup :=
  match disk.parts (hash part) with
  | [] => .notFound
  | q :: qs =>
    if part = q.part then .found q
    else if (part.val : ℤ) > disk.nparts then .doesNotExist
    else
      match qs.find? fun q => part = q.part with
      | some q => .found q
      | none => .notFound

def diskPartAdd (part : DiskPart) : Disk :=
  { disk with
    parts := update disk.parts (hash part.part) (disk.parts (hash part.part) ++ [part])
    oparts := disk.oparts + 1 }

end Disk

/-! ## The threads -/

/-- The transfer that a thread in a complex open waits for. -/
inductive Stage
  | testUnitRdy
  | block0
  -- the map, for the number of partitions, where the whole disk is opened
  | count (part : DiskPart)
  | map
  | entry

/-- Where a thread is. -/
inductive Place
  | outside
  | waiting (part : PartNo)
  -- woken, and not yet back in the loop
  | woken (part : PartNo)
  | opening (part : PartNo) (stage : Stage)
  | returned (part : PartNo) (result : Result)

structure System where
  disk : Disk
  thread : ℕ → Place
  -- the threads on `&disk->busy`, in the order of their waits
  waiters : List ℕ

/-- What a thread does between two points where it blocks. -/
inductive Event
  | call (k : ℕ) (part : PartNo)
  | resume (k : ℕ)
  -- a transfer ends, without a block when it fails; `room` is whether `kalloc` finds memory
  | transfer (k : ℕ) (block : Option Block) (room : Bool)

namespace System
variable (s : System)

def put (k : ℕ) (place : Place) : System := { s with thread := update s.thread k place }

/-- What is known of the map of the disk is set. -/
def setMap (valid : Bool) (nparts : ℤ) : System :=
  { s with disk := { s.disk with valid, nparts } }

/-- The start of a complex open. -/
def beginOpen (k : ℕ) (part : PartNo) : System :=
  let s := { s with disk := { s.disk with busy := true } }
  if s.disk.valid = false then s.put k (.opening part .testUnitRdy)
  else if part = 0 then s.put k (.opening part .block0)
  else s.put k (.opening part .map)

/-- A turn of the loop of `sd_open`. -/
def sdOpen (k : ℕ) (part : PartNo) : System :=
  match s.disk.diskPartLookup part with
  | .doesNotExist => s.put k (.returned part .noSuchDevice)
  | .found _ => s.put k (.returned part .success)
  | .notFound =>
    if s.disk.busy = true then { s.put k (.waiting part) with waiters := s.waiters ++ [k] }
    else s.beginOpen k part

/-- `thread_wakeup_one` of `&disk->busy`. -/
def wakeupOne : System :=
  match s.waiters with
  | [] => s
  | w :: ws =>
    match s.thread w with
    | .waiting part => { s.put w (.woken part) with waiters := ws }
    | _ => { s with waiters := ws }

/-- `RETURN`. -/
def finish (k : ℕ) (part : PartNo) (result : Result) : System :=
  let s := s.wakeupOne
  { s.put k (.returned part result) with disk := { s.disk with busy := false } }

/-- A descriptor is entered. -/
def add (k : ℕ) (part : DiskPart) : System :=
  { s with disk := s.disk.diskPartAdd part }.finish k part.part .success

/-- The end of a complex open of a partition of the map, with the entry of its partition. -/
def addEntry (k : ℕ) (part : PartNo) (block : Block) (room : Bool) : System :=
  if room = false then s.finish k part .noMemory
  else
    let nparts : ℤ := if s.disk.nparts = 0 then short block.pmMapBlkCnt else s.disk.nparts
    (s.setMap true nparts).add k
      ⟨part, block.pmPyPartStart, block.pmPartBlkCnt, block.pmPartName, block.pmPartType⟩

/-- A complex open goes on after a transfer. -/
def transferred (k : ℕ) (part : PartNo) (stage : Stage) (block : Option Block) (room : Bool) :
    System :=
  match stage, block with
  | .testUnitRdy, none | .block0, none | .map, none | .entry, none => s.finish k part .noSuchDevice
  | .testUnitRdy, some _ =>
    if s.disk.valid = false ∨ part = 0 then s.put k (.opening part .block0)
    else s.put k (.opening part .map)
  | .block0, some b0 =>
    if part = 0 then
      if room = false then s.finish k part .noMemory
      else if b0.sbSig ≠ sbSIGWord then s.add k ⟨part, 0, 0xffffffff, [0], [0]⟩
      else
        let entry : DiskPart := ⟨part, 0, b0.sbBlkCount, [0], [0]⟩
        if s.disk.nparts = 0 then (s.setMap true s.disk.nparts).put k (.opening part (.count entry))
        else (s.setMap true s.disk.nparts).add k entry
    else if s.disk.valid = false ∧ b0.sbSig ≠ sbSIGWord then s.finish k part .noSuchDevice
    else s.put k (.opening part .map)
  | .count entry, none => s.add k entry
  | .count entry, some p =>
    if p.pmSig = pMapSIG then
      (s.setMap s.disk.valid (short p.pmMapBlkCnt)).add k entry
    else s.add k entry
  | .map, some p =>
    if p.pmSig ≠ pMapSIG then s.finish k part .noSuchDevice
    else if part.val > p.pmMapBlkCnt then s.finish k part .noSuchDevice
    else if part ≠ 1 then s.put k (.opening part .entry)
    else s.addEntry k part p room
  | .entry, some p =>
    if p.pmSig ≠ pMapSIG then s.finish k part .noSuchDevice else s.addEntry k part p room

def event : Event → System
  | .call k part =>
    match s.thread k with
    | .outside | .returned _ _ => s.sdOpen k part
    | _ => s
  | .resume k =>
    match s.thread k with
    | .woken part => s.sdOpen k part
    | _ => s
  | .transfer k block room =>
    match s.thread k with
    | .opening part stage => s.transferred k part stage block room
    | _ => s

def step (e : Event) : Option (Unit × System) := some ((), s.event e)

end System

/-- The disk after `sdisk_initialize`, and no thread in `sd_open`. -/
def init : System where
  disk := ⟨false, false, 0, 0, fun _ => []⟩
  thread _ := .outside
  waiters := []

def run (es : List Event) : System := es.foldl System.event init

/-! ## What holds always -/

/-- The descriptors of the open partitions. -/
def Disk.descriptors (disk : Disk) : List DiskPart := (List.range hashSize).flatMap disk.parts

/-- Descriptors are in the queue of their number, no two for one partition. -/
structure Disk.Ok (disk : Disk) : Prop where
  hashed : ∀ i, ∀ q ∈ disk.parts i, hash q.part = i
  distinct : ∀ i, ((disk.parts i).map DiskPart.part).Nodup
  oparts : disk.oparts = disk.descriptors.length

/-- A partition has a descriptor. -/
def Disk.Has (disk : Disk) (part : PartNo) : Prop := ∃ q ∈ disk.parts (hash part), q.part = part

/-- The waiting threads are queued, and the disk is busy while a thread is in a complex open. -/
structure System.Queued (s : System) : Prop where
  nodup : s.waiters.Nodup
  waits : ∀ k, k ∈ s.waiters ↔ ∃ part, s.thread k = .waiting part
  busy : s.disk.busy = true ↔ ∃ k part stage, s.thread k = .opening part stage
  one : ∀ {k k' part part' stage stage'}, s.thread k = .opening part stage →
    s.thread k' = .opening part' stage' → k = k'

structure System.Inv (s : System) : Prop where
  queued : s.Queued
  disk : s.disk.Ok
  absent : ∀ {k part stage}, s.thread k = .opening part stage → ¬ s.disk.Has part
  entry : ∀ {k part entry}, s.thread k = .opening part (.count entry) → entry.part = part
  done : ∀ {k part}, s.thread k = .returned part .success → s.disk.Has part

variable {s : System} {k : ℕ} {part : PartNo} {stage : Stage} {place : Place}

namespace Disk
variable {disk : Disk}

variable {q : DiskPart}

theorem has_of_found (h : disk.diskPartLookup part = .found q) : disk.Has part := by
  unfold diskPartLookup at h
  cases hq : disk.parts (hash part) with
  | nil =>
    rw [hq] at h
    cases h
  | cons q' qs =>
    rw [hq] at h
    dsimp only at h
    split_ifs at h with hfirst hnparts
    · exact ⟨q', by rw [hq]; exact mem_cons_self, hfirst.symm⟩
    · cases hfind : qs.find? (fun q => part = q.part) with
      | none =>
        rw [hfind] at h
        cases h
      | some q'' =>
        exact ⟨q'', by rw [hq]; exact mem_cons_of_mem _ (mem_of_find?_eq_some hfind),
          (of_decide_eq_true (find?_some hfind :)).symm⟩

theorem not_has_of_notFound (h : disk.diskPartLookup part = .notFound) : ¬ disk.Has part := by
  rintro ⟨q, hmem, hpart⟩
  unfold diskPartLookup at h
  cases hq : disk.parts (hash part) with
  | nil =>
    rw [hq] at hmem
    cases hmem
  | cons q' qs =>
    rw [hq] at h hmem
    dsimp only at h
    split_ifs at h with hfirst hnparts
    cases hfind : qs.find? (fun q => part = q.part) with
    | some q'' =>
      rw [hfind] at h
      cases h
    | none =>
      rcases mem_cons.mp hmem with rfl | hmem
      · exact hfirst hpart.symm
      · have hnone := find?_eq_none.mp hfind q hmem
        exact hnone (decide_eq_true hpart.symm)

theorem hash_lt (part : PartNo) : hash part < hashSize := by
  revert part
  decide

theorem parts_add_self :
    (disk.diskPartAdd q).parts (hash q.part) = disk.parts (hash q.part) ++ [q] :=
  update_self _ _ _

theorem parts_add_of_ne {i : ℕ} (hi : i ≠ hash q.part) :
    (disk.diskPartAdd q).parts i = disk.parts i :=
  update_of_ne hi _ _

theorem Ok.add (h : disk.Ok) (hnone : ¬ disk.Has q.part) : (disk.diskPartAdd q).Ok := by
  refine ⟨fun i q' hq' => ?_, fun i => ?_, ?_⟩
  · by_cases hi : i = hash q.part
    · subst hi
      rw [parts_add_self] at hq'
      rcases mem_append.mp hq' with hq' | hq'
      · exact h.hashed _ q' hq'
      · rw [mem_singleton.mp hq']
    · rw [parts_add_of_ne hi] at hq'
      exact h.hashed i q' hq'
  · by_cases hi : i = hash q.part
    · subst hi
      rw [parts_add_self, map_append, nodup_append]
      refine ⟨h.distinct _, nodup_singleton _, fun a ha b hb => ?_⟩
      rw [mem_singleton.mp hb]
      rintro rfl
      obtain ⟨q', hq', hpart⟩ := mem_map.mp ha
      exact hnone ⟨q', hq', hpart⟩
    · rw [parts_add_of_ne hi]
      exact h.distinct i
  · have hlen : ∀ i, ((disk.diskPartAdd q).parts i).length =
        (disk.parts i).length + if i = hash q.part then 1 else 0 := by
      intro i
      split_ifs with hi
      · rw [hi, parts_add_self, length_append, length_singleton]
      · rw [parts_add_of_ne hi, add_zero]
    have hone : ∀ i < hashSize,
        ((List.range hashSize).map fun j => if j = i then 1 else 0).sum = 1 := by
      decide
    have hcount : (disk.diskPartAdd q).oparts = disk.oparts + 1 := rfl
    unfold descriptors at *
    rw [hcount, h.oparts, descriptors, length_flatMap, length_flatMap]
    simp only [hlen]
    rw [sum_map_add, hone _ (hash_lt q.part)]

theorem has_add (q : DiskPart) : (disk.diskPartAdd q).Has q.part := by
  refine ⟨q, ?_, rfl⟩
  rw [parts_add_self]
  exact mem_append_right _ mem_cons_self

theorem Has.add (h : disk.Has part) (q : DiskPart) : (disk.diskPartAdd q).Has part := by
  obtain ⟨q', hq', hpart⟩ := h
  refine ⟨q', ?_, hpart⟩
  by_cases hi : hash part = hash q.part
  · rw [hi, parts_add_self, ← hi]
    exact mem_append_left _ hq'
  · rw [parts_add_of_ne hi]
    exact hq'

end Disk

namespace System

theorem Queued.put (h : s.Queued) (hwait : ∀ part, s.thread k ≠ .waiting part)
    (hopen : ∀ part stage, s.thread k ≠ .opening part stage)
    (hwait' : ∀ part, place ≠ .waiting part) (hopen' : ∀ part stage, place ≠ .opening part stage) :
    (s.put k place).Queued := by
  have hself : (s.put k place).thread k = place := update_self _ _ _
  have hother : ∀ j ≠ k, (s.put k place).thread j = s.thread j := fun j hj =>
    update_of_ne hj _ _
  refine ⟨h.nodup, fun j => ?_, ?_, fun {j j'} _ _ _ _ hj hj' => ?_⟩
  · by_cases hj : j = k
    · subst hj
      rw [hself]
      exact iff_of_false (fun hmem => by
        obtain ⟨part, hpart⟩ := (h.waits j).mp hmem
        exact hwait part hpart) fun ⟨part, hpart⟩ => hwait' part hpart
    · rw [hother j hj]
      exact h.waits j
  · refine h.busy.trans ⟨?_, ?_⟩
    · rintro ⟨j, part, stage, hj⟩
      have hne : j ≠ k := by
        rintro rfl
        exact hopen _ _ hj
      exact ⟨j, part, stage, (hother j hne).trans hj⟩
    · rintro ⟨j, part, stage, hj⟩
      have hne : j ≠ k := by
        rintro rfl
        exact hopen' _ _ (hself.symm.trans hj)
      exact ⟨j, part, stage, (hother j hne).symm.trans hj⟩
  · have hne : j ≠ k := by
      rintro rfl
      exact hopen' _ _ (hself.symm.trans hj)
    have hne' : j' ≠ k := by
      rintro rfl
      exact hopen' _ _ (hself.symm.trans hj')
    rw [hother j hne] at hj
    rw [hother j' hne'] at hj'
    exact h.one hj hj'

theorem put_self : (s.put k place).thread k = place := update_self _ _ _

theorem put_of_ne {j : ℕ} (hj : j ≠ k) : (s.put k place).thread j = s.thread j :=
  update_of_ne hj _ _

theorem Queued.wait (h : s.Queued) (hwait : ∀ part, s.thread k ≠ .waiting part)
    (hopen : ∀ part stage, s.thread k ≠ .opening part stage) (part : PartNo) :
    ({ s.put k (.waiting part) with waiters := s.waiters ++ [k] } : System).Queued := by
  have hnew : k ∉ s.waiters := fun hmem => by
    obtain ⟨part, hpart⟩ := (h.waits k).mp hmem
    exact hwait part hpart
  have hsame : ∀ {j part' stage}, (s.put k (.waiting part)).thread j = .opening part' stage ↔
      s.thread j = .opening part' stage := by
    intro j part' stage
    by_cases hj : j = k
    · subst hj
      rw [put_self]
      exact iff_of_false (by simp) (hopen _ _)
    · rw [put_of_ne hj]
  refine ⟨?_, fun j => ?_, ?_, fun hj hj' => h.one (hsame.mp hj) (hsame.mp hj')⟩
  · refine nodup_append.mpr ⟨h.nodup, nodup_singleton k, fun a ha b hb => ?_⟩
    rw [mem_singleton.mp hb]
    rintro rfl
    exact hnew ha
  · rw [mem_append, mem_singleton]
    change _ ↔ ∃ part', (s.put k (.waiting part)).thread j = .waiting part'
    by_cases hj : j = k
    · subst hj
      rw [put_self]
      exact iff_of_true (.inr rfl) ⟨part, rfl⟩
    · rw [put_of_ne hj, or_iff_left hj]
      exact h.waits j
  · exact h.busy.trans
      (exists_congr fun j => exists_congr fun _ => exists_congr fun _ => hsame.symm)

variable {disk : Disk} {s' : System} {result : Result} {entry : DiskPart}

theorem Queued.opening (h : s.Queued) (hwait : ∀ part, s.thread k ≠ .waiting part)
    (halone : ∀ j part stage, s.thread j = .opening part stage → j = k) (part : PartNo)
    (stage : Stage) (hbusy : disk.busy = true) :
    ({ s.put k (.opening part stage) with disk } : System).Queued := by
  have honly : ∀ {j part' stage'},
      (s.put k (.opening part stage)).thread j = .opening part' stage' → j = k := by
    intro j part' stage' hj
    by_contra hne
    rw [put_of_ne hne] at hj
    exact hne (halone _ _ _ hj)
  refine ⟨h.nodup, fun j => ?_, iff_of_true hbusy ⟨k, part, stage, put_self⟩,
    fun hj hj' => (honly hj).trans (honly hj').symm⟩
  change _ ↔ ∃ part', (s.put k (.opening part stage)).thread j = .waiting part'
  by_cases hj : j = k
  · subst hj
    rw [put_self]
    exact iff_of_false (fun hmem => by
      obtain ⟨part, hpart⟩ := (h.waits j).mp hmem
      exact hwait part hpart) (by simp)
  · rw [put_of_ne hj]
    exact h.waits j

theorem wakeupOne_disk : s.wakeupOne.disk = s.disk := by
  unfold wakeupOne
  split
  · rfl
  · split <;> rfl

theorem Queued.wakeupOne (h : s.Queued) :
    s.waiters = [] ∧ s.wakeupOne = s ∨ ∃ w ws part, s.waiters = w :: ws ∧
      s.thread w = .waiting part ∧ s.wakeupOne = { s.put w (.woken part) with waiters := ws } := by
  unfold System.wakeupOne
  cases hw : s.waiters with
  | nil => exact .inl ⟨rfl, rfl⟩
  | cons w ws =>
    obtain ⟨part, hpart⟩ := (h.waits w).mp (by rw [hw]; exact mem_cons_self)
    refine .inr ⟨w, ws, part, rfl, hpart, ?_⟩
    dsimp only
    rw [hpart]

theorem Queued.woken (h : s.Queued) : s.wakeupOne.Queued := by
  rcases h.wakeupOne with ⟨-, heq⟩ | ⟨w, ws, part, hw, hpart, heq⟩
  · rw [heq]
    exact h
  rw [heq]
  have hnodup := h.nodup
  rw [hw] at hnodup
  obtain ⟨hnot, hnodup⟩ := nodup_cons.mp hnodup
  have hsame : ∀ {j part' stage}, (s.put w (.woken part)).thread j = .opening part' stage ↔
      s.thread j = .opening part' stage := by
    intro j part' stage
    by_cases hj : j = w
    · subst hj
      rw [put_self, hpart]
      exact iff_of_false (by simp) (by simp)
    · rw [put_of_ne hj]
  refine ⟨hnodup, fun j => ?_, ?_, fun hj hj' => h.one (hsame.mp hj) (hsame.mp hj')⟩
  · change _ ↔ ∃ part', (s.put w (.woken part)).thread j = .waiting part'
    by_cases hj : j = w
    · subst hj
      rw [put_self]
      exact iff_of_false hnot (by simp)
    · rw [put_of_ne hj, ← h.waits j, hw, mem_cons, or_iff_right hj]
  · exact h.busy.trans
      (exists_congr fun j => exists_congr fun _ => exists_congr fun _ => hsame.symm)

theorem Queued.finish (h : s.Queued) (hk : s.thread k = .opening part stage) (part' : PartNo)
    (result : Result) : (s.finish k part' result).Queued := by
  have hwoken := h.woken
  -- the thread is not the one that was woken
  have hk' : s.wakeupOne.thread k = .opening part stage := by
    rcases h.wakeupOne with ⟨-, heq⟩ | ⟨w, ws, part'', -, hpart, heq⟩
    · rw [heq, hk]
    · rw [heq]
      change (s.put w (.woken part'')).thread k = _
      rw [put_of_ne, hk]
      rintro rfl
      rw [hpart] at hk
      cases hk
  have hnone : ∀ {j part'' stage'},
      (s.wakeupOne.put k (.returned part' result)).thread j ≠ .opening part'' stage' := by
    intro j part'' stage' hj
    by_cases hne : j = k
    · subst hne
      rw [put_self] at hj
      cases hj
    · rw [put_of_ne hne] at hj
      exact hne (hwoken.one hj hk')
  refine ⟨hwoken.nodup, fun j => ?_, iff_of_false (by simp [System.finish])
    fun ⟨j, _, _, hj⟩ => hnone hj, fun hj _ => absurd hj hnone⟩
  change _ ↔ ∃ part'', (s.wakeupOne.put k (.returned part' result)).thread j = .waiting part''
  by_cases hj : j = k
  · subst hj
    rw [put_self]
    refine iff_of_false (fun hmem => ?_) (by simp)
    obtain ⟨_, hpart⟩ := (hwoken.waits j).mp hmem
    rw [hk'] at hpart
    cases hpart
  · rw [put_of_ne hj]
    exact hwoken.waits j

theorem Inv.change (h : s.Inv) (hq : s'.Queued) (hdisk : s'.disk.Ok)
    (hhas : ∀ p, s.disk.Has p → s'.disk.Has p)
    (hother : ∀ j ≠ k, s'.thread j = s.thread j ∨ ∃ p, s'.thread j = .woken p)
    (hback : ∀ j ≠ k, ∀ p stage, s'.thread j = .opening p stage → s'.disk.Has p → s.disk.Has p)
    (habsent : ∀ p stage, s'.thread k = .opening p stage → ¬ s'.disk.Has p)
    (hentry : ∀ p entry, s'.thread k = .opening p (.count entry) → entry.part = p)
    (hdone : ∀ p, s'.thread k = .returned p .success → s'.disk.Has p) : s'.Inv := by
  have hold : ∀ j ≠ k, ∀ place, s'.thread j = place → (∀ p, place ≠ .woken p) →
      s.thread j = place := by
    intro j hj place hplace hne
    rcases hother j hj with hsame | ⟨p, hp⟩
    · exact hsame.symm.trans hplace
    · exact absurd (hplace.symm.trans hp) (hne p)
  refine ⟨hq, hdisk, fun {j p stage} hj hmem => ?_, fun {j p entry} hj => ?_, fun {j p} hj => ?_⟩
  · by_cases hjk : j = k
    · exact habsent p stage (hjk ▸ hj) hmem
    · exact h.absent (hold j hjk _ hj (by simp)) (hback j hjk p stage hj hmem)
  · by_cases hjk : j = k
    · exact hentry p entry (hjk ▸ hj)
    · exact h.entry (hold j hjk _ hj (by simp))
  · by_cases hjk : j = k
    · exact hdone p (hjk ▸ hj)
    · exact hhas p (h.done (hold j hjk _ hj (by simp)))

theorem Inv.put (h : s.Inv) (hwait : ∀ part, s.thread k ≠ .waiting part)
    (hopen : ∀ part stage, s.thread k ≠ .opening part stage)
    (hdone : result = .success → s.disk.Has part) : (s.put k (.returned part result)).Inv := by
  refine h.change (k := k) (h.queued.put hwait hopen (by simp) (by simp)) h.disk (fun _ hp => hp)
    (fun j hj => .inl (put_of_ne hj)) (fun _ _ _ _ _ hp => hp) ?_ ?_ ?_
  all_goals rw [put_self]
  · simp
  · simp
  · intro p hp
    obtain ⟨rfl, rfl⟩ := Place.returned.inj hp
    exact hdone rfl

theorem Inv.opening (h : s.Inv) (hwait : ∀ part, s.thread k ≠ .waiting part)
    (halone : ∀ j part stage, s.thread j = .opening part stage → j = k)
    (habsent : ¬ s.disk.Has part) (hbusy : disk.busy = true)
    (hparts : disk.parts = s.disk.parts) (hoparts : disk.oparts = s.disk.oparts)
    (hentry : ∀ entry, stage = .count entry → entry.part = part) :
    ({ s.put k (.opening part stage) with disk } : System).Inv := by
  have hhas : ∀ p, disk.Has p ↔ s.disk.Has p := fun p => by
    unfold Disk.Has
    rw [hparts]
  have hdisk : disk.Ok := by
    obtain ⟨hhashed, hdistinct, hcount⟩ := h.disk
    refine ⟨by rw [hparts]; exact hhashed, by rw [hparts]; exact hdistinct, ?_⟩
    unfold Disk.descriptors
    rw [hparts, hoparts, hcount]
    rfl
  refine h.change (k := k) (h.queued.opening hwait halone part stage hbusy) hdisk
    (fun p => (hhas p).mpr) (fun j hj => .inl (put_of_ne hj)) (fun _ _ p _ _ => (hhas p).mp)
    ?_ ?_ ?_
  · intro p stage' hp
    obtain ⟨rfl, rfl⟩ := Place.opening.inj (put_self.symm.trans hp)
    exact fun hmem => habsent ((hhas _).mp hmem)
  · intro p entry hp
    obtain ⟨rfl, hstage⟩ := Place.opening.inj (put_self.symm.trans hp)
    exact hentry entry hstage
  · intro p hp
    cases put_self.symm.trans hp

theorem Inv.sdOpen (h : s.Inv) (hwait : ∀ part, s.thread k ≠ .waiting part)
    (hopen : ∀ part stage, s.thread k ≠ .opening part stage) : (s.sdOpen k part).Inv := by
  unfold System.sdOpen
  cases hlookup : s.disk.diskPartLookup part with
  | doesNotExist => exact h.put hwait hopen nofun
  | found q => exact h.put hwait hopen fun _ => Disk.has_of_found hlookup
  | notFound =>
    have habsent := Disk.not_has_of_notFound hlookup
    dsimp only
    by_cases hbusy : s.disk.busy = true
    · rw [if_pos hbusy]
      refine h.change (k := k) (h.queued.wait hwait hopen part) h.disk (fun _ hp => hp)
        (fun j hj => .inl (put_of_ne hj)) (fun _ _ _ _ _ hp => hp) ?_ ?_ ?_
      · intro p stage hp
        cases put_self.symm.trans hp
      · intro p entry hp
        cases put_self.symm.trans hp
      · intro p hp
        cases put_self.symm.trans hp
    · rw [if_neg hbusy]
      have halone : ∀ j part stage, s.thread j = .opening part stage → j = k := fun j p stage hj =>
        absurd (h.queued.busy.mpr ⟨j, p, stage, hj⟩) hbusy
      unfold beginOpen
      dsimp only
      split_ifs
      all_goals exact h.opening hwait halone habsent rfl rfl rfl nofun

theorem finish_disk (k : ℕ) (part : PartNo) (result : Result) :
    (s.finish k part result).disk = { s.disk with busy := false } := by
  change ({ s.wakeupOne.disk with busy := false } : Disk) = _
  rw [wakeupOne_disk]

theorem Queued.finish_thread (h : s.Queued) {j : ℕ} (hj : j ≠ k) :
    (s.finish k part result).thread j = s.thread j ∨
      ∃ p, (s.finish k part result).thread j = .woken p := by
  change (s.wakeupOne.put k (.returned part result)).thread j = _ ∨
    ∃ p, (s.wakeupOne.put k (.returned part result)).thread j = _
  rw [put_of_ne hj]
  rcases h.wakeupOne with ⟨-, heq⟩ | ⟨w, ws, p, -, -, heq⟩
  · exact .inl (by rw [heq])
  · rw [heq]
    by_cases hw : j = w
    · exact .inr ⟨p, by rw [hw]; exact put_self⟩
    · exact .inl (put_of_ne hw)

theorem Inv.finish (h : s.Inv) (hk : s.thread k = .opening part stage)
    (hdisk : disk.Ok) (hbusy : disk.busy = s.disk.busy) (hhas : ∀ p, s.disk.Has p → disk.Has p)
    (hdone : result = .success → disk.Has part) :
    (System.finish { s with disk } k part result).Inv := by
  have hq : ({ s with disk } : System).Queued :=
    ⟨h.queued.nodup, h.queued.waits, by rw [hbusy]; exact h.queued.busy, h.queued.one⟩
  have hq' := hq.finish hk part result
  have hend := finish_disk (s := { s with disk }) k part result
  have hclosed : ∀ {j p stage}, (System.finish { s with disk } k part result).thread j ≠
      .opening p stage := by
    intro j p stage hj
    have hb := hq'.busy.mpr ⟨j, p, stage, hj⟩
    rw [hend] at hb
    cases hb
  have hself : (System.finish { s with disk } k part result).thread k = .returned part result :=
    put_self
  refine h.change (k := k) hq' ?_ ?_ (fun j hj => hq.finish_thread hj)
    (fun _ _ _ _ hj => absurd hj hclosed) (fun _ _ hj => absurd hj hclosed)
    (fun _ _ hj => absurd hj hclosed) ?_
  · rw [hend]
    exact ⟨hdisk.hashed, hdisk.distinct, hdisk.oparts⟩
  · rw [hend]
    exact hhas
  · intro p hp
    rw [hself] at hp
    obtain ⟨rfl, rfl⟩ := Place.returned.inj hp
    rw [hend]
    exact hdone rfl

theorem Inv.fail (h : s.Inv) (hk : s.thread k = .opening part stage)
    (hresult : result ≠ .success) : (s.finish k part result).Inv :=
  h.finish hk h.disk rfl (fun _ hp => hp) fun hc => absurd hc hresult

theorem Inv.add (h : s.Inv) (hk : s.thread k = .opening entry.part stage)
    (valid : Bool) (nparts : ℤ) : ((s.setMap valid nparts).add k entry).Inv := by
  have hmap : (s.setMap valid nparts).disk.Ok := ⟨h.disk.hashed, h.disk.distinct, h.disk.oparts⟩
  exact h.finish hk (hmap.add (h.absent hk)) rfl
    (fun p hp => (show (s.setMap valid nparts).disk.Has p from hp).add entry)
    fun _ => Disk.has_add entry

/-- What a complex open does after a transfer: it goes on to the next, fails, or enters its
descriptor. -/
def Goes (s s' : System) (k : ℕ) (part : PartNo) : Prop :=
  (∃ stage valid nparts, s' = (s.setMap valid nparts).put k (.opening part stage) ∧
    ∀ entry, stage = .count entry → entry.part = part) ∨
  (∃ result, result ≠ .success ∧ s' = s.finish k part result) ∨
  ∃ valid nparts entry, entry.part = part ∧ s' = (s.setMap valid nparts).add k entry

theorem Goes.next (stage : Stage) (hstage : ∀ entry, stage ≠ .count entry) :
    Goes s (s.put k (.opening part stage)) k part :=
  .inl ⟨stage, s.disk.valid, s.disk.nparts, rfl, fun entry he => absurd he (hstage entry)⟩

theorem Goes.fail (hresult : result ≠ .success) : Goes s (s.finish k part result) k part :=
  .inr (.inl ⟨result, hresult, rfl⟩)

theorem Goes.add (hentry : entry.part = part) : Goes s (s.add k entry) k part :=
  .inr (.inr ⟨s.disk.valid, s.disk.nparts, entry, hentry, rfl⟩)

theorem goes_addEntry (b : Block) (room : Bool) : Goes s (s.addEntry k part b room) k part := by
  unfold addEntry
  by_cases hroom : room = false
  · rw [if_pos hroom]
    exact .fail nofun
  · rw [if_neg hroom]
    exact .inr (.inr ⟨_, _, _, rfl, rfl⟩)

theorem goes_block0 (b0 : Block) (room : Bool) :
    Goes s (s.transferred k part .block0 (some b0) room) k part := by
  unfold transferred
  dsimp only
  by_cases hpart : part = 0
  · rw [if_pos hpart]
    split_ifs
    · exact .fail nofun
    · exact .add rfl
    · exact .inl ⟨_, _, _, rfl, fun entry he => (congrArg DiskPart.part (Stage.count.inj he)).symm⟩
    · exact .inr (.inr ⟨_, _, _, rfl, rfl⟩)
  · rw [if_neg hpart]
    split_ifs
    · exact .fail nofun
    · exact .next .map nofun

theorem goes_transferred (hentry : ∀ entry, stage = .count entry → entry.part = part)
    (block : Option Block) (room : Bool) :
    Goes s (s.transferred k part stage block room) k part := by
  cases stage with
  | testUnitRdy =>
    cases block with
    | none => exact .fail nofun
    | some _ =>
      unfold transferred
      dsimp only
      split_ifs
      · exact .next .block0 nofun
      · exact .next .map nofun
  | block0 =>
    cases block with
    | none => exact .fail nofun
    | some b0 => exact goes_block0 b0 room
  | count entry =>
    cases block with
    | none => exact .add (hentry entry rfl)
    | some p =>
      unfold transferred
      dsimp only
      split_ifs
      · exact .inr (.inr ⟨_, _, entry, hentry entry rfl, rfl⟩)
      · exact .add (hentry entry rfl)
  | map =>
    cases block with
    | none => exact .fail nofun
    | some p =>
      unfold transferred
      dsimp only
      split_ifs
      · exact .fail nofun
      · exact .fail nofun
      · exact .next .entry nofun
      · exact goes_addEntry p room
  | entry =>
    cases block with
    | none => exact .fail nofun
    | some p =>
      unfold transferred
      dsimp only
      split_ifs
      · exact .fail nofun
      · exact goes_addEntry p room

theorem Inv.goes (h : s.Inv) (hk : s.thread k = .opening part stage)
    (hgoes : Goes s s' k part) : s'.Inv := by
  rcases hgoes with ⟨stage', valid, nparts, rfl, hentry⟩ | ⟨result, hresult, rfl⟩ |
    ⟨valid, nparts, entry, rfl, rfl⟩
  · exact h.opening (by simp [hk]) (fun j p st hj => h.queued.one hj hk) (h.absent hk)
      (h.queued.busy.mpr ⟨k, part, stage, hk⟩) rfl rfl hentry
  · exact h.fail hk hresult
  · exact h.add hk valid nparts

theorem Inv.event (h : s.Inv) (e : Event) : (s.event e).Inv := by
  cases e with
  | call k part =>
    unfold System.event
    dsimp only
    split
    next hk => exact h.sdOpen (by simp [hk]) (by simp [hk])
    next hk => exact h.sdOpen (by simp [hk]) (by simp [hk])
    next => exact h
  | resume k =>
    unfold System.event
    dsimp only
    split
    next hk => exact h.sdOpen (by simp [hk]) (by simp [hk])
    next => exact h
  | transfer k block room =>
    unfold System.event
    dsimp only
    split
    next hk => exact h.goes hk (goes_transferred (fun entry he => h.entry (he ▸ hk)) block room)
    next => exact h

end System

theorem inv_init : init.Inv where
  queued := ⟨nodup_nil, fun _ => iff_of_false not_mem_nil nofun, iff_of_false nofun nofun, nofun⟩
  disk := ⟨nofun, fun _ => nodup_nil, by decide⟩
  absent := nofun
  entry := nofun
  done := nofun

/-! ## Who is woken -/

namespace System

/-- Where the disk is not busy and no thread is on its way back to the loop, none waits. -/
def Awake (s : System) : Prop :=
  s.disk.busy = false → (∀ k part, s.thread k ≠ .woken part) → ∀ k part, s.thread k ≠ .waiting part

/-- A woken thread that finds its partition open, or known not to exist, returns without a wakeup:
the disk is busy then, another thread is woken, or none waits. -/
def Quiet (s : System) : Event → Prop
  | .resume k => ∀ part, s.thread k = .woken part → s.disk.diskPartLookup part ≠ .notFound →
      s.disk.busy = true ∨ (∃ j, j ≠ k ∧ ∃ part, s.thread j = .woken part) ∨ s.waiters = []
  | _ => True

theorem awake_of_busy (h : s.disk.busy = true) : s.Awake := fun hbusy =>
  absurd (h.symm.trans hbusy) nofun

theorem awake_returned (hwait : ∀ p, s.thread k ≠ .waiting p) {result : Result} :
    (s.put k (.returned part result)).Awake ↔ (s.disk.busy = false →
      (∀ j ≠ k, ∀ p, s.thread j ≠ .woken p) → ∀ j p, s.thread j ≠ .waiting p) := by
  have hwoken : (∀ j p, (s.put k (.returned part result)).thread j ≠ .woken p) ↔
      ∀ j ≠ k, ∀ p, s.thread j ≠ .woken p := by
    refine ⟨fun h j hj p => put_of_ne (s := s) hj ▸ h j p, fun h j p => ?_⟩
    by_cases hj : j = k
    · rw [hj, put_self]
      nofun
    · rw [put_of_ne hj]
      exact h j hj p
  have hwaiting : (∀ j p, (s.put k (.returned part result)).thread j ≠ .waiting p) ↔
      ∀ j p, s.thread j ≠ .waiting p := by
    refine forall_congr' fun j => ?_
    by_cases hj : j = k
    · rw [hj, put_self]
      exact iff_of_true nofun hwait
    · rw [put_of_ne hj]
  unfold Awake
  rw [hwoken, hwaiting]
  rfl

theorem sdOpen_busy (hlookup : s.disk.diskPartLookup part = .notFound) :
    (s.sdOpen k part).disk.busy = true := by
  unfold sdOpen
  rw [hlookup]
  dsimp only
  by_cases hbusy : s.disk.busy = true
  · rw [if_pos hbusy]
    exact hbusy
  · rw [if_neg hbusy]
    unfold beginOpen
    dsimp only
    split_ifs
    all_goals rfl

theorem sdOpen_returned (hlookup : s.disk.diskPartLookup part ≠ .notFound) (k : ℕ) :
    ∃ result, s.sdOpen k part = s.put k (.returned part result) := by
  unfold sdOpen
  cases h : s.disk.diskPartLookup part with
  | found q => exact ⟨_, rfl⟩
  | doesNotExist => exact ⟨_, rfl⟩
  | notFound => exact absurd h hlookup

theorem Queued.awake_finish (h : s.Queued) (hk : s.thread k = .opening part stage) (part' : PartNo)
    (result : Result) : (s.finish k part' result).Awake := by
  intro _ hwoken j p hj
  rcases h.wakeupOne with ⟨hnone, heq⟩ | ⟨w, ws, q, -, hq, heq⟩
  · -- none waited
    have hmem : j ∈ (s.finish k part' result).waiters :=
      ((h.finish hk part' result).waits j).mpr ⟨p, hj⟩
    change j ∈ s.wakeupOne.waiters at hmem
    rw [heq, hnone] at hmem
    cases hmem
  · have hne : w ≠ k := by
      rintro rfl
      rw [hq] at hk
      cases hk
    refine hwoken w q ?_
    change (s.wakeupOne.put k (.returned part' result)).thread w = _
    rw [put_of_ne hne, heq]
    exact put_self

theorem Inv.awake_goes (h : s.Inv) (hk : s.thread k = .opening part stage) {s' : System}
    (hgoes : Goes s s' k part) : s'.Awake := by
  rcases hgoes with ⟨stage', valid, nparts, rfl, -⟩ | ⟨result, -, rfl⟩ |
    ⟨valid, nparts, entry, rfl, rfl⟩
  · exact awake_of_busy (h.queued.busy.mpr ⟨k, part, stage, hk⟩)
  · exact h.queued.awake_finish hk part result
  · have hq : ({ s.setMap valid nparts with
        disk := (s.setMap valid nparts).disk.diskPartAdd entry } : System).Queued :=
      ⟨h.queued.nodup, h.queued.waits, h.queued.busy, h.queued.one⟩
    exact hq.awake_finish hk entry.part .success

theorem Inv.awake_event (h : s.Inv) (hawake : s.Awake) (e : Event) :
    (s.event e).Awake ↔ s.Quiet e := by
  cases e with
  | call k part =>
    refine iff_of_true ?_ trivial
    have hopen : (∀ p, s.thread k ≠ .waiting p) → (∀ p, s.thread k ≠ .woken p) →
        (s.sdOpen k part).Awake := by
      intro hwait hwoken
      by_cases hlookup : s.disk.diskPartLookup part = .notFound
      · exact awake_of_busy (sdOpen_busy hlookup)
      · obtain ⟨result, heq⟩ := sdOpen_returned hlookup k
        rw [heq, awake_returned hwait]
        intro hbusy hothers
        refine hawake hbusy fun j p => ?_
        by_cases hj : j = k
        · rw [hj]
          exact hwoken p
        · exact hothers j hj p
    unfold System.event
    dsimp only
    split
    next hk => exact hopen (by simp [hk]) (by simp [hk])
    next hk => exact hopen (by simp [hk]) (by simp [hk])
    next => exact hawake
  | transfer k block room =>
    refine iff_of_true ?_ trivial
    unfold System.event
    dsimp only
    split
    next hk =>
      exact h.awake_goes hk (goes_transferred (fun entry he => h.entry (he ▸ hk)) block room)
    next => exact hawake
  | resume k =>
    by_cases hk : ∃ part, s.thread k = .woken part
    · obtain ⟨part, hk⟩ := hk
      have heq : s.event (.resume k) = s.sdOpen k part := by
        unfold System.event
        dsimp only
        rw [hk]
      rw [heq]
      by_cases hlookup : s.disk.diskPartLookup part = .notFound
      · refine iff_of_true (awake_of_busy (sdOpen_busy hlookup)) fun p hp hne => ?_
        obtain rfl := Place.woken.inj (hk.symm.trans hp)
        exact absurd hlookup hne
      · obtain ⟨result, hreturn⟩ := sdOpen_returned hlookup k
        rw [hreturn, awake_returned (by simp [hk])]
        constructor
        · intro hall p hp _
          by_cases hbusy : s.disk.busy = true
          · exact .inl hbusy
          by_cases hother : ∃ j, j ≠ k ∧ ∃ part, s.thread j = .woken part
          · exact .inr (.inl hother)
          refine .inr (.inr (eq_nil_iff_forall_not_mem.mpr fun j hj => ?_))
          obtain ⟨q, hq⟩ := (h.queued.waits j).mp hj
          exact hall (Bool.eq_false_iff.mpr hbusy) (fun i hi p hp => hother ⟨i, hi, p, hp⟩) j q hq
        · intro hquiet hbusy hothers j p hj
          rcases hquiet part hk hlookup with hbusy' | ⟨i, hi, q, hq⟩ | hnone
          · exact absurd (hbusy'.symm.trans hbusy) nofun
          · exact hothers i hi q hq
          · have hmem := (h.queued.waits j).mpr ⟨p, hj⟩
            rw [hnone] at hmem
            cases hmem
    · have heq : s.event (.resume k) = s := by
        unfold System.event
        dsimp only
        split
        next part hp => exact absurd ⟨part, hp⟩ hk
        next => rfl
      rw [heq]
      exact iff_of_true hawake fun part hp => absurd ⟨part, hp⟩ hk

end System

variable {disk : Disk}

theorem Disk.Ok.parts_nodup (h : disk.Ok) : (disk.descriptors.map DiskPart.part).Nodup := by
  unfold Disk.descriptors
  rw [map_flatMap, nodup_flatMap]
  refine ⟨fun i _ => h.distinct i, ?_⟩
  refine List.Pairwise.imp (fun {i j} hij => ?_) (nodup_range (n := hashSize))
  -- a partition is in the queue of its number only
  intro part hi hj
  obtain ⟨q, hq, rfl⟩ := mem_map.mp hi
  obtain ⟨q', hq', hpart⟩ := mem_map.mp hj
  exact hij ((h.hashed i q hq).symm.trans ((congrArg hash hpart).symm.trans (h.hashed j q' hq')))

theorem Disk.Has.count_eq_one (hhas : disk.Has part) (h : disk.Ok) :
    (disk.descriptors.map DiskPart.part).count part = 1 := by
  refine count_eq_one_of_mem h.parts_nodup ?_
  obtain ⟨q, hq, rfl⟩ := hhas
  exact mem_map_of_mem (mem_flatMap.mpr ⟨hash q.part, mem_range.mpr (Disk.hash_lt q.part), hq⟩)

/-- What the threads and the disk should be: none is asleep, one at most is in a complex open, and
each partition that was opened has one descriptor. -/
structure System.Sound (s : System) : Prop where
  awake : s.Awake
  one : ∀ {k k' part part' stage stage'}, s.thread k = .opening part stage →
    s.thread k' = .opening part' stage' → k = k'
  opened : ∀ k part, s.thread k = .returned part .success →
    (s.disk.descriptors.map DiskPart.part).count part = 1
  oparts : s.disk.oparts = s.disk.descriptors.length

theorem System.Inv.served (h : s.Inv) (hawake : s.Awake) : s.Sound :=
  ⟨hawake, h.queued.one, fun _ _ hk => (h.done hk).count_eq_one h.disk, h.disk.oparts⟩

/-- In every state of a run the disk and its threads are as they should be exactly when no woken
thread returns at once while others wait and none of them is woken. -/
theorem no_opener_asleep (es : List Event) :
    (∀ n, (run (es.take n)).Sound) ↔ Along System.step System.Quiet init es := by
  have hfrom : ∀ s : System, s.Inv → s.Awake →
      ((∀ n, ((es.take n).foldl System.event s).Sound) ↔ Along System.step System.Quiet s es) := by
    induction es with
    | nil =>
      exact fun s hinv hawake => iff_of_true (fun n => by simpa using hinv.served hawake) trivial
    | cons e es ih =>
      intro s hinv hawake
      constructor
      · intro hsound
        have hnext : (s.event e).Awake := (hsound 1).awake
        refine ⟨(hinv.awake_event hawake e).mp hnext, fun r hr => ?_⟩
        obtain rfl := Option.some.inj hr
        exact (ih _ (hinv.event e) hnext).mp fun n => hsound (n + 1)
      · rintro ⟨hquiet, hrest⟩ n
        have hnext := (hinv.awake_event hawake e).mpr hquiet
        cases n with
        | zero => exact hinv.served hawake
        | succ n => exact (ih _ (hinv.event e) hnext).mpr (hrest _ rfl) n
  exact hfrom init inv_init fun _ _ => nofun

def sbBlock : Block := ⟨sbSIGWord, 1000, pMapSIG, 3, 0, 1000, [], []⟩

/-- Three threads open the whole disk: the first does it, the second is woken and finds it open. -/
def sleepers : List Event :=
  [.call 0 0, .call 1 0, .call 2 0, .transfer 0 (some sbBlock) true,
    .transfer 0 (some sbBlock) true, .transfer 0 (some sbBlock) true, .resume 1]

/-- The third waits for a disk that is not busy, and none is to be woken. -/
theorem sleepers_asleep : ¬ ∀ n, (run (sleepers.take n)).Sound := by
  intro h
  have hwoken : ∀ k part, (run sleepers).thread k ≠ .woken part := by
    rintro (_ | _ | _ | k) part hk
    all_goals cases hk
  have hwaits : (run sleepers).thread 2 = .waiting 0 := rfl
  exact (h 7).awake rfl hwoken 2 0 hwaits

end MachKernel.Device.DiskOpen
