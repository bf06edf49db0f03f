import MachKernel.Lib.Counting
import MachKernel.Lib.Probe
import MachKernel.Vm.Page

/-! The windows in which a process sees the files that it has open (`mfs_prim.c`,
`kern_descrip.c`): their slots, the references to these, and what is mapped there. -/

namespace MachKernel.Ux.Windows
open Counting Function Probe Vm Option

abbrev nofile : ℕ := 64
abbrev chunkSize : ℕ := 64 * 1024
abbrev mapFileBase : ℕ := 2 ^ 32 - 16 * 1024 * 1024
abbrev fwrite : BitVec 32 := 2
abbrev fappend : BitVec 32 := 8
abbrev ftrunc : BitVec 32 := 0x400
abbrev vmProtRead : BitVec 32 := 1
abbrev vmProtWrite : BitVec 32 := 2

structure File where
  inode : ℕ
  flag : BitVec 32

/-- The protection of a window of the file. -/
def File.prot (file : File) : BitVec 32 :=
  vmProtRead ||| (file.flag &&& if fwrite ||| ftrunc ||| fappend ≠ 0 then vmProtWrite else 0)

structure MapInfo where
  address : ℕ
  size : ℕ
  offset : ℕ

structure FileInfo where
  mapped : Bool
  mapInfo : MapInfo

/-- What `vm_map` has put into the task; `share` is the inheritance. -/
structure Window where
  inode : ℕ
  offset : ℕ
  prot : BitVec 32
  share : Bool

/-- The fields of the user area and of the area shared with the emulator that the windows use, and
the task's windows, by their addresses: each has `CHUNK_SIZE` bytes, at a multiple of it. -/
structure Proc where
  ofile : Fin nofile → Option File
  info : Fin nofile → FileInfo
  findx : Fin nofile → ℕ
  fmap : ℕ → ℤ
  mem : ℕ → Option Window

/-- `dadd`, `dsize` and `dwhich`. -/
structure Old where
  dadd : ℕ
  dsize : ℕ
  dwhich : ℕ

inductive Outcome
  | done (p : Proc)
  | panic
  | searching

abbrev slotAddress (j : ℕ) : ℕ := mapFileBase + chunkSize * j

namespace Proc

def setMap (p : Proc) (i : Fin nofile) (mi : MapInfo) : Proc :=
  { p with info := update p.info i { p.info i with mapInfo := mi } }

/-- The first part of `user_remap_inode`: the old window, if its slot is this descriptor's alone. -/
def release (p : Proc) (i : Fin nofile) : Proc × Option Old :=
  let mi := (p.info i).mapInfo
  let s := p.findx i
  if 0 < mi.size then
    if p.fmap s = 1 then (p.setMap i { mi with address := 0 }, some ⟨mi.address, mi.size, s⟩)
    else (setMap { p with fmap := update p.fmap s (p.fmap s - 1) } i { mi with address := 0 }, none)
  else (p, none)

def deallocate (p : Proc) : Option Old → Proc
  | none => p
  | some d => { p with
      fmap := update p.fmap d.dwhich (p.fmap d.dwhich - 1)
      mem := fun a => if d.dadd ≤ a ∧ a < d.dadd + d.dsize then none else p.mem a }

variable [PageSize]

/-- The slot `j` taken, and the window mapped there. -/
def place (p : Proc) (i : Fin nofile) (file : File) (start : BitVec 32) (j : ℕ) : Proc :=
  let mi : MapInfo := ⟨slotAddress j, chunkSize, truncPage start.toNat⟩
  setMap { p with
    fmap := update p.fmap j (p.fmap j + 1)
    findx := update p.findx i j
    mem := update p.mem mi.address (some ⟨file.inode, mi.offset, file.prot, true⟩) } i mi

/-- `user_remap_inode` for a descriptor of a process; the search for a slot may take `turns`. -/
def userRemapInode (p : Proc) (turns : ℕ) (i : Fin nofile) (file : File) (start : BitVec 32)
    (size : ℕ) : Outcome :=
  let (p, old) := p.release i
  if size = 0 then
    .done ((p.setMap i { (p.info i).mapInfo with offset := 0, size := 0 }).deallocate old)
  else
    match probe nofile (fun j => p.fmap j = 0) turns i with
    | none => .searching
    | some j =>
      -- `vm_map` at an address that is taken
      if (p.mem (slotAddress j)).isSome then .panic
      else .done ((p.place i file start j).deallocate old)

def userMapInode (p : Proc) (turns : ℕ) (i : Fin nofile) (file : File) (start : BitVec 32) :
    Outcome :=
  userRemapInode { p with info := update p.info i ⟨true, ⟨0, 0, 0⟩⟩ } turns i file start chunkSize

def shareDupit (p : Proc) (i j : Fin nofile) : Proc :=
  if (p.info i).mapped = true then
    { p with
      findx := update p.findx j (p.findx i)
      fmap := update p.fmap (p.findx i) (p.fmap (p.findx i) + 1)
      info := update p.info j (p.info i) }
  else p

def closeFile (p : Proc) (turns : ℕ) (i : Fin nofile) (file : File) : Outcome :=
  if (p.info i).mapped = true then
    userRemapInode { p with
      ofile := update p.ofile i none
      info := update p.info i { p.info i with mapped := false } } turns i file 0 0
  else .done { p with ofile := update p.ofile i none }

/-- The child of a fork: the areas are copied, and of the memory what is inherited. -/
def newproc (p : Proc) : Proc := { p with mem := fun a => (p.mem a).filter Window.share }

end Proc

/-- An open file is mapped from `start` on, or not at all (`us_map_files`, special files). After a
`fork` the child is meant; the parent is as it was. -/
inductive Event
  | openFile (i : Fin nofile) (file : File) (start : Option (BitVec 32))
  | dup (i j : Fin nofile)
  | remap (i : Fin nofile) (start : BitVec 32) (size : ℕ)
  | close (i : Fin nofile)
  | fork

def Proc.step [PageSize] (p : Proc) (turns : ℕ) : Event → Outcome
  | .openFile i file start =>
    if (p.ofile i).isSome then .done p
    else
      let p := { p with ofile := update p.ofile i (some file) }
      match start with
      | none => .done p
      | some start => p.userMapInode turns i file start
  | .dup i j =>
    if (p.ofile i).isNone ∨ (p.ofile j).isSome then .done p
    else .done { p.shareDupit i j with ofile := update p.ofile j (p.ofile i) }
  | .remap i start size =>
    match p.ofile i with
    | some file =>
      if (p.info i).mapped = true then p.userRemapInode turns i file start size else .done p
    | none => .done p
  | .close i =>
    match p.ofile i with
    | some file => p.closeFile turns i file
    | none => .done p
  | .fork => .done p.newproc

/-! ## Slots and their references -/

/-- The slots and windows that descriptors hold, beside the counts and what is mapped in each. -/
structure Kept (f : ℕ → ℤ) (v : ℕ → Option Window) (held : Fin nofile → Option (ℕ × Window)) :
    Prop where
  counts : ∀ j, f j = count (fun x => x.map Prod.fst == some j) held
  window : ∀ i j w, held i = some (j, w) → j < nofile ∧ v j = some w
  free : ∀ j, f j = 0 → v j = none

section
variable {f : ℕ → ℤ} {v : ℕ → Option Window} {held : Fin nofile → Option (ℕ × Window)}
  {i k : Fin nofile} {s j : ℕ} {w w' : Window}

theorem Kept.ne_zero (h : Kept f v held) (hi : held i = some (s, w)) : f s ≠ 0 := by
  rw [h.counts]
  exact_mod_cast (count_pos (t := i) (by simp [hi])).ne'

theorem Kept.leave (h : Kept f v held) (hi : held i = some (s, w)) :
    Kept (update f s (f s - 1)) (if f s = 1 then update v s none else v) (update held i none) := by
  have hcount : ∀ j, update f s (f s - 1) j =
      count (fun x => x.map Prod.fst == some j) (update held i none) := by
    intro j
    rcases eq_or_ne j s with rfl | hne
    · have hc := count_leave (q := fun x => x.map Prod.fst == some j) (f := held) (t := i)
        (a := none) (by simp) (by simp [hi])
      rw [update_self, h.counts, ← hc]
      simp
    · rw [update_of_ne hne, h.counts, count_same (by simp [hi, hne.symm])]
  refine ⟨hcount, fun k j w' hk => ?_, fun j hj => ?_⟩
  · have hki : k ≠ i := by
      rintro rfl
      simp at hk
    have hh := hk
    rw [update_of_ne hki] at hh
    refine ⟨(h.window k j w' hh).1, ?_⟩
    split
    · next hone =>
      rcases eq_or_ne j s with rfl | hne
      · -- the last reference has gone, so nobody else holds the slot
        have hzero := hcount j
        rw [update_self, hone, sub_self] at hzero
        have := eq_false_of_count_eq_zero (by exact_mod_cast hzero.symm) k
        simp [hk] at this
      · rw [update_of_ne hne]
        exact (h.window k j w' hh).2
    · exact (h.window k j w' hh).2
  · rcases eq_or_ne j s with rfl | hne
    · rw [update_self] at hj
      rw [if_pos (by omega), update_self]
    · rw [update_of_ne hne] at hj
      split
      · rw [update_of_ne hne, h.free j hj]
      · exact h.free j hj

theorem Kept.take (h : Kept f v held) (hi : held i = none) (hj : j < nofile) (hf : f j = 0) :
    Kept (update f j (f j + 1)) (update v j (some w)) (update held i (some (j, w))) := by
  refine ⟨fun l => ?_, fun k l w' hk => ?_, fun l hl => ?_⟩
  · rcases eq_or_ne l j with rfl | hne
    · rw [update_self, h.counts, count_enter (by simp) (by simp [hi])]
      simp
    · rw [update_of_ne hne, h.counts, count_same (by simp [hi, hne.symm])]
  · rcases eq_or_ne k i with rfl | hki
    · rw [update_self] at hk
      cases hk
      exact ⟨hj, update_self ..⟩
    · rw [update_of_ne hki] at hk
      have hne : l ≠ j := by
        rintro rfl
        exact h.ne_zero hk hf
      rw [update_of_ne hne]
      exact h.window k l w' hk
  · rcases eq_or_ne l j with rfl | hne
    · rw [update_self, hf] at hl
      cases hl
    · rw [update_of_ne hne] at hl ⊢
      exact h.free l hl

theorem Kept.share (h : Kept f v held) (hi : held i = some (s, w)) (hk : held k = none) :
    Kept (update f s (f s + 1)) v (update held k (some (s, w))) := by
  refine ⟨fun l => ?_, fun m l w' hm => ?_, fun l hl => ?_⟩
  · rcases eq_or_ne l s with rfl | hne
    · rw [update_self, h.counts, count_enter (by simp) (by simp [hk])]
      simp
    · rw [update_of_ne hne, h.counts, count_same (by simp [hk, hne.symm])]
  · rcases eq_or_ne m k with rfl | hmk
    · rw [update_self] at hm
      cases hm
      exact h.window i _ _ hi
    · rw [update_of_ne hmk] at hm
      exact h.window m l w' hm
  · rcases eq_or_ne l s with rfl | hne
    · have := h.counts l
      rw [update_self] at hl
      omega
    · rw [update_of_ne hne] at hl
      exact h.free l hl

theorem Kept.holder (h : Kept f v held) (hj : f j ≠ 0) : ∃ i w, held i = some (j, w) := by
  by_contra! hall
  refine hj ((h.counts j).trans ?_)
  have hzero : count (fun x => x.map Prod.fst == some j) held = 0 := by
    refine Finset.card_eq_zero.mpr (Finset.filter_eq_empty_iff.mpr fun i _ hi => ?_)
    obtain ⟨⟨j', w⟩, hh, rfl⟩ := map_eq_some_iff.mp (eq_of_beq hi)
    exact hall i w hh
  rw [hzero]
  rfl

theorem Kept.none_iff (h : Kept f v held) (j : ℕ) : v j = none ↔ f j = 0 := by
  refine ⟨fun hv => ?_, h.free j⟩
  by_contra hj
  obtain ⟨i, w, hi⟩ := h.holder hj
  cases hv.symm.trans (h.window i j w hi).2

theorem Kept.exists_free (h : Kept f v held) (hi : held i = none) : ∃ j < nofile, f j = 0 := by
  by_contra! hall
  choose g w hg using fun j : Fin nofile => h.holder (hall j j.isLt)
  have hinj : Function.Injective g := by
    intro a b hab
    have ha := hg a
    rw [hab, hg b] at ha
    exact Fin.ext (Prod.mk.inj (some.inj ha)).1.symm
  obtain ⟨j, hj⟩ := Finite.surjective_of_injective hinj i
  rw [← hj, hg j] at hi
  cases hi

end

namespace Proc
variable {p p' : Proc} {i k : Fin nofile} {file : File} {start : BitVec 32} {j size : ℕ}
  {held₀ : Fin nofile → Option (ℕ × Window)}

def view (p : Proc) : ℕ → Option Window := fun j => p.mem (slotAddress j)

/-- The slot that a descriptor names, and the window that it should find there. -/
def held (p : Proc) (i : Fin nofile) : Option (ℕ × Window) :=
  if (p.info i).mapped = true then
    (p.ofile i).map fun file =>
      (p.findx i, ⟨file.inode, (p.info i).mapInfo.offset, file.prot, true⟩)
  else none

structure Good (p : Proc) : Prop where
  file : ∀ i, (p.info i).mapped = true → p.ofile i ≠ none
  place : ∀ i, (p.info i).mapped = true →
    (p.info i).mapInfo.address = slotAddress (p.findx i) ∧ (p.info i).mapInfo.size = chunkSize
  kept : Kept p.fmap p.view p.held

theorem setMap_info (p : Proc) (i : Fin nofile) (mi : MapInfo) :
    (p.setMap i mi).info = update p.info i ⟨(p.info i).mapped, mi⟩ := rfl

theorem view_update (m : ℕ → Option Window) (j : ℕ) (x : Option Window) :
    (fun l => update m (slotAddress j) x (slotAddress l)) =
      update (fun l => m (slotAddress l)) j x :=
  update_comp_eq_of_injective m (fun a b h => by simpa using h) j x

theorem view_deallocate (p : Proc) (s : ℕ) :
    (p.deallocate (some ⟨slotAddress s, chunkSize, s⟩)).view = update p.view s none := by
  funext l
  unfold view deallocate slotAddress
  dsimp only [chunkSize]
  rcases eq_or_ne l s with rfl | hne
  · rw [update_self, if_pos (by omega)]
  · rw [update_of_ne hne, if_neg (by omega)]

theorem held_of_file (hf : p.ofile i = some file) (hm : (p.info i).mapped = true) :
    p.held i = some (p.findx i, ⟨file.inode, (p.info i).mapInfo.offset, file.prot, true⟩) := by
  rw [held, if_pos hm, hf, map_some]

/-- The descriptors other than `i` are as they were. -/
def Only (i : Fin nofile) (p p' : Proc) : Prop :=
  ∀ k ≠ i, p'.ofile k = p.ofile k ∧ p'.info k = p.info k ∧ p'.findx k = p.findx k

theorem Good.change (h : Good p) (ho : Only i p p')
    (hi : (p'.info i).mapped = true → p'.ofile i ≠ none ∧
      (p'.info i).mapInfo.address = slotAddress (p'.findx i) ∧
      (p'.info i).mapInfo.size = chunkSize) {x : Option (ℕ × Window)} (hx : p'.held i = x)
    (hk : Kept p'.fmap p'.view (update p.held i x)) : Good p' := by
  have hheld : p'.held = update p.held i x := by
    funext k
    rcases eq_or_ne k i with rfl | hne
    · rw [update_self, hx]
    · obtain ⟨hofile, hinfo, hfindx⟩ := ho k hne
      rw [update_of_ne hne, held, held, hofile, hinfo, hfindx]
  refine ⟨fun k hm => ?_, fun k hm => ?_, hheld ▸ hk⟩
  · rcases eq_or_ne k i with rfl | hne
    · exact (hi hm).1
    · rw [(ho k hne).1]
      exact h.file k ((ho k hne).2.1 ▸ hm)
  · rcases eq_or_ne k i with rfl | hne
    · exact (hi hm).2
    · rw [(ho k hne).2.1, (ho k hne).2.2]
      exact h.place k ((ho k hne).2.1 ▸ hm)

theorem Good.setFile (h : Good p) (hm : (p.info i).mapped = false) (x : Option File) :
    Good { p with ofile := update p.ofile i x } := by
  have hnone : p.held i = none := by rw [held, hm, if_neg (by decide)]
  refine h.change (fun k hk => ⟨update_of_ne hk _ _, rfl, rfl⟩)
    (fun hm' => by cases hm.symm.trans hm')
    (by rw [held, hm, if_neg (by decide)] : held _ i = none) ?_
  rw [← hnone, update_eq_self]
  exact h.kept

theorem Good.dup (h : Good p) (hi : p.ofile i = some file) (hk : p.ofile k = none) :
    Good { p.shareDupit i k with ofile := update p.ofile k (p.ofile i) } := by
  have hkm : (p.info k).mapped = false := by
    simpa using fun hm => h.file k hm hk
  unfold shareDupit
  split
  · next hm =>
    have hheld := held_of_file hi hm
    refine h.change (fun l hl => ?_) (fun _ => ?_) ?_
      (h.kept.share hheld (by rw [held, hkm, if_neg (by decide)] : p.held k = none))
    · exact ⟨update_of_ne hl _ _, update_of_ne hl _ _, update_of_ne hl _ _⟩
    · simpa [hi] using h.place i hm
    · simp [held, hm, hi]
  · exact h.setFile hkm _

theorem deallocate_same (p : Proc) (old : Option Old) :
    (p.deallocate old).ofile = p.ofile ∧ (p.deallocate old).info = p.info ∧
      (p.deallocate old).findx = p.findx := by
  cases old <;> exact ⟨rfl, rfl, rfl⟩

/-- What the first part of `user_remap_inode` and the last do to the window of a descriptor. -/
theorem release_spec (hplace : (p.info i).mapInfo.address = slotAddress (p.findx i) ∧
      (p.info i).mapInfo.size = chunkSize)
    (hk : Kept p.fmap p.view held₀) {w : Window} (hi : held₀ i = some (p.findx i, w)) :
    ∃ q old mi, p.release i = (q, old) ∧ q.ofile = p.ofile ∧ q.findx = p.findx ∧
      q.info = update p.info i ⟨(p.info i).mapped, mi⟩ ∧
      Kept (q.deallocate old).fmap (q.deallocate old).view (update held₀ i none) ∧
      (p.fmap (p.findx i) ≠ 1 ∧ old = none ∨ p.fmap (p.findx i) = 1 ∧ q.fmap = p.fmap ∧
        q.mem = p.mem ∧ old = some ⟨slotAddress (p.findx i), chunkSize, p.findx i⟩) := by
  obtain ⟨haddress, hchunk⟩ := hplace
  have hleave := hk.leave hi
  unfold release
  dsimp only
  rw [if_pos (by rw [hchunk]; decide)]
  by_cases hone : p.fmap (p.findx i) = 1
  · rw [if_pos hone] at hleave ⊢
    rw [haddress, hchunk]
    refine ⟨_, _, _, rfl, rfl, rfl, rfl, ?_, .inr ⟨hone, rfl, rfl, rfl⟩⟩
    rw [view_deallocate]
    exact hleave
  · rw [if_neg hone] at hleave ⊢
    exact ⟨_, _, _, rfl, rfl, rfl, rfl, hleave, .inl ⟨hone, rfl⟩⟩

theorem Good.close [PageSize] (h : Good p) (hf : p.ofile i = some file) :
    ∃ p', Good p' ∧ ∀ turns, p.closeFile turns i file = .done p' := by
  unfold closeFile
  by_cases hm : (p.info i).mapped = true
  · let q : Proc := { p with
      ofile := update p.ofile i none
      info := update p.info i { p.info i with mapped := false } }
    have hq : q.info i = { p.info i with mapped := false } := update_self ..
    have hplace : (q.info i).mapInfo.address = slotAddress (q.findx i) ∧
        (q.info i).mapInfo.size = chunkSize := by
      rw [hq]
      exact h.place i hm
    have hk : Kept q.fmap q.view p.held := h.kept
    obtain ⟨q', old, mi, hrelease, hofile, hfindx, hinfo, hkept, -⟩ :=
      release_spec hplace hk (held_of_file hf hm)
    have hgood : ∀ mi', Good ((q'.setMap i mi').deallocate old) := by
      intro mi'
      obtain ⟨hofile', hinfo', hfindx'⟩ := deallocate_same (q'.setMap i mi') old
      rw [setMap_info, hinfo, update_idem, update_self, hq] at hinfo'
      have hm' : (((q'.setMap i mi').deallocate old).info i).mapped = false := by
        rw [hinfo', update_self]
      refine h.change (fun k hk => ⟨?_, ?_, ?_⟩) (fun hc => by cases hm'.symm.trans hc)
        (by rw [held, hm', if_neg (by decide)]) ?_
      · rw [hofile']
        exact (congrFun hofile k).trans (update_of_ne hk ..)
      · rw [hinfo', update_of_ne hk]
        exact update_of_ne hk ..
      · rw [hfindx']
        exact congrFun hfindx k
      · cases old <;> exact hkept
    refine ⟨_, hgood { (q'.info i).mapInfo with offset := 0, size := 0 }, fun turns => ?_⟩
    dsimp only
    rw [if_pos hm]
    change userRemapInode q turns i file 0 0 = _
    unfold userRemapInode
    rw [hrelease]
    rfl
  · exact ⟨_, h.setFile (by simpa using hm) none, fun turns => if_neg hm⟩

theorem Good.newproc (h : Good p) : Good p.newproc := by
  refine ⟨h.file, h.place, ⟨h.kept.counts, fun i j w hi => ?_, fun j hj => ?_⟩⟩
  · obtain ⟨hj, hv⟩ := h.kept.window i j w hi
    have hshare : w.share = true := by
      unfold held at hi
      split at hi
      · obtain ⟨_, -, hw⟩ := map_eq_some_iff.mp hi
        cases hw
        rfl
      · cases hi
    refine ⟨hj, ?_⟩
    change (p.view j).filter _ = _
    rw [hv, Option.filter_some, if_pos hshare]
  · change (p.view j).filter _ = _
    rw [h.kept.free j hj]
    rfl

variable [PageSize]

theorem place_view (p : Proc) (i : Fin nofile) (file : File) (start : BitVec 32) (j : ℕ) :
    (p.place i file start j).view = update p.view j
      (some ⟨file.inode, truncPage start.toNat, file.prot, true⟩) :=
  view_update ..

/-- The window of a descriptor is there from the page of `start` on. -/
def Covers (p : Proc) (i : Fin nofile) (start : BitVec 32) : Prop :=
  (p.info i).mapped = true ∧ (p.info i).mapInfo.offset = truncPage start.toNat

theorem Good.placed {q : Proc} {old : Option Old} (h : Good p) (ho : Only i p q)
    (hm : (q.info i).mapped = true) (hf : q.ofile i = some file)
    (hk : Kept ((q.place i file start j).deallocate old).fmap
      ((q.place i file start j).deallocate old).view (update p.held i
        (some (j, ⟨file.inode, truncPage start.toNat, file.prot, true⟩)))) :
    Good ((q.place i file start j).deallocate old) ∧
      Covers ((q.place i file start j).deallocate old) i start := by
  obtain ⟨hofile, hinfo, hfindx⟩ := deallocate_same (q.place i file start j) old
  change _ = q.ofile at hofile
  change _ = update q.info i ⟨(q.info i).mapped, _⟩ at hinfo
  change _ = update q.findx i j at hfindx
  have hi := (congrFun hinfo i).trans (update_self ..)
  refine ⟨h.change (fun k hne => ?_) (fun _ => ?_) ?_ hk, ?_⟩
  · rw [hofile, hinfo, hfindx, update_of_ne hne, update_of_ne hne]
    exact ho k hne
  · rw [hofile, hi, hfindx, update_self, hf]
    exact ⟨by simp, rfl, rfl⟩
  · rw [held_of_file ((congrFun hofile i).trans hf) (by rw [hi, hm]), hi, hfindx, update_self]
  · unfold Covers
    rw [hi]
    exact ⟨hm, rfl⟩

omit [PageSize] in
theorem search (hk : Kept p.fmap p.view held₀) (hfree : ∃ j < nofile, p.fmap j = 0)
    (i : Fin nofile) : ∃ n, ∃ j < nofile, p.fmap j = 0 ∧ (p.mem (slotAddress j)).isSome = false ∧
      ∀ turns, probe nofile (fun j => p.fmap j = 0) (n + turns) i = some j := by
  obtain ⟨j, hj, hzero⟩ := hfree
  obtain ⟨d, hd, hstop, -, hprobe⟩ := probe_spec (fun j => p.fmap j = 0) i.isLt hj hzero
  have := steps_lt i.isLt hj
  have hnone : p.mem (slotAddress (ahead nofile i d)) = none := hk.free _ hstop
  exact ⟨d + 1, _, ahead_lt i.isLt (by omega), hstop, by rw [hnone]; rfl, hprobe⟩

theorem remap_found {q : Proc} {old : Option Old} {turns : ℕ} (hrelease : p.release i = (q, old))
    (hsize : size ≠ 0) (hprobe : probe nofile (fun j => q.fmap j = 0) turns i = some j)
    (hvacant : (q.mem (slotAddress j)).isSome = false) :
    p.userRemapInode turns i file start size = .done ((q.place i file start j).deallocate old) := by
  unfold userRemapInode
  rw [hrelease]
  dsimp only
  rw [if_neg hsize, hprobe]
  dsimp only
  rw [hvacant]
  rfl

theorem Good.open (h : Good p) (hf : p.ofile i = none) (file : File) (start : BitVec 32) :
    ∃ n p', Good p' ∧ Covers p' i start ∧ ∀ turns, userMapInode
      { p with ofile := update p.ofile i (some file) } (n + turns) i file start = .done p' := by
  have hnone : p.held i = none := by
    rw [held, if_neg fun hm => h.file i hm hf]
  obtain ⟨n, j, hj, hzero, hvacant, hprobe⟩ := search h.kept (h.kept.exists_free hnone) i
  let q : Proc := { p with
    ofile := update p.ofile i (some file)
    info := update p.info i ⟨true, ⟨0, 0, 0⟩⟩ }
  have hrelease : q.release i = (q, none) := by simp [release, q]
  have hk := h.kept.take hnone hj hzero (w := ⟨file.inode, truncPage start.toNat, file.prot, true⟩)
  have ho : Only i p q := fun k hne =>
    ⟨update_of_ne hne .., update_of_ne hne .., rfl⟩
  obtain ⟨hgood, hcovers⟩ := h.placed ho (by simp [q]) (by simp [q])
    (by rw [deallocate, place_view]; exact hk :
      Kept ((q.place i file start j).deallocate none).fmap _ _)
  exact ⟨n, _, hgood, hcovers, fun turns =>
    remap_found hrelease (by decide : chunkSize ≠ 0) (hprobe turns) hvacant⟩

theorem Good.remap (h : Good p) (hm : (p.info i).mapped = true) (hf : p.ofile i = some file)
    (hsize : size ≠ 0) (hfree : p.fmap (p.findx i) ≠ 1 ∨ ∃ j < nofile, p.fmap j = 0)
    (start : BitVec 32) : ∃ n p', Good p' ∧ Covers p' i start ∧
      ∀ turns, p.userRemapInode (n + turns) i file start size = .done p' := by
  obtain ⟨q, old, mi, hrelease, hofile, hfindx, hinfo, hkept, hcase⟩ :=
    release_spec (h.place i hm) h.kept (held_of_file hf hm)
  have hfound : ∃ n, ∃ j < nofile, q.fmap j = 0 ∧ (q.mem (slotAddress j)).isSome = false ∧
      ∀ turns, probe nofile (fun j => q.fmap j = 0) (n + turns) i = some j := by
    rcases hcase with ⟨-, rfl⟩ | ⟨hone, hfmap, hmem, -⟩
    · exact search hkept (hkept.exists_free (update_self ..)) i
    · rw [hfmap, hmem]
      exact search h.kept (hfree.resolve_left (absurd hone)) i
  obtain ⟨n, j, hj, hzero, hvacant, hprobe⟩ := hfound
  have hk : Kept ((q.place i file start j).deallocate old).fmap
      ((q.place i file start j).deallocate old).view (update p.held i
        (some (j, ⟨file.inode, truncPage start.toNat, file.prot, true⟩))) := by
    rcases hcase with ⟨-, rfl⟩ | ⟨hone, hfmap, -, rfl⟩
    · have htake := hkept.take (update_self ..) hj hzero
        (w := ⟨file.inode, truncPage start.toNat, file.prot, true⟩)
      rw [update_idem] at htake
      rw [deallocate, place_view]
      exact htake
    · have hne : j ≠ p.findx i := by
        rintro rfl
        rw [hfmap, hone] at hzero
        cases hzero
      have htake := hkept.take (update_self ..) hj
        ((update_of_ne hne ..).trans hzero)
        (w := ⟨file.inode, truncPage start.toNat, file.prot, true⟩)
      have hcounts : ((q.place i file start j).deallocate
            (some ⟨slotAddress (p.findx i), chunkSize, p.findx i⟩)).fmap =
          update (update q.fmap (p.findx i) (q.fmap (p.findx i) - 1)) j
            (update q.fmap (p.findx i) (q.fmap (p.findx i) - 1) j + 1) := by
        change update (update q.fmap j _) _ (update q.fmap j _ _ - 1) = _
        rw [update_of_ne hne.symm, update_comm hne, update_of_ne hne]
      rw [view_deallocate, update_idem] at htake
      rw [hcounts, view_deallocate, place_view, update_comm hne]
      exact htake
  obtain ⟨hgood, hcovers⟩ := h.placed (fun k hne => ⟨by rw [hofile], by
    rw [hinfo, update_of_ne hne], by rw [hfindx]⟩) (by rw [hinfo, update_self, hm])
    (by rw [hofile, hf]) hk
  exact ⟨n, _, hgood, hcovers, fun turns => remap_found hrelease hsize (hprobe turns) hvacant⟩

/-- The call ends so, however long its search may take. -/
def Ends (p : Proc) (e : Event) (p' : Proc) : Prop := ∃ n, ∀ turns, p.step (n + turns) e = .done p'

end Proc

/-! ## Runs -/

open Proc

/-- A window is asked for, and there is a slot for it: one is free, or the old one is shared. -/
def Fine (p : Proc) : Event → Prop
  | .remap i _ size => (p.info i).mapped = true →
      size ≠ 0 ∧ (p.fmap (p.findx i) ≠ 1 ∨ ∃ j < nofile, p.fmap j = 0)
  | _ => True

/-- The event maps a window for the descriptor from `start` on. -/
def Maps (p : Proc) (i : Fin nofile) (start : BitVec 32) : Event → Prop
  | .openFile k _ start' => k = i ∧ start' = some start ∧ p.ofile i = none
  | .remap k start' _ => k = i ∧ start' = start ∧ (p.info i).mapped = true
  | _ => False

def Proc.init : Proc :=
  ⟨fun _ => none, fun _ => ⟨false, ⟨0, 0, 0⟩⟩, fun _ => 0, fun _ => 0, fun _ => none⟩

theorem good_init : Good .init := by
  refine ⟨nofun, nofun, ⟨fun j => ?_, nofun, fun _ _ => rfl⟩⟩
  simp [count, held, Proc.init]

section
variable [PageSize] {p p' p'' : Proc} {e : Event}

theorem Proc.Good.step (h : Good p) (hf : Fine p e) :
    ∃ p', Good p' ∧ p.Ends e p' ∧ ∀ i start, Maps p i start e → Covers p' i start := by
  cases e with
  | openFile i file start =>
    cases hi : p.ofile i with
    | some file' =>
      exact ⟨p, h, ⟨0, fun _ => by simp [Proc.step, hi]⟩, fun k _ hm => by
        obtain ⟨rfl, -, hm⟩ := hm
        cases hi.symm.trans hm⟩
    | none =>
      cases start with
      | none =>
        exact ⟨_, h.setFile (by simpa using fun hm => h.file i hm hi) _,
          ⟨0, fun _ => by simp [Proc.step, hi]; rfl⟩, nofun⟩
      | some start =>
        obtain ⟨n, p', hgood, hcovers, hrun⟩ := h.open hi file start
        refine ⟨p', hgood, ⟨n, fun turns => ?_⟩, fun k _ hm => ?_⟩
        · rw [Proc.step, if_neg (by simp [hi])]
          exact hrun turns
        · obtain ⟨rfl, hstart, -⟩ := hm
          cases hstart
          exact hcovers
  | dup i j =>
    by_cases hc : (p.ofile i).isNone ∨ (p.ofile j).isSome
    · exact ⟨p, h, ⟨0, fun _ => if_pos hc⟩, nofun⟩
    · obtain ⟨hi, hj⟩ := not_or.mp hc
      obtain ⟨file, hi⟩ := ne_none_iff_exists'.mp (by simpa using hi)
      exact ⟨_, h.dup hi (by simpa using hj), ⟨0, fun _ => if_neg hc⟩, nofun⟩
  | remap i start size =>
    by_cases hm : (p.info i).mapped = true
    · obtain ⟨file, hi⟩ := ne_none_iff_exists'.mp (h.file i hm)
      obtain ⟨hsize, hfree⟩ := hf hm
      obtain ⟨n, p', hgood, hcovers, hrun⟩ := h.remap hm hi hsize hfree start
      refine ⟨p', hgood, ⟨n, fun turns => ?_⟩, fun k _ hmaps => ?_⟩
      · rw [Proc.step, hi]
        exact (if_pos hm).trans (hrun turns)
      · obtain ⟨rfl, rfl, -⟩ := hmaps
        exact hcovers
    · refine ⟨p, h, ⟨0, fun _ => ?_⟩, fun k _ hmaps => ?_⟩
      · unfold Proc.step
        dsimp only
        cases p.ofile i with
        | none => rfl
        | some file => exact if_neg hm
      · obtain ⟨rfl, -, hm'⟩ := hmaps
        exact absurd hm' hm
  | close i =>
    cases hi : p.ofile i with
    | none => exact ⟨p, h, ⟨0, fun _ => by rw [Proc.step, hi]⟩, nofun⟩
    | some file =>
      obtain ⟨p', hgood, hrun⟩ := h.close hi
      exact ⟨p', hgood, ⟨0, fun turns => by rw [Proc.step, hi]; exact hrun _⟩, nofun⟩
  | fork => exact ⟨_, h.newproc, ⟨0, fun _ => rfl⟩, nofun⟩

inductive Reached : Proc → Prop
  | init : Reached .init
  | step {p p' : Proc} {e : Event} (h : Reached p) (hf : Fine p e) (he : p.Ends e p') : Reached p'

theorem Proc.Ends.unique (h : p.Ends e p') (h' : p.Ends e p'') : p' = p'' := by
  obtain ⟨n, hn⟩ := h
  obtain ⟨m, hm⟩ := h'
  have := hn m
  rw [Nat.add_comm, hm n] at this
  exact (Outcome.done.inj this).symm

theorem Reached.good (h : Reached p) : Good p := by
  induction h with
  | init => exact good_init
  | step _ hf he ih =>
    obtain ⟨p', hgood, he', -⟩ := ih.step hf
    exact he.unique he' ▸ hgood

/-- Each mapped descriptor's window is in its slot, of its file and offset, writable if the file
is; a slot is counted once for each descriptor that names it, and its window goes with the last. -/
structure Sound (p : Proc) : Prop where
  counts : ∀ j, p.fmap j =
    (Finset.univ.filter fun i => (p.info i).mapped = true ∧ p.findx i = j).card
  window : ∀ i, (p.info i).mapped = true → ∃ file, p.ofile i = some file ∧ p.findx i < nofile ∧
    (p.info i).mapInfo.address = slotAddress (p.findx i) ∧ (p.info i).mapInfo.size = chunkSize ∧
    p.mem (slotAddress (p.findx i)) =
      some ⟨file.inode, (p.info i).mapInfo.offset, file.prot, true⟩ ∧
    (file.prot &&& vmProtWrite ≠ 0 ↔ file.flag &&& fwrite ≠ 0)
  gone : ∀ j, p.mem (slotAddress j) = none ↔ p.fmap j = 0

omit [PageSize] in
theorem Proc.Good.accurate (h : Good p) : Sound p := by
  refine ⟨fun j => ?_, fun i hm => ?_, h.kept.none_iff⟩
  · rw [h.kept.counts]
    refine congrArg (fun s => ((Finset.card s : ℕ) : ℤ)) (Finset.filter_congr fun i _ => ?_)
    by_cases hm : (p.info i).mapped = true
    · obtain ⟨file, hi⟩ := ne_none_iff_exists'.mp (h.file i hm)
      simp [held_of_file hi hm, hm]
    · simp [held, hm]
  · obtain ⟨file, hi⟩ := ne_none_iff_exists'.mp (h.file i hm)
    obtain ⟨hlt, hwindow⟩ := h.kept.window i _ _ (held_of_file hi hm)
    refine ⟨file, hi, hlt, (h.place i hm).1, (h.place i hm).2, hwindow, ?_⟩
    rw [File.prot, if_pos (by decide), BitVec.and_comm _ vmProtWrite, BitVec.and_or_distrib_left,
      show vmProtWrite &&& vmProtRead = 0#32 by decide, BitVec.zero_or, BitVec.and_comm vmProtWrite,
      BitVec.and_assoc, BitVec.and_self]

/-- In every run in which no window is asked for while each slot has a descriptor of its own: every
call ends, the new window covers what was asked for, and the windows are as they should be. -/
theorem Reached.windows (h : Reached p) : Sound p ∧
    ∀ e, Fine p e → ∃ p', p.Ends e p' ∧ Sound p' ∧ ∀ i start, Maps p i start e →
      (p'.info i).mapInfo.offset ≤ start.toNat ∧
        (pageSize ≤ chunkSize → start.toNat < (p'.info i).mapInfo.offset + chunkSize) := by
  refine ⟨h.good.accurate, fun e hf => ?_⟩
  obtain ⟨p', hgood, he, hcovers⟩ := h.good.step hf
  refine ⟨p', he, hgood.accurate, fun i start hm => ?_⟩
  have := lt_truncPage_add start.isLt
  rw [(hcovers i start hm).2]
  exact ⟨truncPage_le start.isLt, fun _ => by omega⟩

theorem Proc.Good.stuck {i : Fin nofile} {size : ℕ} (h : Good p) (hm : (p.info i).mapped = true)
    (hsize : size ≠ 0) (hone : p.fmap (p.findx i) = 1) (hall : ∀ j < nofile, p.fmap j ≠ 0)
    (turns : ℕ) (start : BitVec 32) : p.step turns (.remap i start size) = .searching := by
  obtain ⟨file, hi⟩ := ne_none_iff_exists'.mp (h.file i hm)
  obtain ⟨q, old, mi, hrelease, -, -, -, -, hcase⟩ :=
    release_spec (h.place i hm) h.kept (held_of_file hi hm)
  obtain ⟨-, hfmap, -⟩ := hcase.resolve_left fun hc => hc.1 hone
  unfold Proc.step
  dsimp only
  rw [hi]
  dsimp only
  rw [if_pos hm, userRemapInode, hrelease]
  dsimp only
  rw [if_neg hsize, probe_none i.isLt fun j hj => by rw [hfmap]; exact hall j hj]

theorem filled (file : File) : ∀ n ≤ nofile, ∃ p, Reached p ∧
    (∀ i : Fin nofile, ↑i < n → (p.info i).mapped = true ∧ p.findx i = i) ∧
    ∀ i : Fin nofile, n ≤ ↑i → p.ofile i = none := by
  intro n
  induction n with
  | zero => exact fun _ => ⟨_, .init, nofun, fun _ _ => rfl⟩
  | succ n ih =>
    intro hn
    obtain ⟨p, hp, hmapped, hnone⟩ := ih (by omega)
    let i : Fin nofile := ⟨n, by omega⟩
    have hzero : p.fmap n = 0 := by
      by_contra hne
      obtain ⟨k, w, hk⟩ := hp.good.kept.holder hne
      unfold held at hk
      split at hk
      · next hm =>
        obtain ⟨_, -, hw⟩ := map_eq_some_iff.mp hk
        by_cases hkn : (k : ℕ) < n
        · have := (hmapped k hkn).2
          have := congrArg Prod.fst hw
          simp only at this
          omega
        · exact hp.good.file k hm (hnone k (by omega))
      · cases hk
    let q : Proc := { p with
      ofile := update p.ofile i (some file)
      info := update p.info i ⟨true, ⟨0, 0, 0⟩⟩ }
    have hrelease : q.release i = (q, none) := by simp [release, q]
    have hends : p.Ends (.openFile i file (some 0)) (q.place i file 0 n) := by
      refine ⟨1, fun turns => ?_⟩
      rw [Proc.step, if_neg (by simp [hnone i le_rfl])]
      refine remap_found hrelease (by decide : chunkSize ≠ 0) ?_ ?_
      · rw [Nat.add_comm, probe]
        exact if_pos hzero
      · have hvacant : p.mem (slotAddress n) = none := hp.good.kept.free n hzero
        change (p.mem _).isSome = false
        rw [hvacant]
        rfl
    have hinfo : (q.place i file 0 n).info = update q.info i ⟨(q.info i).mapped, _⟩ := rfl
    refine ⟨_, .step (e := .openFile i file (some 0)) hp trivial hends, fun k hk => ?_,
      fun k hk => ?_⟩
    · change _ ∧ update p.findx i n k = k
      rcases eq_or_ne k i with rfl | hne
      · rw [hinfo, update_self, update_self]
        exact ⟨by simp [q], rfl⟩
      · rw [hinfo, update_of_ne hne, update_of_ne hne]
        have := hmapped k (by have := Fin.val_ne_of_ne hne; simp only [i] at this; omega)
        exact ⟨by simpa [q, hne] using this.1, this.2⟩
    · refine (update_of_ne ?_ ..).trans (hnone k (by omega))
      rintro rfl
      simp only [i] at hk
      omega

end

/-- Each descriptor has a window of its own; another is asked for, and the search goes on for
ever. -/
theorem windows_full : letI := pages4096
    ∃ p, Reached p ∧ ∀ turns start,
      p.step turns (.remap ⟨0, by decide⟩ start chunkSize) = .searching := by
  let _ := pages4096
  obtain ⟨p, hp, hmapped, -⟩ := filled ⟨0, 3⟩ nofile le_rfl
  have hslot := fun i : Fin nofile => hmapped i i.isLt
  refine ⟨p, hp, hp.good.stuck (hslot _).1 (by decide) ?_ fun j hj => ?_⟩
  · rw [(hslot _).2, hp.good.accurate.counts]
    have hset : (Finset.univ.filter fun i => (p.info i).mapped = true ∧ p.findx i = 0) =
        {⟨0, by decide⟩} := by
      ext i
      rw [Finset.mem_filter, Finset.mem_singleton, Fin.ext_iff, (hslot i).2]
      exact ⟨fun hi => hi.2.2, fun hi => ⟨Finset.mem_univ i, (hslot i).1, hi⟩⟩
    rw [hset]
    rfl
  · obtain ⟨file, hi⟩ := ne_none_iff_exists'.mp (hp.good.file ⟨j, hj⟩ (hslot _).1)
    have hheld := held_of_file hi (hslot _).1
    rw [(hslot _).2] at hheld
    exact hp.good.kept.ne_zero hheld

theorem windows_opened : letI := pages4096
    ∃ p, Reached p ∧ (p.info ⟨0, by decide⟩).mapped = true ∧ Sound p := by
  let _ := pages4096
  obtain ⟨p, hp, hmapped, -⟩ := filled ⟨0, 3⟩ 1 (by decide)
  exact ⟨p, hp, (hmapped ⟨0, by decide⟩ (by decide)).1, (Reached.windows hp).1⟩

end MachKernel.Ux.Windows
