import MachKernel.Vm.InsertPages

/-! Where `vm_map_copyout_page_list` places the bytes of a copy. -/

namespace MachKernel.Vm
open Function List
open Word32 Linked

/-- The offset in the copy that the last continuation returns. -/
def Cont.lastOffset (offset : ℕ) : Cont → ℕ
  | .pageList offset _ _ none => offset
  | .pageList offset _ _ (some cont) => cont.lastOffset offset
  | _ => offset

def lastOffset (offset : ℕ) : Option Cont → ℕ
  | none => offset
  | some cont => cont.lastOffset offset

/-- The offset in the last of the copies that a copy stands for. -/
def MapCopy.lastOffset (copy : MapCopy) : ℕ :=
  match copy.body with
  | .pageList _ _ cont => Vm.lastOffset copy.offset cont
  | _ => copy.offset

/-- The part of an offset within its page. -/
def pageOffset [PageSize] (x : ℕ) : ℕ := sub x (truncPage x)

namespace CopyoutState
variable {α : Type*}

/-! ## The pages of the data -/

/-- A page lies in an object. -/
def At (s : CopyoutState α) (m : PageId) (object : ObjId) (offset : ℕ) : Prop :=
  m < s.npages ∧ ∃ busy, s.pages m = .tabled object offset busy

/-- The pages as the page module keeps them: a place holds one page at most, and the free list holds
free pages. -/
structure Paged (s : CopyoutState α) : Prop where
  single : ∀ m m' object offset, s.At m object offset → s.At m' object offset → m = m'
  distinct : s.queueFree.Nodup
  free : ∀ m ∈ s.queueFree, s.pages m = .free ∧ m < s.npages

/-- A list of pages that a copy may have: all of them are stolen, or all are in objects. -/
structure Hands (s : CopyoutState α) (l : List PageId) : Prop where
  paged : s.Paged
  distinct : l.Nodup
  known : ∀ m ∈ l, m < s.npages
  uniform : (∀ m ∈ l, (s.pages m).isStolen) ∨ ∀ m ∈ l, ∃ object offset, s.At m object offset

/-- What is noted of a run: the number of the page of the data that each page holds, how many pages
have been handed over in lists, those inserted, and with each list that a continuation returned the
state it found and the pages inserted before. -/
structure Ledger (α : Type*) where
  holds : PageId → Option ℕ
  handed : ℕ
  placed : List PageId
  returns : List (CopyoutState α × List PageId × List (PageId × PagePlace))

/-- A list comes with the next pages of the data. -/
def handOver (l : List PageId) (first : ℕ) (holds : PageId → Option ℕ) : PageId → Option ℕ :=
  fun m => if m ∈ l then some (first + l.idxOf m) else holds m

/-- `vm_page_copy` for each page that is stolen by being copied. -/
def stealHolds : List PageId → CopyoutState α → (PageId → Option ℕ) → PageId → Option ℕ
  | [], _, holds => holds
  | m :: l, s, holds =>
    match s.stealPage m with
    | none => holds
    | some (newM, s) => stealHolds l s (update holds newM (holds m))

/-- What the pages hold after a list has been taken, and its pages have been stolen if need be. -/
def listHolds (l : List PageId) (first : ℕ) (s : CopyoutState α) (holds : PageId → Option ℕ) :
    PageId → Option ℕ :=
  match l with
  | [] => holds
  | m :: _ =>
    match s.pages m with
    | .tabled _ _ _ => stealHolds l s (handOver l first holds)
    | _ => handOver l first holds

/-- What a turn of the loop adds. -/
def noteTurn (object : ObjId) (offset : ℕ) (t : Turn α) (g : Ledger α) : Ledger α :=
  match t.inserted.copy with
  | none => g
  | some c =>
    match t.inserted.state.zone c with
    | some ⟨copyOffset, copySize, .pageList pageList npages cont⟩ =>
      match pageList[t.i]? with
      | some (some m) =>
        let placed := m :: g.placed
        match npages - 1, cont, t.ws, t.inserted.state.vmPageReplace m object offset with
        | 0, some (.pageList _ _ pages _), w :: _, some s =>
          let s := s.setCopy c ⟨copyOffset, copySize, .pageList (pageList.set t.i none) 0 none⟩
          let s := { s with toMapState := w.others s.toMapState }
          { holds := listHolds (pages.map Prod.fst) g.handed (s.takePages pages) g.holds
            handed := g.handed + pages.length
            placed := placed
            returns := (s, placed, pages) :: g.returns }
        | _, _, _, _ => { g with placed := placed }
      | _ => g
    | _ => g

section
variable [PageSize]

def ledgerFrom (object : ObjId) : ℕ → ℕ → Turn α → Ledger α → Ledger α
  | 0, _, _, g => g
  | turns + 1, offset, t, g =>
    let g := noteTurn object offset t g
    match insertTurn object offset t with
    | some (.inl t) => ledgerFrom object turns (add offset pageSize) t g
    | _ => g

/-- What is noted of a call. -/
def ledger (s : CopyoutState α) (run : CollapseRun) (ws : List (Unlocked α)) (c : CopyId)
    (copy : MapCopy) : Ledger α :=
  let first : Ledger α :=
    { holds := listHolds copy.pages 0 s fun _ => none
      handed := copy.pages.length
      placed := []
      returns := [] }
  match s.prepare run ws c copy with
  | none => first
  | some p =>
    ledgerFrom p.object (copy.span / pageSize) p.offset
      ⟨p.ws, ⟨.success, some c, false, p.state⟩, 0⟩ first

/-- The continuations return pages that may be handed over, and none that has been inserted. -/
def Ledger.Honest (g : Ledger α) : Prop :=
  ∀ r ∈ g.returns, (r.1.takePages r.2.2).Hands (r.2.2.map Prod.fst) ∧
    ∀ p ∈ r.2.2, p.1 ∉ r.2.1

/-! ## The data in the map -/

/-- At the address `x` the map shows byte `n` of the pages of the data, laid end to end. -/
def ByteAt (s : CopyoutState α) (holds : PageId → Option ℕ) (x n : ℕ) : Prop :=
  ∃ e ∈ s.map.entries, ∃ object offset m i, e.Places (truncPage x) object offset ∧
    s.At m object offset ∧ holds m = some i ∧ i * pageSize + x % pageSize = n

/-- The addresses that a call maps. -/
def NewlyMaps (s s' : CopyoutState α) (run : CollapseRun) (ws : List (Unlocked α)) (c : CopyId)
    (copy : MapCopy) (x : ℕ) : Prop :=
  ∃ p, s.prepare run ws c copy = some p ∧ ¬ p.before.Maps x ∧ p.state.map.Maps x ∧ s'.map.Maps x

/-- The data is where the call says: the bytes of the copy follow each other from the address on,
and exactly the pages with these bytes are newly mapped. -/
structure PlacesData (s s' : CopyoutState α) (run : CollapseRun) (ws : List (Unlocked α))
    (c : CopyId) (copy : MapCopy) (address : ℕ) : Prop where
  bytes : ∀ k < copy.size, s'.ByteAt (s.ledger run ws c copy).holds (add address k)
    (pageOffset copy.offset + k)
  pages : ∀ x < modulus, NewlyMaps s s' run ws c copy x ↔
    ∃ k < copy.size, truncPage x = truncPage (add address k)

end

/-! ## Steps on the pages -/

section
variable {s s' : CopyoutState α} {m m' q : PageId} {l l' : List PageId} {object o : ObjId}
  {offset off first : ℕ} {holds : PageId → Option ℕ}

theorem At.not_stolen (h : s.At m object offset) : (s.pages m).isStolen = false := by
  obtain ⟨-, busy, h⟩ := h
  rw [h]
  rfl

theorem At.not_free (h : s.At m object offset) : s.pages m ≠ .free := by
  obtain ⟨-, busy, h⟩ := h
  rw [h]
  exact PagePlace.noConfusion

theorem At.unique (h : s.At m object offset) (h' : s.At m o off) : object = o ∧ offset = off := by
  obtain ⟨-, busy, h⟩ := h
  obtain ⟨-, busy', h'⟩ := h'
  cases h.symm.trans h'
  exact ⟨rfl, rfl⟩

theorem Paged.congr (h : s.Paged) (hpages : s'.pages = s.pages) (hn : s'.npages = s.npages)
    (hqueue : s'.queueFree = s.queueFree) : s'.Paged := by
  have hat : ∀ m object offset, s'.At m object offset ↔ s.At m object offset := fun m o off => by
    unfold At
    rw [hpages, hn]
  refine ⟨fun m m' o off hm hm' => ?_, ?_, fun m hm => ?_⟩
  · exact h.single m m' o off ((hat m o off).mp hm) ((hat m' o off).mp hm')
  · rw [hqueue]
    exact h.distinct
  · rw [hpages, hn]
    exact h.free m (hqueue ▸ hm)

/-- What replacing the page at a place does: a stolen page comes to the place, and the pages of
other places stay. -/
structure Replaced (s s' : CopyoutState α) (m : PageId) (object : ObjId) (offset : ℕ) : Prop where
  paged : s'.Paged
  npages : s'.npages = s.npages
  here : s'.At m object offset
  stolen : ∀ q, q ≠ m → (s.pages q).isStolen → s'.pages q = s.pages q
  kept : ∀ q o off, s.At q o off → (o, off) ≠ (object, offset) → s'.At q o off

theorem Paged.evict (h : s.Paged) (hq : s.At q object offset) :
    Paged { s.setPage q .free with queueFree := q :: s.queueFree } ∧
      ∀ m, m ≠ q → (s.setPage q .free).pages m = s.pages m := by
  have hother : ∀ m, m ≠ q → (s.setPage q .free).pages m = s.pages m := fun m hne =>
    update_of_ne hne _ _
  have hself : (s.setPage q .free).pages q = .free := update_self _ _ _
  have hat : ∀ m o off, (s.setPage q .free).At m o off → s.At m o off := by
    rintro m o off ⟨hlt, busy, hm⟩
    rcases eq_or_ne m q with rfl | hne
    · rw [hself] at hm
      cases hm
    · exact ⟨hlt, busy, (hother m hne).symm.trans hm⟩
  refine ⟨⟨fun m m' o off hm hm' => h.single m m' o off (hat m o off hm) (hat m' o off hm'),
    nodup_cons.mpr ⟨fun hmem => hq.not_free (h.free q hmem).1, h.distinct⟩, fun m hm => ?_⟩,
    hother⟩
  rcases mem_cons.mp hm with rfl | hm
  · exact ⟨hself, hq.1⟩
  · obtain ⟨hfree, hlt⟩ := h.free m hm
    exact ⟨(hother m fun heq => hq.not_free (heq ▸ hfree)).trans hfree, hlt⟩

theorem Paged.settle (h : s.Paged) {busy : Bool} (busy' : Bool) (hm : s.pages m = .stolen busy)
    (hknown : m < s.npages) (hno : ∀ q, ¬ s.At q object offset) :
    Replaced s (s.setPage m (.tabled object offset busy')) m object offset := by
  have hother : ∀ q, q ≠ m → (s.setPage m (.tabled object offset busy')).pages q = s.pages q :=
    fun q hne => update_of_ne hne _ _
  have hself : (s.setPage m (.tabled object offset busy')).pages m = .tabled object offset busy' :=
    update_self _ _ _
  have hat : ∀ q o off, (s.setPage m (.tabled object offset busy')).At q o off →
      q = m ∧ o = object ∧ off = offset ∨ s.At q o off := by
    rintro q o off ⟨hlt, b, hq⟩
    rcases eq_or_ne q m with rfl | hne
    · rw [hself] at hq
      cases hq
      exact .inl ⟨rfl, rfl, rfl⟩
    · exact .inr ⟨hlt, b, (hother q hne).symm.trans hq⟩
  refine ⟨⟨fun q q' o off hq hq' => ?_, h.distinct, fun q hq => ?_⟩, rfl,
    ⟨hknown, busy', hself⟩, fun q hne _ => hother q hne, fun q o off hq _ => ?_⟩
  · rcases hat q o off hq with ⟨rfl, rfl, rfl⟩ | hold
    · rcases hat q' _ _ hq' with ⟨heq, -⟩ | hold'
      · exact heq.symm
      · exact absurd hold' (hno q')
    · rcases hat q' o off hq' with ⟨-, rfl, rfl⟩ | hold'
      · exact absurd hold (hno q)
      · exact h.single q q' o off hold hold'
  · obtain ⟨hfree, hlt⟩ := h.free q hq
    exact ⟨(hother q fun heq => by rw [heq, hm] at hfree; cases hfree).trans hfree, hlt⟩
  · obtain ⟨hlt, b, hq⟩ := hq
    exact ⟨hlt, b, (hother q fun heq => by rw [heq, hm] at hq; cases hq).trans hq⟩

theorem Paged.replace (h : s.Paged) (hm : (s.pages m).isStolen) (hknown : m < s.npages)
    (hr : s.vmPageReplace m object offset = some s') : Replaced s s' m object offset := by
  obtain ⟨busy, hbusy⟩ : ∃ busy, s.pages m = .stolen busy := by
    cases hp : s.pages m with
    | free => rw [hp] at hm; cases hm
    | stolen busy => exact ⟨busy, rfl⟩
    | tabled object offset busy => rw [hp] at hm; cases hm
  unfold CopyoutState.vmPageReplace at hr
  dsimp only at hr
  rw [hbusy] at hr
  dsimp only at hr
  split at hr
  · next hnone =>
    cases hr
    refine h.settle busy hbusy hknown fun q ⟨hlt, b, hq⟩ => ?_
    have := find?_eq_none.mp hnone q (mem_range.mpr hlt)
    cases b <;> simp [hq] at this
  · next r hfound =>
    cases hr
    have hr : s.At r object offset := by
      have hlt := mem_range.mp (mem_of_find?_eq_some hfound)
      have := find?_some hfound
      simp only [decide_eq_true_eq] at this
      rcases this with hr | hr
      · exact ⟨hlt, true, hr⟩
      · exact ⟨hlt, false, hr⟩
    have hne : m ≠ r := fun heq => by
      have := hr.not_stolen
      rw [← heq, hm] at this
      cases this
    obtain ⟨hpaged, hother⟩ := h.evict hr
    have hno : ∀ q, ¬ CopyoutState.At { s.setPage r .free with queueFree := r :: s.queueFree } q
        object offset := by
      rintro q ⟨hlt, b, hq⟩
      rcases eq_or_ne q r with rfl | hqr
      · change update s.pages q .free q = _ at hq
        rw [update_self] at hq
        cases hq
      · exact hqr (h.single q r object offset ⟨hlt, b, (hother q hqr).symm.trans hq⟩ hr)
    have hset := hpaged.settle busy ((hother m hne).trans hbusy) hknown hno
    refine ⟨hset.paged, hset.npages, hset.here, fun q hqm hq => ?_, fun q o off hq hplace => ?_⟩
    · have hqr : q ≠ r := fun heq => by
        have := hr.not_stolen
        rw [← heq, hq] at this
        cases this
      exact (hset.stolen q hqm ((hother q hqr).symm ▸ hq)).trans (hother q hqr)
    · have hqr : q ≠ r := fun heq => hplace (by
        obtain ⟨rfl, rfl⟩ := (heq ▸ hq).unique hr
        rfl)
      obtain ⟨hlt, b, hq⟩ := hq
      exact hset.kept q o off ⟨hlt, b, (hother q hqr).trans hq⟩ hplace

/-- Pages in no object, as the loop finds those of a list. -/
structure Loose (s : CopyoutState α) (l : List PageId) : Prop where
  distinct : l.Nodup
  stolen : ∀ m ∈ l, (s.pages m).isStolen
  known : ∀ m ∈ l, m < s.npages

theorem Loose.congr (h : s.Loose l) (hpages : s'.pages = s.pages) (hn : s'.npages = s.npages) :
    s'.Loose l :=
  ⟨h.distinct, fun m hm => hpages ▸ h.stolen m hm, fun m hm => hn ▸ h.known m hm⟩

/-- What stealing one page by copying it does. -/
structure Copied (s s' : CopyoutState α) (m' : PageId) : Prop where
  paged : s'.Paged
  npages : s'.npages = s.npages
  known : m' < s.npages
  fresh : s.pages m' = .free
  stolen : (s'.pages m').isStolen
  others : ∀ q, q ≠ m' → (s.pages q).isStolen → s'.pages q = s.pages q
  kept : ∀ q o off, s.At q o off → s'.At q o off

theorem Paged.steal (h : s.Paged) (hm : s.At m object offset)
    (hr : s.stealPage m = some (m', s')) : Copied s s' m' ∧ s'.zone = s.zone ∧
      s'.nextCopy = s.nextCopy := by
  obtain ⟨hmlt, busy, hbusy⟩ := hm
  unfold CopyoutState.stealPage at hr
  rw [hbusy] at hr
  dsimp only at hr
  cases hqueue : s.queueFree with
  | nil =>
    rw [hqueue] at hr
    cases hr
  | cons newM rest =>
    rw [hqueue] at hr
    cases hr
    obtain ⟨hfree, hlt⟩ := h.free m' (by rw [hqueue]; exact mem_cons_self)
    have hd := h.distinct
    rw [hqueue] at hd
    obtain ⟨hnot, hrest⟩ := nodup_cons.mp hd
    have hne : m ≠ m' := fun heq => by
      rw [← heq, hbusy] at hfree
      cases hfree
    generalize hs' : ({ ((s.setPage m (.tabled object offset false)).pagingEnd object).setPage m'
      (.stolen true) with queueFree := rest } : CopyoutState α) = s'
    have hpages : s'.pages = update (update s.pages m
        (.tabled object offset false)) m' (.stolen true) := by rw [← hs']; rfl
    have hother : ∀ q, q ≠ m' → q ≠ m → s'.pages q = s.pages q := fun q hm' hm => by
      rw [hpages, update_of_ne hm', update_of_ne hm]
    have hself : s'.pages m' = .stolen true := by rw [hpages, update_self]
    have hback : s'.pages m = .tabled object offset false := by
      rw [hpages, update_of_ne hne, update_self]
    have hn : s'.npages = s.npages := by rw [← hs']; rfl
    have hat : ∀ q o off, s'.At q o off ↔ s.At q o off := by
      intro q o off
      unfold At
      rw [hn]
      refine and_congr_right fun _ => ?_
      rcases eq_or_ne q m' with rfl | hqm'
      · rw [hself, hfree]
        exact iff_of_false (by rintro ⟨b, hq⟩; cases hq) (by rintro ⟨b, hq⟩; cases hq)
      · rcases eq_or_ne q m with rfl | hqm
        · rw [hback, hbusy]
          constructor
          · rintro ⟨b, hq⟩
            cases hq
            exact ⟨busy, rfl⟩
          · rintro ⟨b, hq⟩
            cases hq
            exact ⟨false, rfl⟩
        · rw [hother q hqm' hqm]
    have hq' : s'.queueFree = rest := by rw [← hs']
    refine ⟨⟨⟨fun q q' o off hq hq' => ?_, ?_, fun q hq => ?_⟩, hn, hlt, hfree,
      ?_, fun q hne hq => hother q hne ?_, fun q o off hq => (hat q o off).mpr hq⟩, ?_, ?_⟩
    · exact h.single q q' o off ((hat q o off).mp hq) ((hat q' o off).mp hq')
    · rw [hq']
      exact hrest
    · rw [hq'] at hq
      obtain ⟨hqfree, hqlt⟩ := h.free q (by rw [hqueue]; exact mem_cons_of_mem _ hq)
      rw [hn, hother q (fun heq => hnot (heq ▸ hq)) fun heq => by
        rw [heq, hbusy] at hqfree
        cases hqfree]
      exact ⟨hqfree, hqlt⟩
    · rw [hself]
      rfl
    · rintro rfl
      rw [hbusy] at hq
      cases hq
    · rw [← hs']
      rfl
    · rw [← hs']
      rfl

/-- What making the pages of a list loose does: each page left holds what the page in its place
did. -/
structure MadeLoose (s s' : CopyoutState α) (l left : List PageId)
    (holds holds' : PageId → Option ℕ) : Prop where
  length : left.length = l.length
  paged : s'.Paged
  npages : s'.npages = s.npages
  loose : s'.Loose left
  sameData : left.map holds' = l.map holds
  kept : ∀ q o off, s.At q o off → s'.At q o off ∧ holds' q = holds q
  zone : s'.zone = s.zone
  nextCopy : s'.nextCopy = s.nextCopy

theorem Paged.stealPages (pre : List PageId) (holds : PageId → Option ℕ) (h : s.Paged)
    (hpre : s.Loose pre)
    (hl : ∀ m ∈ l, ∃ object offset, s.At m object offset) {l₂ : List (Option PageId)}
    (hr : s.stealPages (l.map some) l.length = some (l₂, s')) : ∃ left, l₂ = left.map some ∧
      MadeLoose s s' (pre ++ l) (pre ++ left) holds (stealHolds l s holds) := by
  induction l generalizing s pre holds l₂ with
  | nil =>
    cases hr
    refine ⟨[], rfl, rfl, h, rfl, by simpa using hpre, rfl, fun q o off hq => ⟨hq, rfl⟩, rfl, rfl⟩
  | cons m l ih =>
    unfold CopyoutState.stealPages at hr
    obtain ⟨⟨m', s₁⟩, hsteal, hr⟩ := Option.bind_eq_some_iff.mp hr
    obtain ⟨⟨l₃, s₂⟩, hrest, hr⟩ := Option.map_eq_some_iff.mp hr
    cases hr
    obtain ⟨object, offset, hm⟩ := hl m mem_cons_self
    obtain ⟨hcopied, hzone, hnext⟩ := h.steal hm hsteal
    have hnew : ∀ q, (s.pages q).isStolen → q ≠ m' := fun q hq heq => by
      rw [heq, hcopied.fresh] at hq
      cases hq
    have hnewAt : ∀ q o off, s.At q o off → q ≠ m' := fun q o off hq heq =>
      (heq ▸ hq).not_free hcopied.fresh
    have hpre' : s₁.Loose (pre ++ [m']) := by
      refine ⟨nodup_append.mpr ⟨hpre.distinct, nodup_singleton _, fun q hq q' hq' => ?_⟩,
        fun q hq => ?_, fun q hq => ?_⟩
      · rw [mem_singleton.mp hq']
        exact hnew q (hpre.stolen q hq)
      · rcases mem_append.mp hq with hq | hq
        · rw [hcopied.others q (hnew q (hpre.stolen q hq)) (hpre.stolen q hq)]
          exact hpre.stolen q hq
        · rw [mem_singleton.mp hq]
          exact hcopied.stolen
      · rw [hcopied.npages]
        rcases mem_append.mp hq with hq | hq
        · exact hpre.known q hq
        · rw [mem_singleton.mp hq]
          exact hcopied.known
    obtain ⟨left, rfl, hdone⟩ := ih (pre ++ [m'])
      (update holds m' (holds m)) hcopied.paged hpre' (fun q hq => by
        obtain ⟨o, off, hq⟩ := hl q (mem_cons_of_mem _ hq)
        exact ⟨o, off, hcopied.kept q o off hq⟩) hrest
    have hholds : stealHolds (m :: l) s holds =
        stealHolds l s₁ (update holds m' (holds m)) := by
      rw [stealHolds, hsteal]
    have hsame : ∀ q, q ≠ m' → update holds m' (holds m) q = holds q := fun q hne =>
      update_of_ne hne _ _
    rw [append_assoc, append_assoc] at hdone
    refine ⟨m' :: left, rfl, ?_, hdone.paged, hdone.npages.trans hcopied.npages, hdone.loose, ?_,
      fun q o off hq => ?_, hdone.zone.trans hzone, hdone.nextCopy.trans hnext⟩
    · have := hdone.length
      simpa using this
    · rw [hholds]
      refine hdone.sameData.trans ?_
      rw [map_append, map_append, map_append, map_cons]
      congr 1
      · exact map_congr_left fun q hq => hsame q (hnew q (hpre.stolen q hq))
      · rw [update_self, map_nil, singleton_append, map_cons]
        congr 1
        refine map_congr_left fun q hq => ?_
        obtain ⟨o, off, hq⟩ := hl q (mem_cons_of_mem _ hq)
        exact hsame q (hnewAt q o off hq)
    · obtain ⟨hq', heq⟩ := hdone.kept q o off (hcopied.kept q o off hq)
      rw [hholds, heq]
      exact ⟨hq', hsame q (hnewAt q o off hq)⟩

theorem handOver_map (hl : l.Nodup) :
    l.map (handOver l first holds) = (List.range' first l.length).map some := by
  refine List.ext_getElem (by simp) fun k hk _ => ?_
  simp [handOver, hl.idxOf_getElem]

theorem handOver_of_not_mem (hq : q ∉ l) : handOver l first holds q = holds q := if_neg hq

/-- What taking a list of pages does: those that are left of it hold the next pages of the data. -/
structure Takes (s s' : CopyoutState α) (l left : List PageId) (first : ℕ)
    (holds : PageId → Option ℕ) : Prop where
  nonempty : left ≠ []
  length : left.length = l.length
  paged : s'.Paged
  npages : s'.npages = s.npages
  loose : s'.Loose left
  numbers : left.map (listHolds l first s holds) = (List.range' first l.length).map some
  kept : ∀ q o off, s.At q o off → q ∉ l →
    s'.At q o off ∧ listHolds l first s holds q = holds q

theorem Hands.stealTabled {c : CopyId} {cont : Option Cont} {size : ℕ} (h : s.Hands l) (first : ℕ)
    (holds : PageId → Option ℕ)
    (hzone : s.zone c = some ⟨offset, size, .pageList (l.map some) l.length cont⟩)
    (hr : s.stealTabled c = some s') : ∃ left, Takes s s' l left first holds ∧
      s'.nextCopy = s.nextCopy ∧
      s'.zone c = some ⟨offset, size, .pageList (left.map some) left.length cont⟩ := by
  unfold CopyoutState.stealTabled at hr
  rw [hzone] at hr
  cases l with
  | nil => cases hr
  | cons m l =>
    simp only [map_cons] at hr
    have hhand : (m :: l).map (handOver (m :: l) first holds) =
        (List.range' first (m :: l).length).map some := handOver_map h.distinct
    have hout : ∀ q, q ∉ m :: l → handOver (m :: l) first holds q = holds q := fun q hq =>
      handOver_of_not_mem hq
    cases hm : s.pages m with
    | tabled object offset busy =>
      rw [hm] at hr
      obtain ⟨⟨l', s₁⟩, hsteal, hr⟩ := Option.map_eq_some_iff.mp hr
      cases hr
      have htabled : ∀ q ∈ m :: l, ∃ object offset, s.At q object offset := by
        refine h.uniform.resolve_left fun hstolen => ?_
        have := hstolen m mem_cons_self
        rw [hm] at this
        cases this
      obtain ⟨left, rfl, hdone⟩ := Paged.stealPages []
        (handOver (m :: l) first holds) h.paged ⟨nodup_nil,
          fun _ hq => absurd hq not_mem_nil, fun _ hq => absurd hq not_mem_nil⟩ htabled
        hsteal
      rw [nil_append, nil_append] at hdone
      have hholds : listHolds (m :: l) first s holds =
          stealHolds (m :: l) s (handOver (m :: l) first holds) := by
        unfold listHolds
        dsimp only
        rw [hm]
      have hlength : left.length = (m :: l).length := hdone.length
      refine ⟨left, ⟨?_, hlength, hdone.paged.congr rfl rfl rfl, hdone.npages,
        hdone.loose.congr rfl rfl, ?_, fun q o off hq hnot => ?_⟩, hdone.nextCopy, ?_⟩
      · rintro rfl
        cases hlength
      · rw [hholds, hdone.sameData, hhand]
      · rw [hholds]
        exact (hdone.kept q o off hq).imp_right fun heq => heq.trans (hout q hnot)
      · change update s₁.zone c _ c = _
        rw [update_self, hlength]
    | free =>
      exfalso
      rcases h.uniform with hstolen | htabled
      · have := hstolen m mem_cons_self
        rw [hm] at this
        cases this
      · obtain ⟨o, off, hat⟩ := htabled m mem_cons_self
        exact hat.not_free hm
    | stolen busy =>
      rw [hm] at hr
      cases hr
      have hstolen : ∀ q ∈ m :: l, (s.pages q).isStolen := by
        refine h.uniform.resolve_right fun htabled => ?_
        obtain ⟨o, off, hat⟩ := htabled m mem_cons_self
        have := hat.not_stolen
        rw [hm] at this
        cases this
      have hholds : listHolds (m :: l) first s holds = handOver (m :: l) first holds := by
        unfold listHolds
        dsimp only
        rw [hm]
      refine ⟨m :: l, ⟨cons_ne_nil _ _, rfl, h.paged, rfl, ⟨h.distinct, hstolen, h.known⟩,
        ?_, fun q o off hq hnot => ⟨hq, ?_⟩⟩, rfl, hzone⟩
      · rw [hholds, hhand]
      · rw [hholds, hout q hnot]

theorem takePages_other (pages : List (PageId × PagePlace)) (hq : q ∉ pages.map Prod.fst) :
    (s.takePages pages).pages q = s.pages q := by
  unfold CopyoutState.takePages
  induction pages generalizing s with
  | nil => rfl
  | cons p pages ih =>
    rw [map_cons, mem_cons, not_or] at hq
    rw [List.foldl_cons, ih hq.2]
    exact update_of_ne hq.1 _ _

theorem takePages_npages (pages : List (PageId × PagePlace)) :
    (s.takePages pages).npages = s.npages := by
  unfold CopyoutState.takePages
  induction pages generalizing s with
  | nil => rfl
  | cons p pages ih => rw [List.foldl_cons, ih]; rfl

end

/-! ## The turns of the loop -/

section
variable [PageSize] {object : ObjId} {offset base j turns c end' : ℕ} {left : List PageId}
  {cont : Option Cont} {t t' : Turn α} {g : Ledger α} {m : PageId}

/-- The loop has inserted `j` pages of the data, at their places from `base` on, and has come to the
pages `left` of the copy `c`. -/
structure Laid (object : ObjId) (base end' j : ℕ) (c : CopyId) (left : List PageId)
    (cont : Option Cont) (t : Turn α) (g : Ledger α) : Prop where
  copy : t.inserted.copy = some c
  result : t.inserted.result = .success
  zone : ∃ offset size, t.inserted.state.zone c = some ⟨offset, size, .pageList
    (List.replicate t.i none ++ left.map some) left.length cont⟩ ∧ lastOffset offset cont = end'
  below : c < t.inserted.state.nextCopy
  paged : t.inserted.state.Paged
  loose : t.inserted.state.Loose left
  numbers : left.map g.holds = (List.range' j left.length).map some
  handed : g.handed = j + left.length
  placed : ∀ k < j, ∃ m ∈ g.placed, t.inserted.state.At m object (add base (k * pageSize)) ∧
    g.holds m = some k

theorem place_ne {j k : ℕ} (hk : k < j) (hj : j * pageSize < modulus) :
    add base (k * pageSize) ≠ add base (j * pageSize) := by
  intro heq
  have hlt : k * pageSize < j * pageSize := Nat.mul_lt_mul_of_pos_right hk pageSize_pos
  rw [Word32.add_comm base, Word32.add_comm base] at heq
  have := add_right_cancel (hlt.trans hj) hj heq
  omega

theorem Laid.insert (h : Laid object base end' j c (m :: left) cont t g)
    (hj : j * pageSize < modulus) {s : CopyoutState α}
    (hr : t.inserted.state.vmPageReplace m object (add base (j * pageSize)) = some s) :
    s.Paged ∧ s.Loose left ∧ ∀ k < j + 1, ∃ q ∈ m :: g.placed,
      s.At q object (add base (k * pageSize)) ∧ g.holds q = some k := by
  have hd := nodup_cons.mp h.loose.distinct
  have hm := h.loose.stolen m mem_cons_self
  have hrep := h.paged.replace hm (h.loose.known m mem_cons_self) hr
  refine ⟨hrep.paged, ⟨hd.2, fun q hq => ?_, fun q hq => ?_⟩, fun k hk => ?_⟩
  · have hstolen := h.loose.stolen q (mem_cons_of_mem _ hq)
    rw [hrep.stolen q (fun heq => hd.1 (heq ▸ hq)) hstolen]
    exact hstolen
  · rw [hrep.npages]
    exact h.loose.known q (mem_cons_of_mem _ hq)
  · rcases Nat.lt_succ_iff_lt_or_eq.mp hk with hk | rfl
    · obtain ⟨q, hq, hat, hholds⟩ := h.placed k hk
      refine ⟨q, mem_cons_of_mem _ hq, hrep.kept q _ _ hat fun heq => ?_, hholds⟩
      exact place_ne hk hj (Prod.mk.inj heq).2
    · have hnumbers := h.numbers
      rw [map_cons, length_cons, List.range'_succ, map_cons] at hnumbers
      exact ⟨m, mem_cons_self, hrep.here, (List.cons.inj hnumbers).1⟩

omit [PageSize] in
theorem replicate_page (i : ℕ) (m : PageId) (left : List PageId) :
    (List.replicate i none ++ (m :: left).map some)[i]? = some (some m) := by
  rw [List.getElem?_append_right (by simp)]
  simp

omit [PageSize] in
theorem replicate_set (i : ℕ) (m : PageId) (left : List PageId) :
    (List.replicate i none ++ (m :: left).map some).set i none =
      List.replicate (i + 1) none ++ left.map some := by
  rw [List.set_append_right _ _ (by simp)]
  simp [List.replicate_succ', append_assoc]

variable {next : Turn α ⊕ Inserted α}

theorem Laid.turn_page (h : Laid object base end' j c (m :: left) cont t g)
    (hj : j * pageSize < modulus) (hmore : left ≠ [] ∨ cont = none)
    (hr : insertTurn object (add base (j * pageSize)) t = some next) :
    ∃ t', next = .inl t' ∧ Laid object base end' (j + 1) c left cont t'
      (noteTurn object (add base (j * pageSize)) t g) := by
  obtain ⟨offset, size, hzone, hend⟩ := h.zone
  have hno : ∀ k, left.length = 0 → cont ≠ some k := fun k hlen hk => by
    rcases hmore with hne | hnone
    · exact hne (length_eq_zero_iff.mp hlen)
    · rw [hnone] at hk
      cases hk
  have hnote : noteTurn object (add base (j * pageSize)) t g =
      { g with placed := m :: g.placed } := by
    unfold noteTurn
    rw [h.copy]
    dsimp only
    rw [hzone]
    dsimp only
    rw [replicate_page]
    dsimp only
    split
    · next hlen _ _ => exact absurd rfl (hno _ hlen)
    · rfl
  unfold insertTurn at hr
  rw [h.copy] at hr
  dsimp only at hr
  rw [hzone] at hr
  dsimp only at hr
  rw [replicate_page] at hr
  dsimp only at hr
  split at hr
  · cases hr
  · next s hreplace =>
    obtain ⟨hpaged, hloose, hplaced⟩ := h.insert hj hreplace
    obtain ⟨hz, hnext, -, -⟩ := vmPageReplace_spec hreplace
    split at hr
    · next hlen => exact absurd rfl (hno _ hlen)
    · cases hr
      rw [hnote]
      have hnumbers := h.numbers
      rw [map_cons, length_cons, List.range'_succ, map_cons] at hnumbers
      refine ⟨_, rfl, ⟨h.copy, h.result, ⟨offset, size, ?_, hend⟩, ?_, hpaged.congr rfl rfl rfl,
        hloose.congr rfl rfl, (List.cons.inj hnumbers).2, ?_, hplaced⟩⟩
      · change update s.zone c _ c = _
        rw [update_self, replicate_set, length_cons, Nat.add_sub_cancel]
      · exact h.below.trans_eq hnext.symm
      · have := h.handed
        rw [length_cons] at this
        change g.handed = _
        omega

section
omit [PageSize]

theorem stealHolds_congr {s s' : CopyoutState α} {l : List PageId} {holds : PageId → Option ℕ}
    (hpages : s'.pages = s.pages) (hqueue : s'.queueFree = s.queueFree) :
    stealHolds l s' holds = stealHolds l s holds := by
  induction l generalizing s s' holds with
  | nil => rfl
  | cons m l ih =>
    unfold stealHolds CopyoutState.stealPage
    rw [hpages]
    cases hm : s.pages m with
    | free => exact ih hpages hqueue
    | stolen busy => exact ih hpages hqueue
    | tabled object offset busy =>
      dsimp only
      rw [hqueue]
      cases s.queueFree with
      | nil => rfl
      | cons newM rest =>
        refine ih ?_ rfl
        change update (update s'.pages _ _) _ _ = update
          (update s.pages _ _) _ _
        rw [hpages]

theorem listHolds_congr {s s' : CopyoutState α} {l : List PageId} {first : ℕ}
    {holds : PageId → Option ℕ} (hpages : s'.pages = s.pages)
    (hqueue : s'.queueFree = s.queueFree) :
    listHolds l first s' holds = listHolds l first s holds := by
  unfold listHolds
  cases l with
  | nil => rfl
  | cons m l =>
    dsimp only
    rw [hpages, stealHolds_congr hpages hqueue]

theorem Hands.congr {s s' : CopyoutState α} {l : List PageId} (h : s.Hands l)
    (hpages : s'.pages = s.pages) (hn : s'.npages = s.npages)
    (hqueue : s'.queueFree = s.queueFree) : s'.Hands l := by
  refine ⟨h.paged.congr hpages hn hqueue, h.distinct, fun m hm => hn ▸ h.known m hm,
    h.uniform.imp (fun hs m hm => hpages ▸ hs m hm) fun ht m hm => ?_⟩
  obtain ⟨object, offset, hlt, busy, hat⟩ := ht m hm
  exact ⟨object, offset, hn ▸ hlt, busy, hpages ▸ hat⟩

theorem invokeCont_takes {s s' : CopyoutState α} {w : Unlocked α} {offset size used usedSize : ℕ}
    {l : List (Option PageId)} {pages : List (PageId × PagePlace)} {cont : Option Cont}
    {result : KernReturn} {copy : Option CopyId}
    (hused : s.zone c = some ⟨used, usedSize, .pageList l 0 none⟩) (hbelow : c < s.nextCopy)
    (hhands : (CopyoutState.takePages { s with toMapState := w.others s.toMapState } pages).Hands
      (pages.map Prod.fst)) (first : ℕ) (holds : PageId → Option ℕ)
    (hr : s.invokeCont w c (.pageList offset size pages cont) = some (result, copy, s')) :
    result = .success ∧ copy = some s.nextCopy ∧ s'.nextCopy = s.nextCopy + 1 ∧
      ∃ left, Takes (CopyoutState.takePages { s with toMapState := w.others s.toMapState } pages) s'
        (pages.map Prod.fst) left first holds ∧
        s'.zone s.nextCopy = some ⟨offset, size, .pageList (left.map some) left.length cont⟩ := by
  unfold CopyoutState.invokeCont at hr
  dsimp only at hr
  obtain ⟨s₁, hdiscard, hr⟩ := Option.bind_eq_some_iff.mp hr
  obtain ⟨s₂, hsteal, hr⟩ := Option.map_eq_some_iff.mp hr
  cases hr
  have hfst : (pages.map fun p => some p.1) = (pages.map Prod.fst).map some := by
    rw [map_map]
    rfl
  have hzone := (takePages_spec (s := { s with toMapState := w.others s.toMapState }) pages).1
  generalize CopyoutState.takePages { s with toMapState := w.others s.toMapState } pages = taken
    at *
  generalize hlist : (⟨offset, size, .pageList (pages.map fun p => some p.1) pages.length cont⟩ :
    MapCopy) = new at hdiscard
  have hstill : (({ taken with nextCopy := s.nextCopy + 1 } : CopyoutState α).setCopy s.nextCopy
      new).zone c = some ⟨used, usedSize, .pageList l 0 none⟩ := by
    change update taken.zone _ _ c = _
    rw [update_of_ne hbelow.ne, hzone]
    exact hused
  rw [vmMapCopyDiscard_usedUp hstill] at hdiscard
  have hnew : s₁.zone s.nextCopy = some new := by
    cases hdiscard
    change update (update taken.zone _ _) _ _ _ = _
    rw [update_of_ne hbelow.ne', update_self]
  have hp : s₁.pages = taken.pages := by cases hdiscard; rfl
  have hn : s₁.npages = taken.npages := by cases hdiscard; rfl
  have hq : s₁.queueFree = taken.queueFree := by cases hdiscard; rfl
  have hnext : s₁.nextCopy = s.nextCopy + 1 := by cases hdiscard; rfl
  rw [← hlist, hfst, ← length_map (f := Prod.fst)] at hnew
  obtain ⟨left, htakes, hnext', hz⟩ :=
    (hhands.congr hp hn hq).stealTabled first holds hnew hsteal
  have hat : ∀ q o off, taken.At q o off ↔ s₁.At q o off := fun q o off => by
    unfold At
    rw [hp, hn]
  refine ⟨rfl, rfl, hnext'.trans hnext, left, ⟨htakes.nonempty, htakes.length,
    htakes.paged.congr rfl rfl rfl, htakes.npages.trans hn, htakes.loose.congr rfl rfl, ?_,
    fun q o off hat' hnot => ?_⟩, hz⟩
  · rw [← listHolds_congr hp hq]
    exact htakes.numbers
  · rw [← listHolds_congr hp hq]
    exact htakes.kept q o off ((hat q o off).mp hat') hnot

end

theorem Laid.turn_cont {k : Cont} (h : Laid object base end' j c [m] (some k) t g)
    (hj : j * pageSize < modulus) (hdelivers : k.Delivers turns)
    (hr : insertTurn object (add base (j * pageSize)) t = some next)
    (hhonest : (noteTurn object (add base (j * pageSize)) t g).Honest) :
    (∃ r, next = .inr r ∧ r.result ≠ .success) ∨
    (∃ t', next = .inl t' ∧ t'.inserted.copy = none ∧ turns = 0) ∨
    ∃ t' c' left cont, next = .inl t' ∧ Laid object base end' (j + 1) c' left cont t'
      (noteTurn object (add base (j * pageSize)) t g) ∧ Covers turns left cont := by
  obtain ⟨offset, size, hzone, hend⟩ := h.zone
  unfold noteTurn at hhonest ⊢
  unfold insertTurn at hr
  rw [h.copy] at hr hhonest ⊢
  dsimp only at hr hhonest ⊢
  rw [hzone] at hr hhonest ⊢
  dsimp only at hr hhonest ⊢
  rw [replicate_page] at hr hhonest ⊢
  dsimp only at hr hhonest ⊢
  cases hreplace : t.inserted.state.vmPageReplace m object (add base (j * pageSize)) with
  | none =>
    rw [hreplace] at hr
    cases hr
  | some s =>
    rw [hreplace] at hr hhonest
    obtain ⟨hpaged, hloose, hplaced⟩ := h.insert hj hreplace
    obtain ⟨hz, hnext, -, -⟩ := vmPageReplace_spec hreplace
    cases hws : t.ws with
    | nil =>
      rw [hws] at hr
      cases hr
    | cons w ws =>
      rw [hws] at hr hhonest
      simp only [length_singleton, Nat.sub_self] at hr hhonest ⊢
      cases k with
      | fails result =>
        have hne : result ≠ .success := hdelivers
        refine .inl ?_
        unfold CopyoutState.invokeCont at hr
        cases result <;> first | exact absurd rfl hne | (cases hr; exact ⟨_, rfl, hne⟩)
      | null =>
        refine .inr (.inl ?_)
        unfold CopyoutState.invokeCont at hr
        dsimp only at hr
        cases hdiscard : CopyoutState.vmMapCopyDiscard _ (some c) with
        | none =>
          rw [hdiscard] at hr
          cases hr
        | some s₁ =>
          rw [hdiscard] at hr
          cases hr
          exact ⟨_, rfl, rfl, hdelivers⟩
      | pageList offset' size' pages cont =>
        refine .inr (.inr ?_)
        obtain ⟨s₀, hs₀⟩ : ∃ s₀, s₀ = s.setCopy c ⟨offset, size, .pageList
            ((List.replicate t.i none ++ [m].map some).set t.i none) 0 none⟩ := ⟨_, rfl⟩
        simp only at hr hhonest ⊢
        rw [← hs₀] at hr hhonest ⊢
        have hused : s₀.zone c = some ⟨offset, size, .pageList
            ((List.replicate t.i none ++ [m].map some).set t.i none) 0 none⟩ := by
          rw [hs₀]
          exact update_self _ _ _
        have hbelow : c < s₀.nextCopy := by
          rw [hs₀]
          exact h.below.trans_eq hnext.symm
        have hat₀ : ∀ q o off, s.At q o off → s₀.At q o off := fun q o off hq => by
          rw [hs₀]
          exact hq
        obtain ⟨hhands, hnew⟩ := hhonest _ mem_cons_self
        cases hinvoke : s₀.invokeCont w c (.pageList offset' size' pages cont) with
        | none =>
          rw [hinvoke] at hr
          cases hr
        | some r =>
          obtain ⟨result, copy, s'⟩ := r
          obtain ⟨rfl, rfl, hnext', left, htakes, hz'⟩ :=
            invokeCont_takes hused hbelow hhands g.handed g.holds hinvoke
          rw [hinvoke] at hr
          cases hr
          have hlength : left.length = pages.length := by
            rw [htakes.length, length_map]
          have hhanded : g.handed = j + 1 := h.handed
          refine ⟨_, s₀.nextCopy, left, cont, rfl, ⟨rfl, rfl, ⟨offset', size', hz', ?_⟩, ?_,
            htakes.paged, htakes.loose, ?_, ?_, fun k hk => ?_⟩, ?_⟩
          · rw [← hend]
            cases cont <;> rfl
          · exact hnext' ▸ Nat.lt_succ_self _
          · rw [hlength, ← length_map (f := Prod.fst), ← hhanded]
            exact htakes.numbers
          · rw [hlength, ← hhanded]
          · obtain ⟨q, hq, hat, hholds⟩ := hplaced k hk
            have hnot : q ∉ pages.map Prod.fst := fun hmem => by
              obtain ⟨p, hp, rfl⟩ := mem_map.mp hmem
              exact hnew p hp hq
            have hat' : (CopyoutState.takePages { s₀ with toMapState := w.others s₀.toMapState }
                pages).At q object (add base (k * pageSize)) := by
              obtain ⟨hlt, b, hb⟩ := hat₀ q _ _ hat
              exact ⟨(takePages_npages pages).symm ▸ hlt, b, (takePages_other pages hnot).trans hb⟩
            obtain ⟨hat', heq⟩ := htakes.kept q _ _ hat' hnot
            exact ⟨q, hq, hat', heq.trans hholds⟩
          · cases cont with
            | none => exact hlength.trans hdelivers
            | some k =>
              obtain ⟨hle, hk⟩ := hdelivers
              exact ⟨htakes.nonempty, hlength.trans_le hle, hlength ▸ hk⟩

omit [PageSize] in
theorem noteTurn_returns {r : CopyoutState α × List PageId × List (PageId × PagePlace)}
    (hr : r ∈ g.returns) : r ∈ (noteTurn object offset t g).returns := by
  unfold noteTurn
  split
  · exact hr
  · split
    · split
      · dsimp only
        split
        · exact mem_cons_of_mem _ hr
        · exact hr
      · exact hr
    · exact hr

theorem ledgerFrom_returns {r : CopyoutState α × List PageId × List (PageId × PagePlace)}
    (hr : r ∈ g.returns) : r ∈ (ledgerFrom object turns offset t g).returns := by
  induction turns generalizing offset t g with
  | zero => exact hr
  | succ turns ih =>
    unfold ledgerFrom
    dsimp only
    split
    · exact ih (noteTurn_returns hr)
    · exact noteTurn_returns hr

theorem add_page (base j : ℕ) :
    add (add base (j * pageSize)) pageSize = add base ((j + 1) * pageSize) := by
  simp only [add, Nat.mod_add_mod]
  congr 1
  ring

theorem Laid.run (h : Laid object base end' j c left cont t g) (hcovers : Covers turns left cont)
    (hlt : (j + turns) * pageSize < modulus) {r : Inserted α} {c' : CopyId}
    (hr : CopyoutState.insertPages object turns (add base (j * pageSize)) t.ws t.inserted t.i =
      some r) (hcopy : r.copy = some c') (hsuccess : r.result = .success)
    (hhonest : (ledgerFrom object turns (add base (j * pageSize)) t g).Honest) :
    ∃ t', t'.inserted = r ∧ Laid object base end' (j + turns) c' [] none t'
      (ledgerFrom object turns (add base (j * pageSize)) t g) := by
  induction turns generalizing j c left cont t g with
  | zero =>
    cases hr
    obtain rfl : c = c' := Option.some.inj (h.copy.symm.trans hcopy)
    cases cont with
    | none =>
      cases length_eq_zero_iff.mp hcovers
      exact ⟨t, rfl, h⟩
    | some k =>
      obtain ⟨hne, hle, -⟩ := hcovers
      exact absurd (length_eq_zero_iff.mp (Nat.le_zero.mp hle)) hne
  | succ turns ih =>
    have hj : j * pageSize < modulus :=
      (Nat.mul_le_mul_right pageSize (Nat.le_add_right j _)).trans_lt hlt
    rw [insertPages_succ] at hr
    unfold ledgerFrom at hhonest ⊢
    dsimp only at hhonest ⊢
    -- the rest of the run, from a state that a turn leaves
    have hrest : ∀ {c₁ left cont} {t' : Turn α},
        Laid object base end' (j + 1) c₁ left cont t'
          (noteTurn object (add base (j * pageSize)) t g) →
        Covers turns left cont → insertTurn object (add base (j * pageSize)) t = some (.inl t') →
        ∃ t'', t''.inserted = r ∧ Laid object base end' (j + (turns + 1)) c' [] none t''
          (ledgerFrom object turns (add (add base (j * pageSize)) pageSize) t'
            (noteTurn object (add base (j * pageSize)) t g)) := by
      intro c₁ left cont t' hlaid hcov hturn
      rw [hturn] at hr hhonest
      dsimp only at hr hhonest
      rw [add_page] at hr hhonest ⊢
      have hsum : j + 1 + turns = j + (turns + 1) := by omega
      obtain ⟨t'', heq, hdone⟩ := ih hlaid hcov (hsum ▸ hlt) hr hhonest
      exact ⟨t'', heq, hsum ▸ hdone⟩
    cases left with
    | nil =>
      cases cont with
      | none => cases hcovers
      | some k => exact absurd rfl hcovers.1
    | cons m left =>
      cases hturn : insertTurn object (add base (j * pageSize)) t with
      | none =>
        rw [hturn] at hr
        cases hr
      | some next =>
        by_cases hmore : left ≠ [] ∨ cont = none
        · obtain ⟨t', rfl, hlaid⟩ := h.turn_page hj hmore hturn
          dsimp only
          exact hrest hlaid (hcovers.tail hmore) hturn
        · obtain ⟨hnil, hcont⟩ := not_or.mp hmore
          obtain rfl := not_not.mp hnil
          obtain ⟨k, rfl⟩ := Option.ne_none_iff_exists'.mp hcont
          have hnote : (noteTurn object (add base (j * pageSize)) t g).Honest := by
            intro q hq
            refine hhonest q ?_
            rw [hturn]
            split
            · exact ledgerFrom_returns hq
            · exact hq
          rcases h.turn_cont hj hcovers.2.2 hturn hnote with ⟨r', rfl, hfail⟩ |
            ⟨t', rfl, hnone, rfl⟩ | ⟨t', c₁, left, cont, rfl, hlaid, hcov⟩
          · rw [hturn] at hr
            cases hr
            exact absurd hsuccess hfail
          · rw [hturn] at hr
            cases hr
            rw [hnone] at hcopy
            cases hcopy
          · dsimp only
            exact hrest hlaid hcov hturn

end

end CopyoutState

/-! ## The range of a copy -/

section
variable [PageSize]

theorem pageOffset_eq {x : ℕ} (hx : x < modulus) :
    truncPage x + pageOffset x = x ∧ pageOffset x < pageSize := by
  have hsum := truncPage_add_mod hx
  have hle := truncPage_le hx
  have hmod := Nat.mod_lt x pageSize_pos
  unfold pageOffset
  rw [sub_of_le hx hle]
  omega

theorem truncPage_mod (x : ℕ) : truncPage (x % modulus) = truncPage x := by
  have hnot : Word32.not pageMask < modulus := by
    have := pageMask_lt
    unfold Word32.not
    omega
  unfold truncPage
  refine Nat.eq_of_testBit_eq fun i => ?_
  rw [Nat.testBit_and, Nat.testBit_and, modulus, Nat.testBit_mod_two_pow]
  by_cases hi : i < 32
  · simp [hi]
  · have hhigh : (Word32.not pageMask).testBit i = false := Nat.testBit_lt_two_pow
      (hnot.trans_le (Nat.pow_le_pow_right (by norm_num) (by omega)))
    simp [hhigh]

theorem pageOffset_lt (x : ℕ) : pageOffset x < pageSize := by
  have hmod : pageOffset x = pageOffset (x % modulus) := by
    unfold pageOffset Word32.sub
    rw [truncPage_mod, Nat.mod_add_mod]
  rw [hmod]
  exact (pageOffset_eq (Nat.mod_lt x (by norm_num))).2

variable {copy : MapCopy}

theorem MapCopy.span_spec (ho : copy.offset < modulus)
    (hend : copy.offset + copy.size ≤ modulus) (hpos : 0 < copy.span) :
    pageOffset copy.offset + copy.size ≤ copy.span ∧
      copy.span < pageOffset copy.offset + copy.size + pageSize := by
  obtain ⟨hoff, -⟩ := pageOffset_eq ho
  have htrunc := truncPage_le ho
  have hmask : pageMask + 1 = pageSize := Nat.sub_add_cancel pageSize_pos
  unfold MapCopy.span at hpos ⊢
  rcases Nat.lt_or_ge (copy.offset + copy.size + pageMask) modulus with hfits | hwrap
  · have hsum : add copy.offset copy.size = copy.offset + copy.size := add_of_lt (by omega)
    have hle := le_roundPage hfits
    have hround : roundPage (copy.offset + copy.size) ≤ copy.offset + copy.size + pageMask := by
      unfold roundPage
      rw [add_of_lt hfits]
      exact truncPage_le hfits
    have hsub := sub_of_le (roundPage_lt (copy.offset + copy.size)) (htrunc.trans
      ((Nat.le_add_right _ _).trans hle))
    rw [hsum, hsub]
    omega
  · -- the data ends in the last page of the address space
    have hzero : roundPage (add copy.offset copy.size) = 0 := by
      rcases hend.lt_or_eq with hlt | heq
      · rw [add_of_lt hlt]
        exact roundPage_of_wrap hlt hwrap
      · have hadd : add copy.offset copy.size = 0 := by
          unfold Word32.add
          rw [heq, Nat.mod_self]
        have hlow := truncPage_add_mod pageMask_lt
        rw [Nat.mod_eq_of_lt (by omega)] at hlow
        rw [hadd]
        unfold roundPage
        rw [add_of_lt (by have := pageMask_lt; omega), Nat.zero_add]
        omega
    have hsub : sub 0 (truncPage copy.offset) = modulus - truncPage copy.offset := by
      rw [hzero] at hpos
      have hlt := truncPage_lt ho
      unfold Word32.sub at hpos ⊢
      rw [Nat.mod_eq_of_lt hlt, Nat.zero_add] at hpos ⊢
      refine Nat.mod_eq_of_lt ?_
      by_contra hge
      rw [show modulus - truncPage copy.offset = modulus by omega, Nat.mod_self] at hpos
      omega
    rw [hzero, hsub]
    omega

theorem truncPage_add {start b : ℕ} (hs : PageAligned start) (hlt : start + b < modulus) :
    truncPage (start + b) = start + b / pageSize * pageSize ∧
      (start + b) % pageSize = b % pageSize := by
  have hmod : (start + b) % pageSize = b % pageSize := by
    obtain ⟨q, rfl⟩ := hs
    rw [Nat.add_comm, Nat.add_mul_mod_self_left]
  have hsum := truncPage_add_mod hlt
  have hdiv := Nat.div_add_mod b pageSize
  rw [hmod] at hsum
  rw [Nat.mul_comm] at hdiv
  omega

theorem MapCopy.span_aligned (ho : copy.offset < modulus) : PageAligned copy.span := by
  have htrunc := truncPage_aligned ho
  unfold MapCopy.span Word32.sub
  refine (Nat.dvd_mod_iff pageSize_dvd_modulus).mpr (Nat.dvd_add (roundPage_aligned _) ?_)
  exact Nat.dvd_sub pageSize_dvd_modulus ((Nat.dvd_mod_iff pageSize_dvd_modulus).mpr htrunc)

end

/-! ## Placing the data -/

namespace CopyoutState
variable {α : Type*} [PageSize] {s s' : CopyoutState α} {run : CollapseRun} {ws : List (Unlocked α)}
  {c : CopyId} {copy : MapCopy} {address : ℕ} {p : Prepared α}

/-- A list of pages that may be copied out: its pages and those that its continuations return are as
many as its size takes, and the data ends with the address space at the latest. -/
structure Callable (s : CopyoutState α) (c : CopyId) (copy : MapCopy) : Prop where
  zone : s.zone c = some copy
  below : c < s.nextCopy
  wellFormed : copy.WellFormed
  map : s.map.WellFormed
  hands : s.Hands copy.pages
  offset : copy.offset < modulus
  size : 0 < copy.size ∧ copy.offset + copy.size ≤ modulus

variable {start x : ℕ} {t : MapState α} {c' : CopyId} {e : VmMapEntry} {kr : KernReturn}
  {last : MapCopy} {pre post : List VmMapEntry} {r : Inserted α}

omit [PageSize] in
theorem clearTransition_places {t' : MapState α} {contInvoked : Bool} {last stop : ℕ}
    {object : ObjId} {offset : ℕ} (hr : t.clearTransition contInvoked last start stop = some t')
    (h : ∃ e ∈ t.map.entries, e.Places x object offset) :
    ∃ e ∈ t'.map.entries, e.Places x object offset := by
  obtain ⟨e, he, hx⟩ := h
  unfold MapState.clearTransition at hr
  split_ifs at hr
  · split at hr
    · next i m hfound =>
      cases hr
      have hm : m.entries = t.map.entries := by
        obtain ⟨hint, heq⟩ := t.map.lookupEntry_map start
        rw [hfound] at heq
        exact (congrArg VmMap.entries heq :)
      rw [← hm, ← List.takeWhile_append_dropWhile (p := fun e => decide (e.id ≠ i))
        (l := m.entries)] at he
      rcases mem_append.mp he with he | he
      · exact ⟨e, mem_append_left _ (mem_append_left _ he), hx⟩
      · rw [← List.takeWhile_append_dropWhile (p := fun e => decide (e.vmeStart < stop))
          (l := m.entries.dropWhile _)] at he
        rcases mem_append.mp he with he | he
        · exact ⟨_, mem_append_left _ (mem_append_right _ (mem_map_of_mem he)),
            hx.inside, hx.memory, hx.object, hx.offset⟩
        · exact ⟨e, mem_append_right _ he, hx⟩
    · cases hr
  · cases hr
    refine ⟨_, mem_map_of_mem he, ?_⟩
    split_ifs
    · exact ⟨hx.inside, hx.memory, hx.object, hx.offset⟩
    · exact hx

/-- The pages of the copy, as the loop begins with them. -/
theorem Callable.laid (h : s.Callable c copy) (hws : ∀ w ∈ ws, w.Heeds)
    (hp : s.prepare run ws c copy = some p) :
    ∃ pre post e left cont g, Covers (copy.span / pageSize) left cont ∧ 0 < copy.span ∧
      p.before.WellFormed ∧ FreeRange p.before pre post p.start copy.span ∧
      Marks p.before p.state.map p.start copy.span p.entry p.object p.offset e ∧
      (∀ w ∈ p.ws, w.Heeds) ∧ Laid p.object p.offset copy.lastOffset 0 c left cont
        ⟨p.ws, ⟨.success, some c, false, p.state⟩, 0⟩ g ∧
      s.ledger run ws c copy = ledgerFrom p.object (copy.span / pageSize) p.offset
        ⟨p.ws, ⟨.success, some c, false, p.state⟩, 0⟩ g := by
  obtain ⟨s₁, hsteal, -⟩ := Option.bind_eq_some_iff.mp hp
  have hwf := h.wellFormed
  obtain ⟨pages, npages, cont, hbody⟩ : ∃ l npages cont, copy.body = .pageList l npages cont := by
    unfold CopyoutState.stealTabled at hsteal
    rw [h.zone] at hsteal
    obtain ⟨offset, size, body⟩ := copy
    cases body with
    | entryList entries => cases hsteal
    | object object => cases hsteal
    | pageList l npages cont => exact ⟨l, npages, cont, rfl⟩
  unfold MapCopy.WellFormed at hwf
  rw [hbody] at hwf
  obtain ⟨pages, rfl, rfl, hcovers⟩ := hwf
  have hpages : copy.pages = pages := by
    unfold MapCopy.pages
    rw [hbody]
    dsimp only
    rw [List.take_of_length_le (by simp)]
    delta List.reduceOption
    rw [List.filterMap_map]
    exact List.filterMap_some
  have hlast : copy.lastOffset = lastOffset copy.offset cont := by
    unfold MapCopy.lastOffset
    rw [hbody]
  have hzone : s.zone c = some ⟨copy.offset, copy.size, .pageList (pages.map some) pages.length
      cont⟩ := by
    rw [h.zone, ← hbody]
  have hhands := h.hands
  rw [hpages] at hhands
  obtain ⟨left, htakes, hnext, hz⟩ := hhands.stealTabled 0 (fun _ => none) hzone hsteal
  have hcov : Covers (copy.span / pageSize) left cont := by
    have hlength := htakes.length
    cases cont with
    | none => exact hlength.trans hcovers
    | some k => exact ⟨htakes.nonempty, hlength.trans_le hcovers.1, hlength ▸ hcovers.2⟩
  have hpos : 0 < copy.span := by
    rcases Nat.eq_zero_or_pos copy.span with hzero | hpos
    · rw [hzero, Nat.zero_div] at hcov
      have hne := htakes.nonempty
      cases cont with
      | none => exact absurd (length_eq_zero_iff.mp hcov) hne
      | some k => exact absurd (length_eq_zero_iff.mp (Nat.le_zero.mp hcov.2.1)) hne
    · exact hpos
  obtain ⟨pre, post, e, s₁', hwf', hrange, hmarks, hws', hsteal', hsame, hqueue, hn⟩ :=
    prepare_marks h.map hpos (MapCopy.span_aligned h.offset) hws hp
  cases hsteal.symm.trans hsteal'
  refine ⟨pre, post, e, left, cont, { holds := listHolds copy.pages 0 s fun _ => none
                                      handed := copy.pages.length
                                      placed := []
                                      returns := [] },
    hcov, hpos, hwf', hrange, hmarks, hws', ⟨rfl, rfl, ⟨copy.offset, copy.size, ?_, hlast.symm⟩, ?_,
      htakes.paged.congr hsame.pages hn hqueue, htakes.loose.congr hsame.pages hn, ?_, ?_,
      fun k hk => absurd hk (Nat.not_lt_zero k)⟩, ?_⟩
  · rw [hsame.zone]
    exact hz
  · change c < p.state.nextCopy
    rw [hsame.nextCopy, hnext]
    exact h.below
  · rw [hpages, htakes.length]
    exact htakes.numbers
  · rw [hpages, htakes.length, Nat.zero_add]
  · unfold ledger
    rw [hp]

theorem Returned.places (hr : Returned s s' run ws c copy kr address p r c' last t)
    (hwf : p.before.WellFormed) (hrange : FreeRange p.before pre post p.start copy.span)
    (hmarks : Marks p.before p.state.map p.start copy.span p.entry p.object p.offset e)
    (hws : ∀ w ∈ p.ws, w.Heeds) (hx : p.start ≤ x ∧ x < p.start + copy.span) :
    ∃ e ∈ t.map.entries, e.Places x p.object (add p.offset (x - p.start)) := by
  have htransit : p.state.map.Transit x p.object (add p.offset (x - p.start)) := by
    refine ⟨e, hmarks.mem, hmarks.inTransition, ⟨?_, ?_⟩, hmarks.places.memory,
      hmarks.places.object, ?_⟩
    · exact hmarks.places.inside.1.trans hx.1
    · rw [hmarks.stop]
      exact hx.2
    · have hin := hrange.inside
      have hb := hwf.bounds
      have hle := hmarks.places.inside.1
      rw [← hmarks.places.offset, sub_of_le (by omega) (by omega), sub_of_le (by omega) hle,
        Word32.add_assoc, add_of_lt (a := p.start - e.vmeStart) (by omega)]
      congr 1
      omega
  have hkeep : r.state.map.WellFormed ∧
      r.state.map.Transit x p.object (add p.offset (x - p.start)) := by
    refine insertPages_keeps
      (P := fun m => m.WellFormed ∧ m.Transit x p.object (add p.offset (x - p.start)))
      (t := ⟨p.ws, ⟨.success, some c, false, p.state⟩, 0⟩) (fun m hm => ⟨hm.1.lock, hm.2⟩)
      (fun w hw s hs => ?_) hr.insertPages ⟨hmarks.takes.wellFormed, htransit⟩
    obtain ⟨hwf', hkept⟩ := hws w hw s hs.1
    exact ⟨hwf', hkept _ _ _ hs.2⟩
  obtain ⟨-, a, ha, -, hplaces⟩ := hkeep
  exact clearTransition_places hr.clear ⟨a, ha, hplaces⟩

/-- When all pages are laid out, the addresses of the range show the bytes of the pages in order. -/
theorem Returned.byteAt (hr : Returned s s' run ws c copy kr address p r c' last t)
    (hwf : p.before.WellFormed)
    (hrange : FreeRange p.before pre post p.start copy.span)
    (hmarks : Marks p.before p.state.map p.start copy.span p.entry p.object p.offset e)
    (hws : ∀ w ∈ p.ws, w.Heeds) {holds : PageId → Option ℕ}
    (hplaced : ∀ k < copy.span / pageSize, ∃ m, r.state.At m p.object
      (add p.offset (k * pageSize)) ∧ holds m = some k)
    {b : ℕ} (hb : b < copy.span) :
    ByteAt { r.state with toMapState := t } holds (p.start + b) b := by
  have hin := hrange.inside
  have hmax := hwf.bounds
  obtain ⟨htrunc, hmod⟩ := truncPage_add (b := b) hrange.aligned.1 (by omega)
  have hdiv := Nat.div_add_mod b pageSize
  rw [Nat.mul_comm] at hdiv
  obtain ⟨m, hat, hholds⟩ := hplaced _ (Nat.div_lt_div_of_lt_of_dvd hrange.aligned.2 hb)
  obtain ⟨a, ha, hplaces⟩ := hr.places hwf hrange hmarks hws
    (x := p.start + b / pageSize * pageSize) (by omega)
  rw [Nat.add_sub_cancel_left] at hplaces
  refine ⟨a, ha, _, _, m, b / pageSize, htrunc ▸ hplaces, hat, hholds, ?_⟩
  omega

theorem Returned.newlyMaps (hr : Returned s s' run ws c copy .success address p r c' last t)
    (hwf : p.before.WellFormed) (hrange : FreeRange p.before pre post p.start copy.span)
    (hmarks : Marks p.before p.state.map p.start copy.span p.entry p.object p.offset e)
    (hws : ∀ w ∈ p.ws, w.Heeds) :
    NewlyMaps s s' run ws c copy x ↔ p.start ≤ x ∧ x < p.start + copy.span := by
  constructor
  · rintro ⟨p', hp', hnot, hmaps, -⟩
    cases hr.prepare.symm.trans hp'
    exact ((hmarks.takes.maps x).mp hmaps).resolve_left hnot
  · intro hx
    obtain ⟨a, ha, hplaces⟩ := hr.places hwf hrange hmarks hws hx
    obtain ⟨-, rfl⟩ := hr.success rfl
    exact ⟨p, hr.prepare, hrange.not_maps x hx.1 hx.2, (hmarks.takes.maps x).mpr (.inr hx),
      a, ha, hplaces.inside⟩

theorem pages_of_range (hs : PageAligned start) (ho : copy.offset < modulus)
    (hsize : 0 < copy.size ∧ copy.offset + copy.size ≤ modulus) (hpos : 0 < copy.span)
    (hlt : start + copy.span < modulus) (hx : x < modulus) : start ≤ x ∧ x < start + copy.span ↔
      ∃ k < copy.size, truncPage x = truncPage (start + (pageOffset copy.offset + k)) := by
  obtain ⟨hspan, hspan'⟩ := MapCopy.span_spec ho hsize.2 hpos
  obtain ⟨-, hδ⟩ := pageOffset_eq ho
  have hal := MapCopy.span_aligned ho
  have hps := pageSize_pos
  constructor
  · rintro ⟨hlo, hhi⟩
    obtain ⟨b, rfl⟩ := Nat.exists_eq_add_of_le hlo
    obtain ⟨htrunc, -⟩ := truncPage_add (b := b) hs hx
    have hdiv := Nat.div_add_mod b pageSize
    rw [Nat.mul_comm] at hdiv
    -- the first byte of the data in the page
    have hpage : b / pageSize * pageSize + pageSize ≤ copy.span :=
      PageAligned.le_of_lt (Dvd.intro_left _ rfl) hal (by omega)
    refine ⟨b / pageSize * pageSize - pageOffset copy.offset, by omega, ?_⟩
    obtain ⟨htrunc', -⟩ := truncPage_add hs (b := pageOffset copy.offset +
      (b / pageSize * pageSize - pageOffset copy.offset)) (by omega)
    rw [htrunc, htrunc']
    congr 2
    rcases Nat.lt_or_ge (b / pageSize * pageSize) (pageOffset copy.offset) with hlow | hhigh
    · have hzero : b / pageSize = 0 := by
        by_contra hne
        have := Nat.le_mul_of_pos_left pageSize (Nat.pos_of_ne_zero hne)
        omega
      rw [hzero, Nat.zero_mul, Nat.zero_sub, Nat.add_zero, Nat.div_eq_of_lt hδ]
    · rw [Nat.add_sub_cancel' hhigh, Nat.mul_div_cancel _ hps]
  · rintro ⟨k, hk, htrunc⟩
    obtain ⟨htrunc', -⟩ := truncPage_add hs (b := pageOffset copy.offset + k) (by omega)
    have hdiv := Nat.div_add_mod (pageOffset copy.offset + k) pageSize
    rw [Nat.mul_comm] at hdiv
    have hpage : (pageOffset copy.offset + k) / pageSize * pageSize + pageSize ≤ copy.span :=
      PageAligned.le_of_lt (Dvd.intro_left _ rfl) hal (by omega)
    have hle := truncPage_le hx
    have hgt := lt_truncPage_add hx
    omega

/-- A successful `vm_map_copyout_page_list` places the data where it says if and only if the last of
the copies that it comes to begins at the same offset in its page as the one that it was given. -/
theorem vmMapCopyoutPageList_places (h : s.Callable c copy) (hws : ∀ w ∈ ws, w.Heeds)
    (hhonest : (s.ledger run ws c copy).Honest)
    (hr : s.vmMapCopyoutPageList run ws c copy = some (.success, address, s')) :
    PlacesData s s' run ws c copy address ↔
      pageOffset copy.lastOffset = pageOffset copy.offset := by
  rcases vmMapCopyoutPageList_returned hr with ⟨heq, -⟩ | ⟨p, r, c', last, t, hret⟩
  · cases heq
  · obtain ⟨pre, post, e, left, cont, g, hcov, hpos, hwf, hrange, hmarks, hws', hlaid, hledger⟩ :=
      h.laid hws hret.prepare
    have hal := MapCopy.span_aligned h.offset
    have hb := hwf.bounds
    have hin := hrange.inside
    obtain ⟨hspan, hspan'⟩ := MapCopy.span_spec h.offset h.size.2 hpos
    obtain ⟨-, hδ⟩ := pageOffset_eq h.offset
    have hn : copy.span / pageSize * pageSize = copy.span := Nat.div_mul_cancel hal
    have hbase : add p.offset (0 * pageSize) = p.offset := by
      rw [← hmarks.places.offset, Nat.zero_mul, add_of_lt (add_lt _ _)]
      rfl
    obtain ⟨t', heq, hdone⟩ := hlaid.run hcov (by rw [Nat.zero_add, hn]; omega)
      (by rw [hbase]; exact hret.insertPages) hret.left hret.result.symm
      (by rw [hbase, ← hledger]; exact hhonest)
    rw [hbase, ← hledger, Nat.zero_add] at hdone
    obtain ⟨haddress, rfl⟩ := hret.success rfl
    -- the copy that the address is computed from
    have hlast : last.offset = copy.lastOffset := by
      obtain ⟨offset, size, hzone, hend⟩ := hdone.zone
      rw [heq, hret.zone] at hzone
      cases hzone
      exact hend
    have hlastδ : pageOffset copy.lastOffset < pageSize := pageOffset_lt _
    have hpage : pageSize ≤ copy.span := Nat.le_of_dvd hpos hal
    rw [hlast] at haddress
    change address = add p.start (pageOffset copy.lastOffset) at haddress
    rw [add_of_lt (by omega)] at haddress
    have hplaced : ∀ k < copy.span / pageSize, ∃ m, r.state.At m p.object
        (add p.offset (k * pageSize)) ∧ (s.ledger run ws c copy).holds m = some k := by
      intro k hk
      obtain ⟨m, -, hat, hholds⟩ := hdone.placed k hk
      exact ⟨m, heq ▸ hat, hholds⟩
    constructor
    · intro hdata
      -- the first byte alone tells the offset within the page
      obtain ⟨a, -, object, offset, m, i, -, -, -, hbyte⟩ := hdata.bytes 0 h.size.1
      obtain ⟨-, hmod⟩ := truncPage_add (b := pageOffset copy.lastOffset) hrange.aligned.1
        (by omega)
      rw [haddress, add_of_lt (by omega), Nat.add_zero, Nat.add_zero, hmod,
        Nat.mod_eq_of_lt hlastδ] at hbyte
      rcases Nat.eq_zero_or_pos i with rfl | hi
      · omega
      · have := Nat.le_mul_of_pos_left pageSize hi
        omega
    · intro hsame
      rw [hsame] at haddress
      refine ⟨fun k hk => ?_, fun x hx => ?_⟩
      · rw [haddress, add_of_lt (by omega), Nat.add_assoc]
        exact hret.byteAt hwf hrange hmarks hws' hplaced (by omega)
      · have hpages := pages_of_range hrange.aligned.1 h.offset h.size hpos (by omega) hx
        have haddr : ∀ k < copy.size,
            add address k = p.start + (pageOffset copy.offset + k) := fun k hk => by
          rw [haddress, add_of_lt (by omega), Nat.add_assoc]
        have hnew : NewlyMaps s _ run ws c copy x ↔ p.start ≤ x ∧ x < p.start + copy.span :=
          hret.newlyMaps hwf hrange hmarks hws'
        rw [hnew, hpages]
        refine exists_congr fun k => and_congr_right fun hk => ?_
        rw [haddr k hk]

end CopyoutState

namespace CopyoutState

/-- The state with two pages, and a copy of which page 0 is the list. -/
def listState (copy : MapCopy) : CopyoutState ℕ :=
  { twoPagesState 65536 with zone := fun c => if c = 0 then some copy else none }

theorem listState_callable {copy : MapCopy} : letI := pages4096
    copy.pages = [0] → copy.WellFormed → 0 < copy.size → copy.offset + copy.size ≤ modulus →
    (listState copy).Callable 0 copy := by
  let _ := pages4096
  intro hpages hwf hpos hend
  have hno : ∀ m object offset, ¬ (listState copy).At m object offset := by
    rintro m object offset ⟨-, busy, hm⟩
    change (if m = 0 then PagePlace.stolen true else .free) = _ at hm
    split_ifs at hm
  refine ⟨rfl, Nat.one_pos, hwf, VmMap.create_wellFormed (by norm_num) (by norm_num) (by decide),
    ?_, by omega, hpos, hend⟩
  rw [hpages]
  refine ⟨⟨fun m m' o off hm => absurd hm (hno m o off),
    nodup_singleton 1, fun m hm => ?_⟩, nodup_singleton 0, fun m hm => ?_,
    .inl fun m hm => ?_⟩
  · rw [mem_singleton.mp hm]
    exact ⟨rfl, Nat.one_lt_two⟩
  · rw [mem_singleton.mp hm]
    exact Nat.two_pos
  · rw [mem_singleton.mp hm]
    rfl

/-- Data that begins at byte 100 of its first page, the second page of which a continuation
returns. -/
def misaligned : MapCopy :=
  ⟨100, 5000, .pageList [some 0] 1 (some (.pageList 4096 1004 [(1, .stolen true)] none))⟩

theorem honest_of_returns {g : Ledger ℕ}
    (h : g.returns.map (fun r => (r.1.npages, r.1.queueFree, r.2)) =
      [(2, [1], [0], [(1, .stolen true)])])
    (hpages : g.returns.map (fun r => (r.1.pages 0, r.1.pages 1)) = [(.tabled 0 0 true, .free)]) :
    g.Honest := by
  rintro ⟨s, placed, pages⟩ hr
  have hmem := mem_map_of_mem (f := fun r : CopyoutState ℕ × List PageId ×
    List (PageId × PagePlace) => (r.1.npages, r.1.queueFree, r.2)) hr
  have hmem' := mem_map_of_mem (f := fun r : CopyoutState ℕ × List PageId ×
    List (PageId × PagePlace) => (r.1.pages 0, r.1.pages 1)) hr
  rw [h, mem_singleton] at hmem
  rw [hpages, mem_singleton] at hmem'
  simp only [Prod.mk.injEq] at hmem hmem'
  obtain ⟨hn, hqueue, rfl, rfl⟩ := hmem
  obtain ⟨h0, -⟩ := hmem'
  have hp0 : (s.takePages [(1, .stolen true)]).pages 0 = .tabled 0 0 true :=
    (takePages_other _ (by decide)).trans h0
  have hp1 : (s.takePages [(1, .stolen true)]).pages 1 = .stolen true := by
    change update s.pages 1 _ 1 = _
    exact update_self _ _ _
  have hn' : (s.takePages [(1, .stolen true)]).npages = 2 := (takePages_npages _).trans hn
  have hq' : (s.takePages [(1, .stolen true)]).queueFree = [] := by
    change s.queueFree.erase 1 = []
    rw [hqueue]
    decide
  have hat : ∀ m object offset, (s.takePages [(1, .stolen true)]).At m object offset → m = 0 := by
    rintro m object offset ⟨hlt, busy, hm⟩
    rw [hn'] at hlt
    interval_cases m
    · rfl
    · rw [hp1] at hm
      cases hm
  refine ⟨⟨⟨fun m m' o off hm hm' => (hat m o off hm).trans (hat m' o off hm').symm, ?_,
    fun m hm => ?_⟩, nodup_singleton 1, fun m hm => ?_, .inl fun m hm => ?_⟩, fun p hp => ?_⟩
  · rw [hq']
    exact nodup_nil
  · rw [hq'] at hm
    cases hm
  · rw [mem_singleton.mp hm, hn']
    exact Nat.one_lt_two
  · rw [mem_singleton.mp hm, hp1]
    rfl
  · rw [mem_singleton.mp hp]
    change 1 ∉ [0]
    decide

theorem undisturbed_heeds : letI := pages4096
    ∀ w ∈ [undisturbed], w.Heeds := by
  let _ := pages4096
  intro w hw s hs
  rw [mem_singleton.mp hw]
  exact ⟨hs, fun _ _ _ h => h⟩

/-- A continuation that takes the place of a copy does no harm when both begin with a page. -/
theorem vmMapCopyoutPageList_places_twoPages : letI := pages4096
    ∃ s', (listState twoPages).vmMapCopyoutPageList noCollapse [undisturbed] 0 twoPages =
      some (.success, 0, s') ∧
      PlacesData (listState twoPages) s' noCollapse [undisturbed] 0 twoPages 0 := by
  let _ := pages4096
  have hrun : ((listState twoPages).vmMapCopyoutPageList noCollapse [undisturbed] 0 twoPages).map
      (fun r => (r.1, r.2.1)) = some (.success, 0) := by decide +kernel
  obtain ⟨⟨kr, address, s'⟩, hs', heq⟩ := Option.map_eq_some_iff.mp hrun
  cases heq
  have hwf : twoPages.WellFormed := (twoPagesState_ready 65536).wellFormed
  have hhonest : ((listState twoPages).ledger noCollapse [undisturbed] 0 twoPages).Honest :=
    honest_of_returns (by decide +kernel) (by decide +kernel)
  exact ⟨s', hs', (vmMapCopyoutPageList_places (listState_callable rfl hwf (by decide) (by decide))
    undisturbed_heeds hhonest hs').mpr (by decide)⟩

/-- With a continuation the address returned is that of the first page, where the data does not
begin. -/
theorem vmMapCopyoutPageList_misplaces : letI := pages4096
    ∃ s', (listState misaligned).Callable 0 misaligned ∧ (∀ w ∈ [undisturbed], w.Heeds) ∧
      ((listState misaligned).ledger noCollapse [undisturbed] 0 misaligned).Honest ∧
      (listState misaligned).vmMapCopyoutPageList noCollapse [undisturbed] 0 misaligned =
        some (.success, 0, s') ∧
      ¬ PlacesData (listState misaligned) s' noCollapse [undisturbed] 0 misaligned 0 := by
  let _ := pages4096
  have hrun : ((listState misaligned).vmMapCopyoutPageList noCollapse [undisturbed] 0
      misaligned).map (fun r => (r.1, r.2.1)) = some (.success, 0) := by decide +kernel
  obtain ⟨⟨kr, address, s'⟩, hs', heq⟩ := Option.map_eq_some_iff.mp hrun
  cases heq
  have hwf : misaligned.WellFormed := by
    refine ⟨[0], rfl, rfl, ?_⟩
    have hspan : sub (roundPage (add misaligned.offset misaligned.size))
      (truncPage misaligned.offset) / pageSize = 2 := by decide
    rw [hspan]
    refine ⟨by decide, ?_⟩
    rw [Cont.Delivers]
    decide
  refine ⟨s', listState_callable rfl hwf (by decide) (by decide), undisturbed_heeds,
    honest_of_returns (by decide +kernel) (by decide +kernel), hs', fun hdata => ?_⟩
  obtain ⟨a, -, object, offset, m, i, -, -, -, hbyte⟩ := hdata.bytes 0 (by decide)
  have haddress : (add 0 0) % pageSize = 0 := by decide
  have hoffset : pageOffset misaligned.offset + 0 = 100 := by decide
  have hpage : pageSize = 4096 := by decide
  rw [haddress, hoffset, hpage] at hbyte
  omega

end CopyoutState

end MachKernel.Vm
