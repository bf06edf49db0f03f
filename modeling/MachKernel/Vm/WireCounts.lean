import MachKernel.Vm.Wire

/-! The wired counts of every address through calls that wire and unwire. -/

namespace MachKernel.Vm
open List MapState VmMapEntry
open Word32 Linked

/-- How an address is wired, and what may be done to it. -/
structure Wiring where
  wiredCount : ℕ
  userWiredCount : ℕ
  protection : VmProt
  deriving DecidableEq

open Wiring

def VmMapEntry.wiring (e : VmMapEntry) : Wiring := ⟨e.wiredCount, e.userWiredCount, e.protection⟩

/-- A list of entries as a function from addresses to wirings. -/
def wirings (l : List VmMapEntry) (x : ℕ) : Option Wiring :=
  (l.find? fun e => e.Covers x).map wiring

/-- One wiring more. -/
def Wiring.wire (userWire : Bool) (v : Wiring) : Wiring :=
  if userWire then
    { v with
      userWiredCount := ushortSucc v.userWiredCount
      wiredCount := if v.userWiredCount = 0 then ushortSucc v.wiredCount else v.wiredCount }
  else { v with wiredCount := ushortSucc v.wiredCount }

/-- One wiring less. -/
def Wiring.unwire (userWire : Bool) (v : Wiring) : Wiring :=
  if userWire then
    { v with
      userWiredCount := ushortPred v.userWiredCount
      wiredCount :=
        if ushortPred v.userWiredCount = 0 then ushortPred v.wiredCount else v.wiredCount }
  else { v with wiredCount := ushortPred v.wiredCount }

/-! ## Counts of 16 bits -/

theorem ushortSucc_lt (x : ℕ) : ushortSucc x < 2 ^ 16 := by
  unfold ushortSucc
  omega

theorem ushortPred_lt (x : ℕ) : ushortPred x < 2 ^ 16 := by
  unfold ushortPred
  omega

variable {x lo hi : ℕ} {l : List VmMapEntry} {e : VmMapEntry}

theorem ushortSucc_of_lt (h : x + 1 < 2 ^ 16) : ushortSucc x = x + 1 := by
  unfold ushortSucc
  omega

theorem ushortPred_of_pos (h : x < 2 ^ 16) (hpos : x ≠ 0) : ushortPred x = x - 1 := by
  unfold ushortPred
  omega

theorem ushortPred_succ (h : x < 2 ^ 16) : ushortPred (ushortSucc x) = x := by
  unfold ushortPred ushortSucc
  omega

/-! ## Lists of entries -/

section
variable {l l' : List VmMapEntry} {e : VmMapEntry} {x : ℕ}

@[simp] theorem wirings_nil (x : ℕ) : wirings [] x = none := rfl

theorem wirings_append (l l' : List VmMapEntry) (x : ℕ) :
    wirings (l ++ l') x = (wirings l x).or (wirings l' x) := by
  unfold wirings
  rw [find?_append, Option.map_or]

theorem wirings_cons (e : VmMapEntry) (l : List VmMapEntry) (x : ℕ) :
    wirings (e :: l) x = if e.Covers x then some e.wiring else wirings l x := by
  unfold wirings
  rw [List.find?_cons]
  by_cases h : e.Covers x
  · simp [h]
  · simp [h]

theorem wirings_none (h : ∀ e ∈ l, ¬e.Covers x) : wirings l x = none := by
  unfold wirings
  rw [find?_eq_none.mpr (by simpa using h), Option.map_none]

theorem wirings_of_le (h : ∀ e ∈ l, e.vmeEnd ≤ x) : wirings l x = none :=
  wirings_none fun e he hc => absurd hc.2 (not_lt.mpr (h e he))

theorem wirings_of_lt (h : ∀ e ∈ l, x < e.vmeStart) : wirings l x = none :=
  wirings_none fun e he hc => absurd hc.1 (not_le.mpr (h e he))

theorem wirings_split {stop : ℕ} (hlo : e.vmeStart ≤ stop) (hhi : stop ≤ e.vmeEnd) (i j x : ℕ) :
    wirings [e.low i stop, e.high j stop] x = wirings [e] x := by
  have hlow : (e.low i stop).Covers x ↔ e.vmeStart ≤ x ∧ x < stop := Iff.rfl
  have hhigh : (e.high j stop).Covers x ↔ stop ≤ x ∧ x < e.vmeEnd := Iff.rfl
  have hwhole : e.Covers x ↔ e.vmeStart ≤ x ∧ x < e.vmeEnd := Iff.rfl
  rw [wirings_cons, wirings_cons, wirings_cons, wirings_nil]
  by_cases h : e.Covers x
  · rw [if_pos h]
    by_cases hlt : x < stop
    · rw [if_pos (hlow.mpr ⟨h.1, hlt⟩)]
      rfl
    · rw [if_neg fun hc => hlt (hlow.mp hc).2, if_pos (hhigh.mpr ⟨not_lt.mp hlt, h.2⟩)]
      rfl
  · rw [if_neg h, if_neg fun hc => h (hwhole.mpr ?_), if_neg fun hc => h (hwhole.mpr ?_)]
    · have := hhigh.mp hc
      omega
    · have := hlow.mp hc
      omega

theorem wirings_single {e e' : VmMapEntry} (hs : e'.vmeStart = e.vmeStart)
    (he : e'.vmeEnd = e.vmeEnd) (hw : e'.wiring = e.wiring) (x : ℕ) :
    wirings [e'] x = wirings [e] x := by
  have hiff : e'.Covers x ↔ e.Covers x := by
    unfold VmMapEntry.Covers
    rw [hs, he]
  rw [wirings_cons, wirings_cons, hw, wirings_nil]
  by_cases h : e.Covers x
  · rw [if_pos h, if_pos (hiff.mpr h)]
  · rw [if_neg h, if_neg fun hc => h (hiff.mp hc)]

theorem wirings_map {f : VmMapEntry → VmMapEntry} {g : Wiring → Wiring}
    (hcovers : ∀ e, (f e).vmeStart = e.vmeStart ∧ (f e).vmeEnd = e.vmeEnd)
    (hwiring : ∀ e, (f e).wiring = g e.wiring) (l : List VmMapEntry) (x : ℕ) :
    wirings (l.map f) x = (wirings l x).map g := by
  induction l with
  | nil => rfl
  | cons e l ih =>
    have hiff : (f e).Covers x ↔ e.Covers x := by
      unfold VmMapEntry.Covers
      rw [(hcovers e).1, (hcovers e).2]
    rw [map_cons, wirings_cons, wirings_cons, ih]
    by_cases h : e.Covers x
    · rw [if_pos h, if_pos (hiff.mpr h), hwiring, Option.map_some]
    · rw [if_neg h, if_neg fun hc => h (hiff.mp hc)]

end

/-- Entries that follow each other from one address to another, some of them perhaps empty. -/
def Chain : ℕ → ℕ → List VmMapEntry → Prop
  | lo, hi, [] => lo = hi
  | lo, hi, e :: l => e.vmeStart = lo ∧ e.vmeStart ≤ e.vmeEnd ∧ Chain e.vmeEnd hi l

theorem Chain.le (h : Chain lo hi l) : lo ≤ hi := by
  induction l generalizing lo with
  | nil => exact le_of_eq h
  | cons e l ih =>
    obtain ⟨hs, hle, hrest⟩ := h
    have := ih hrest
    omega

theorem Chain.concat {mid : ℕ} (h : Chain lo mid l)
    (hs : e.vmeStart = mid) (hle : e.vmeStart ≤ e.vmeEnd) : Chain lo e.vmeEnd (l ++ [e]) := by
  induction l generalizing lo with
  | nil =>
    have heq : lo = mid := h
    exact ⟨hs.trans heq.symm, hle, rfl⟩
  | cons a l ih => exact ⟨h.1, h.2.1, ih h.2.2⟩

theorem Chain.bounds (h : Chain lo hi l) (he : e ∈ l) : lo ≤ e.vmeStart ∧ e.vmeEnd ≤ hi := by
  induction l generalizing lo with
  | nil => cases he
  | cons a l ih =>
    obtain ⟨hs, hle, hrest⟩ := h
    have hend := hrest.le
    rcases mem_cons.mp he with rfl | he
    · exact ⟨hs.ge, hend⟩
    · have := ih hrest he
      omega

theorem Chain.covers (h : Chain lo hi l) (hlo : lo ≤ x)
    (hhi : x < hi) : ∃ e ∈ l, e.Covers x ∧ wirings l x = some e.wiring := by
  induction l generalizing lo with
  | nil =>
    have heq : lo = hi := h
    omega
  | cons a l ih =>
    obtain ⟨hs, hle, hrest⟩ := h
    by_cases hlt : x < a.vmeEnd
    · have hc : a.Covers x := ⟨by omega, hlt⟩
      exact ⟨a, mem_cons_self, hc, by rw [wirings_cons, if_pos hc]⟩
    · obtain ⟨e, he, hc, hw⟩ := ih hrest (by omega)
      refine ⟨e, mem_cons_of_mem _ he, hc, ?_⟩
      rw [wirings_cons, if_neg fun ha => hlt ha.2, hw]

/-! ## Maps in order -/

/-- The entries are in ascending order and between the bounds, their names differ, and their counts
have 16 bits. Empty entries may occur: wiring an empty range makes them. -/
structure VmMap.Laid (m : VmMap) : Prop where
  ascending : Ascending m.entries
  ordered : ∀ e ∈ m.entries, e.vmeStart ≤ e.vmeEnd
  inside : ∀ e ∈ m.entries, m.minOffset ≤ e.vmeStart ∧ e.vmeEnd ≤ m.maxOffset
  distinct : Distinct VmMapEntry.id m.entries
  nextId : ∀ e ∈ m.entries, e.id < m.nextId
  narrow : ∀ e ∈ m.entries, e.wiredCount < 2 ^ 16 ∧ e.userWiredCount < 2 ^ 16

section
variable {m m' : VmMap} {pre post l : List VmMapEntry} {e : VmMapEntry}

/-- What may take the place of an entry. -/
structure Parts (m m' : VmMap) (e : VmMapEntry) (l : List VmMapEntry) : Prop where
  ascending : Ascending l
  inside : ∀ a ∈ l, e.vmeStart ≤ a.vmeStart ∧ a.vmeStart ≤ a.vmeEnd ∧ a.vmeEnd ≤ e.vmeEnd
  names : ∀ a ∈ l, a.id = e.id ∨ m.nextId ≤ a.id ∧ a.id < m'.nextId
  distinct : Distinct VmMapEntry.id l
  narrow : ∀ a ∈ l, a.wiredCount < 2 ^ 16 ∧ a.userWiredCount < 2 ^ 16

theorem VmMap.Laid.parts (h : m.Laid) (hsplit : m.entries = pre ++ e :: post)
    (hentries : m'.entries = pre ++ l ++ post) (hparts : Parts m m' e l)
    (hbounds : m'.minOffset = m.minOffset ∧ m'.maxOffset = m.maxOffset ∧ m.nextId ≤ m'.nextId) :
    m'.Laid := by
  have hmem : e ∈ m.entries := by rw [hsplit]; simp
  have hrest : ∀ a, a ∈ pre ∨ a ∈ post → a ∈ m.entries := fun a ha => by
    rw [hsplit]
    simp only [mem_append, mem_cons]
    tauto
  have hcases : ∀ a ∈ m'.entries, a ∈ m.entries ∨ a ∈ l := by
    intro a ha
    rw [hentries, mem_append, mem_append] at ha
    rcases ha with (ha | ha) | ha
    · exact .inl (hrest a (.inl ha))
    · exact .inr ha
    · exact .inl (hrest a (.inr ha))
  have hasc := h.ascending
  rw [hsplit] at hasc
  have hd := h.distinct
  rw [hsplit] at hd
  refine ⟨?_, ?_, ?_, ?_, ?_, ?_⟩
  · obtain ⟨hpre, hcons, hcross⟩ := pairwise_append.mp hasc
    obtain ⟨hhead, hpost⟩ := pairwise_cons.mp hcons
    rw [hentries]
    refine pairwise_append.mpr ⟨pairwise_append.mpr ⟨hpre, hparts.ascending, ?_⟩, hpost, ?_⟩
    · intro a ha b hb
      have := hcross a ha e mem_cons_self
      have := (hparts.inside b hb).1
      omega
    · intro a ha b hb
      rcases mem_append.mp ha with ha | ha
      · exact hcross a ha b (mem_cons_of_mem _ hb)
      · have := hhead b hb
        have := (hparts.inside a ha).2.2
        omega
  · exact fun a ha => (hcases a ha).elim (h.ordered a) fun ha => (hparts.inside a ha).2.1
  · intro a ha
    rw [hbounds.1, hbounds.2.1]
    rcases hcases a ha with ha | ha
    · exact h.inside a ha
    · have := h.inside e hmem
      have := hparts.inside a ha
      omega
  · have hnames : ∀ a ∈ l, ∀ b, b ∈ pre ∨ b ∈ post → b.id ≠ a.id := by
      intro a ha b hb heq
      rcases hparts.names a ha with hid | hid
      · rcases hb with hb | hb
        · exact hd.ne_of_split.1 b hb (heq.trans hid)
        · exact hd.ne_of_split.2 b hb (heq.trans hid)
      · have := h.nextId b (hrest b hb)
        omega
    have hdl : (l.map VmMapEntry.id).Nodup := hparts.distinct
    unfold Distinct at hd ⊢
    rw [hentries]
    simp only [map_append, map_cons, nodup_append, nodup_cons,
      mem_append, mem_map, mem_cons] at hd ⊢
    refine ⟨⟨hd.1, hdl, ?_⟩, hd.2.1.2, ?_⟩
    · rintro i ⟨a, ha, rfl⟩ j ⟨b, hb, rfl⟩
      exact hnames b hb a (.inl ha)
    · rintro i (⟨a, ha, rfl⟩ | ⟨a, ha, rfl⟩) j ⟨b, hb, rfl⟩
      · exact hd.2.2 _ ⟨a, ha, rfl⟩ _ (.inr ⟨b, hb, rfl⟩)
      · exact (hnames a ha b (.inr hb)).symm
  · intro a ha
    rcases hcases a ha with ha | ha
    · exact (h.nextId a ha).trans_le hbounds.2.2
    · rcases hparts.names a ha with hid | hid
      · rw [hid]
        exact (h.nextId e hmem).trans_le hbounds.2.2
      · exact hid.2
  · exact fun a ha => (hcases a ha).elim (h.narrow a) (hparts.narrow a)

theorem VmMap.Laid.entryAt (h : m.Laid) (hsplit : m.entries = pre ++ e :: post) :
    m.entryAt e.id = some e := h.distinct.find (by rw [hsplit]; simp)

theorem VmMap.Laid.two (h : m.Laid) (hsplit : m.entries = pre ++ e :: post) {x i j : ℕ}
    (hlo : e.vmeStart ≤ x) (hhi : x ≤ e.vmeEnd)
    (hids : i = e.id ∧ j = m.nextId ∨ i = m.nextId ∧ j = e.id)
    {f : VmMapEntry → List VmMapEntry} (hf : f e = [e.low i x, e.high j x]) :
    (m.split e.id f).entries = pre ++ [e.low i x, e.high j x] ++ post ∧ (m.split e.id f).Laid := by
  have hd := h.distinct
  rw [hsplit] at hd
  have hmem : e ∈ m.entries := by rw [hsplit]; simp
  have hentries : (m.split e.id f).entries = pre ++ [e.low i x, e.high j x] ++ post := by
    simp only [VmMap.split, hsplit]
    rw [replace_split hd, hf]
  have hnext := h.nextId e hmem
  have hparts : Parts m (m.split e.id f) e [e.low i x, e.high j x] := by
    have hbetween : ∀ a ∈ [e.low i x, e.high j x], a = e.low i x ∨ a = e.high j x := fun a ha =>
      List.mem_pair.mp ha
    refine ⟨?_, ?_, ?_, ?_, ?_⟩
    · exact List.pairwise_pair.mpr (le_refl x)
    · intro a ha
      rcases hbetween a ha with rfl | rfl
      · exact ⟨le_refl _, hlo, hhi⟩
      · exact ⟨hlo, hhi, le_refl _⟩
    · intro a ha
      have hn : (m.split e.id f).nextId = m.nextId + 1 := rfl
      rcases hbetween a ha with rfl | rfl
      · change i = e.id ∨ m.nextId ≤ i ∧ i < _
        omega
      · change j = e.id ∨ m.nextId ≤ j ∧ j < _
        omega
    · change [i, j].Nodup
      rw [nodup_cons, mem_singleton]
      exact ⟨by omega, nodup_singleton j⟩
    · intro a ha
      rcases hbetween a ha with rfl | rfl
      · exact h.narrow e hmem
      · exact h.narrow e hmem
  exact ⟨hentries, h.parts hsplit hentries hparts ⟨rfl, rfl, Nat.le_succ _⟩⟩

/-- An entry in the place of another one. -/
structure Stands (e e' : VmMapEntry) : Prop where
  id : e'.id = e.id
  vmeStart : e'.vmeStart = e.vmeStart
  vmeEnd : e'.vmeEnd = e.vmeEnd
  narrow : e'.wiredCount < 2 ^ 16 ∧ e'.userWiredCount < 2 ^ 16

theorem VmMap.Laid.update (h : m.Laid) (hsplit : m.entries = pre ++ e :: post)
    {f : VmMapEntry → VmMapEntry} (hf : Stands e (f e)) :
    Linked.update VmMapEntry.id e.id f m.entries = pre ++ f e :: post ∧
      VmMap.Laid { m with entries := Linked.update VmMapEntry.id e.id f m.entries } := by
  have hd := h.distinct
  rw [hsplit] at hd
  have hentries : Linked.update VmMapEntry.id e.id f m.entries = pre ++ f e :: post := by
    rw [hsplit]
    exact update_split hd f
  have hle := h.ordered e (by rw [hsplit]; simp)
  refine ⟨hentries, h.parts hsplit (l := [f e]) (hentries.trans (by simp)) ?_ ⟨rfl, rfl, le_refl _⟩⟩
  refine ⟨pairwise_singleton _ _, ?_, ?_, nodup_singleton _, ?_⟩
  · intro a ha
    rw [mem_singleton.mp ha, hf.vmeStart, hf.vmeEnd]
    exact ⟨le_refl _, hle, le_refl _⟩
  · intro a ha
    rw [mem_singleton.mp ha]
    exact .inl hf.id
  · intro a ha
    rw [mem_singleton.mp ha]
    exact hf.narrow

end

/-! ## Clipping -/

section
variable {α : Type*} {s : MapState α} {pre post : List VmMapEntry} {e : VmMapEntry}

/-- An entry is cut at the end of a range: the part `e'` keeps its name, `back` is what is above. -/
structure CutAbove (s' : MapState α) (pre post : List VmMapEntry) (e e' : VmMapEntry)
    (back : List VmMapEntry) (stop : ℕ) : Prop where
  laid : s'.map.Laid
  entries : s'.map.entries = pre ++ e' :: (back ++ post)
  id : e'.id = e.id
  vmeStart : e'.vmeStart = e.vmeStart
  vmeEnd : e'.vmeEnd = min e.vmeEnd stop
  wiring : e'.wiring = e.wiring
  above : ∀ b ∈ back, stop ≤ b.vmeStart
  none : e.vmeEnd ≤ stop → back = []
  wirings : ∀ x, wirings (e' :: back) x = wirings [e] x

variable {stop start address i x : ℕ} {l : List VmMapEntry} {m : VmMap} {v : Wiring}
  {kernelWired userWired : ℕ → ℕ}

theorem VmMap.Laid.clipEnd (h : s.map.Laid) (hsplit : s.map.entries = pre ++ e :: post)
    (hlo : e.vmeStart ≤ stop) : ∃ e' back, CutAbove (s.clipEnd e.id stop) pre post e e' back stop := by
  have hat := h.entryAt hsplit
  unfold MapState.clipEnd
  simp only [hat]
  unfold VmMap.clipEnd
  simp only [hat]
  by_cases hlt : stop < e.vmeEnd
  · rw [if_pos hlt, if_pos hlt]
    obtain ⟨hentries, hlaid⟩ := h.two hsplit hlo hlt.le (.inl ⟨rfl, rfl⟩)
      (f := fun e => [{ e with vmeEnd := stop }, { e with
        id := s.map.nextId
        vmeStart := stop
        offset := add e.offset (sub stop e.vmeStart) }]) rfl
    refine ⟨e.low e.id stop, [e.high s.map.nextId stop], hlaid, ?_, rfl, rfl,
      (min_eq_right hlt.le).symm, rfl, ?_, fun hc => absurd hlt (not_lt.mpr hc),
      wirings_split hlo hlt.le _ _⟩
    · rw [hentries, append_assoc]
      rfl
    · intro b hb
      rw [mem_singleton.mp hb]
      exact le_refl stop
  · rw [if_neg hlt, if_neg hlt]
    exact ⟨e, [], h, hsplit, rfl, rfl, (min_eq_left (not_lt.mp hlt)).symm, rfl,
      fun b hb => (by cases hb), fun _ => rfl, fun _ => rfl⟩

/-- An entry is cut at the start of a range: `front` is what is below. -/
structure CutBelow (s' : MapState α) (pre post : List VmMapEntry) (e e' : VmMapEntry)
    (front : List VmMapEntry) (start : ℕ) : Prop where
  laid : s'.map.Laid
  entries : s'.map.entries = pre ++ front ++ e' :: post
  id : e'.id = e.id
  vmeStart : e'.vmeStart = max e.vmeStart start
  vmeEnd : e'.vmeEnd = e.vmeEnd
  wiring : e'.wiring = e.wiring
  below : ∀ b ∈ front, b.vmeEnd ≤ start
  none : start ≤ e.vmeStart → front = []
  wirings : ∀ x, wirings (front ++ [e']) x = wirings [e] x

theorem VmMap.Laid.clipStart (h : s.map.Laid) (hsplit : s.map.entries = pre ++ e :: post)
    (hhi : start ≤ e.vmeEnd) :
    ∃ e' front, CutBelow (s.clipStart e.id start) pre post e e' front start := by
  have hat := h.entryAt hsplit
  unfold MapState.clipStart
  simp only [hat]
  unfold VmMap.clipStart
  simp only [hat]
  by_cases hlt : e.vmeStart < start
  · rw [if_pos hlt, if_pos hlt]
    obtain ⟨hentries, hlaid⟩ := h.two hsplit hlt.le hhi (.inr ⟨rfl, rfl⟩)
      (f := fun e => [{ e with id := s.map.nextId, vmeEnd := start }, { e with
        vmeStart := start
        offset := add e.offset (sub start e.vmeStart) }]) rfl
    refine ⟨e.high e.id start, [e.low s.map.nextId start], hlaid, ?_, rfl,
      (max_eq_right hlt.le).symm, rfl, rfl, ?_, fun hc => absurd hlt (not_lt.mpr hc),
      wirings_split hlt.le hhi _ _⟩
    · rw [hentries, append_cons, append_assoc, append_assoc, append_assoc]
      rfl
    · intro b hb
      rw [mem_singleton.mp hb]
      exact le_refl start
  · rw [if_neg hlt, if_neg hlt]
    exact ⟨e, [], h, by rw [append_nil, hsplit], rfl, (max_eq_left (not_lt.mp hlt)).symm, rfl,
      rfl, fun b hb => (by cases hb), fun _ => rfl, fun _ => rfl⟩

theorem VmMap.Laid.createObject (h : s.map.Laid) (hsplit : s.map.entries = pre ++ e :: post) :
    ∃ e', Stands e e' ∧ e'.wiring = e.wiring ∧ (s.createObject e.id).map.Laid ∧
      (s.createObject e.id).map.entries = pre ++ e' :: post := by
  have hnarrow := h.narrow e (by rw [hsplit]; simp)
  have hsame : Stands e e := ⟨rfl, rfl, rfl, hnarrow⟩
  unfold MapState.createObject
  simp only [h.entryAt hsplit]
  split
  · split
    · obtain ⟨hentries, hlaid⟩ := h.update hsplit (f := fun e =>
        { e with object := some s.kernel.store.next, offset := 0, needsCopy := false })
        ⟨rfl, rfl, rfl, hnarrow⟩
      exact ⟨{ e with object := some s.kernel.store.next, offset := 0, needsCopy := false },
        ⟨rfl, rfl, rfl, hnarrow⟩, rfl, hlaid, hentries⟩
    · split
      · obtain ⟨hentries, hlaid⟩ := h.update hsplit (f := fun e =>
          { e with object := some s.kernel.store.next, offset := 0 }) ⟨rfl, rfl, rfl, hnarrow⟩
        exact ⟨{ e with object := some s.kernel.store.next, offset := 0 },
          ⟨rfl, rfl, rfl, hnarrow⟩, rfl, hlaid, hentries⟩
      · exact ⟨e, hsame, rfl, h, hsplit⟩
  · exact ⟨e, hsame, rfl, h, hsplit⟩

theorem wireEntry_stands (userWire : Bool) {e : VmMapEntry}
    (hn : e.wiredCount < 2 ^ 16 ∧ e.userWiredCount < 2 ^ 16) :
    Stands e (wireEntry userWire e) := by
  unfold wireEntry
  split
  · refine ⟨rfl, rfl, rfl, ?_, ushortSucc_lt _⟩
    dsimp only
    split
    · exact ushortSucc_lt _
    · exact hn.1
  · exact ⟨rfl, rfl, rfl, ushortSucc_lt _, hn.2⟩

theorem unwireEntry_stands (userWire : Bool) {e : VmMapEntry}
    (hn : e.wiredCount < 2 ^ 16 ∧ e.userWiredCount < 2 ^ 16) :
    Stands e (unwireEntry userWire e) := by
  unfold unwireEntry
  split
  · refine ⟨rfl, rfl, rfl, ?_, ushortPred_lt _⟩
    dsimp only
    split
    · exact ushortPred_lt _
    · exact hn.1
  · exact ⟨rfl, rfl, rfl, ushortPred_lt _, hn.2⟩

theorem wireEntry_wiring (userWire : Bool) (e : VmMapEntry) :
    (wireEntry userWire e).wiring = e.wiring.wire userWire := by
  unfold wireEntry wire
  split <;> rfl

theorem unwireEntry_wiring (userWire : Bool) (e : VmMapEntry) :
    (unwireEntry userWire e).wiring = e.wiring.unwire userWire := by
  unfold unwireEntry unwire
  split <;> rfl

theorem unwireEntry_wireEntry (userWire : Bool) {e : VmMapEntry}
    (hn : e.wiredCount < 2 ^ 16 ∧ e.userWiredCount < 2 ^ 16) :
    unwireEntry userWire (wireEntry userWire e) = e := by
  have hwired := ushortPred_succ hn.1
  have huser := ushortPred_succ hn.2
  cases userWire with
  | false => simp [unwireEntry, wireEntry, hwired]
  | true =>
    by_cases hzero : e.userWiredCount = 0
    · have hpred : ushortPred (ushortSucc 0) = 0 := ushortPred_succ (by norm_num)
      simp only [unwireEntry, wireEntry, hzero, hpred, hwired, if_true]
      rw [← hzero]
    · simp [unwireEntry, wireEntry, hzero, huser]

/-! ## Wiring -/

/-- What one turn of the first pass makes of an entry: `d` is its part in the range as it was before
its count was incremented. -/
structure Turned (userWire : Bool) (s' : MapState α) (pre post : List VmMapEntry) (e d : VmMapEntry)
    (front back : List VmMapEntry) (start stop : ℕ) : Prop where
  laid : s'.map.Laid
  entries : s'.map.entries = pre ++ front ++ wireEntry userWire d :: (back ++ post)
  id : d.id = e.id
  vmeStart : d.vmeStart = max e.vmeStart start
  vmeEnd : d.vmeEnd = min e.vmeEnd stop
  wiring : d.wiring = e.wiring
  narrow : d.wiredCount < 2 ^ 16 ∧ d.userWiredCount < 2 ^ 16
  below : ∀ b ∈ front, b.vmeEnd ≤ start
  above : ∀ b ∈ back, stop ≤ b.vmeStart
  front_nil : start ≤ e.vmeStart → front = []
  back_nil : e.vmeEnd ≤ stop → back = []
  wirings : ∀ x, wirings (front ++ d :: back) x = wirings [e] x

theorem VmMap.Laid.wireTurn (h : s.map.Laid) (hsplit : s.map.entries = pre ++ e :: post)
    (userWire : Bool) (hlo : e.vmeStart ≤ stop) (hhi : start ≤ e.vmeEnd) (hle : start ≤ stop) :
    ∃ d front back, Turned userWire (s.wireTurn start stop userWire e.id) pre post e d front back
      start stop := by
  obtain ⟨e₁, back, h₁⟩ := h.clipEnd hsplit hlo
  obtain ⟨e₂, hstands, hwiring, hlaid₂, hentries₂⟩ := h₁.laid.createObject h₁.entries
  rw [h₁.id] at hlaid₂ hentries₂
  have hid₂ : e₂.id = e.id := hstands.id.trans h₁.id
  have hend₂ : start ≤ e₂.vmeEnd := by
    rw [hstands.vmeEnd, h₁.vmeEnd]
    exact le_min hhi hle
  obtain ⟨d, front, h₃⟩ := hlaid₂.clipStart hentries₂ hend₂
  rw [hid₂] at h₃
  have hstart₃ : d.vmeStart ≤ stop := by
    rw [h₃.vmeStart, hstands.vmeStart, h₁.vmeStart]
    exact max_le hlo hle
  -- The second cut at the end finds nothing to cut.
  obtain ⟨d', back', h₄⟩ := h₃.laid.clipEnd h₃.entries hstart₃
  have hend₃ : d.vmeEnd ≤ stop := by
    rw [h₃.vmeEnd, hstands.vmeEnd, h₁.vmeEnd]
    exact min_le_right _ _
  obtain rfl := h₄.none hend₃
  have hid : d'.id = e.id := h₄.id.trans (h₃.id.trans hid₂)
  rw [h₃.id, hid₂] at h₄
  have hentries := h₄.entries
  rw [nil_append] at hentries
  have hmem : d' ∈ ((((s.clipEnd e.id stop).createObject e.id).clipStart e.id start).clipEnd e.id
      stop).map.entries := by
    rw [hentries]
    simp
  have hnarrow := h₄.laid.narrow d' hmem
  obtain ⟨hupdated, hlaid⟩ := h₄.laid.update hentries (wireEntry_stands userWire hnarrow)
  rw [hid] at hupdated hlaid
  have hwirings : ∀ x, wirings [d'] x = wirings [d] x := h₄.wirings
  refine ⟨d', front, back, hlaid, hupdated, hid, ?_, ?_, ?_, hnarrow, h₃.below, h₁.above, ?_, ?_, ?_⟩
  · rw [h₄.vmeStart, h₃.vmeStart, hstands.vmeStart, h₁.vmeStart]
  · rw [h₄.vmeEnd, min_eq_left hend₃, h₃.vmeEnd, hstands.vmeEnd, h₁.vmeEnd]
  · rw [h₄.wiring, h₃.wiring, hwiring, h₁.wiring]
  · intro hc
    refine h₃.none ?_
    rwa [hstands.vmeStart, h₁.vmeStart]
  · exact h₁.none
  · intro x
    have hcover : wirings [e₂] x = wirings [e₁] x :=
      wirings_single hstands.vmeStart hstands.vmeEnd hwiring x
    have hsplit₁ := h₁.wirings x
    rw [← singleton_append, wirings_append] at hsplit₁
    rw [← singleton_append, ← append_assoc, wirings_append, wirings_append, hwirings,
      ← wirings_append, h₃.wirings, hcover, hsplit₁]


theorem wireEntry_id (userWire : Bool) (e : VmMapEntry) :
    (wireEntry userWire e).id = e.id := by
  unfold wireEntry
  split <;> rfl

theorem wireEntry_range (userWire : Bool) (e : VmMapEntry) :
    (wireEntry userWire e).vmeStart = e.vmeStart ∧
      (wireEntry userWire e).vmeEnd = e.vmeEnd := by
  unfold wireEntry
  split <;> exact ⟨rfl, rfl⟩

theorem wirings_wired (userWire : Bool) (l : List VmMapEntry) (x : ℕ) :
    wirings (l.map (wireEntry userWire)) x = (wirings l x).map (wire userWire) :=
  wirings_map (wireEntry_range userWire) (wireEntry_wiring userWire) l x

theorem VmMap.Laid.place (h : s.map.Laid) (hsplit : s.map.entries = pre ++ post) :
    (post.head?.map VmMapEntry.id).bind s.map.entryAt = post.head? := by
  cases post with
  | nil => rfl
  | cons e post => exact h.entryAt hsplit

/-- Backing out restores the entries that were wired, from the last of them backwards. -/
theorem backOut_spec (userWire : Bool) (start : ℕ) (n : ℕ) : ∀ {s : MapState α}
    {pre done post : List VmMapEntry}, s.map.Laid →
    s.map.entries = pre ++ done.map (wireEntry userWire) ++ post → done.length ≤ n →
    (∀ e ∈ pre, e.vmeEnd ≤ start) →
    (∀ d ∈ done, start < d.vmeEnd ∧ d.wiredCount < 2 ^ 16 ∧ d.userWiredCount < 2 ^ 16) →
    (s.backOut userWire start n
      (last VmMapEntry.id (pre ++ done.map (wireEntry userWire)))).map.Laid ∧
    (s.backOut userWire start n
      (last VmMapEntry.id (pre ++ done.map (wireEntry userWire)))).map.entries =
        pre ++ done ++ post := by
  induction n with
  | zero =>
    intro s pre done post h hsplit hlen _ _
    obtain rfl := eq_nil_of_length_eq_zero (Nat.le_zero.mp hlen)
    rw [backOut.eq_def]
    exact ⟨h, hsplit⟩
  | succ n ih =>
    intro s pre done post h hsplit hlen hpre hdone
    rcases List.eq_nil_or_concat' done with rfl | ⟨init, d, rfl⟩
    · rw [map_nil, append_nil] at hsplit ⊢
      rcases List.eq_nil_or_concat' pre with rfl | ⟨before, a, rfl⟩
      · exact ⟨h, hsplit⟩
      · have hlast : last VmMapEntry.id (before ++ [a]) = some a.id := by
          rw [last, getLast?_concat, Option.map_some]
        have hat : s.map.entryAt a.id = some a :=
          h.entryAt (by rw [hsplit, append_assoc, singleton_append])
        have hend := hpre a (mem_append_right _ mem_cons_self)
        rw [hlast, backOut]
        simp only [hat]
        rw [if_neg (not_lt.mpr hend)]
        exact ⟨h, hsplit⟩
    · obtain ⟨hend, hnarrow⟩ := hdone d (mem_append_right _ mem_cons_self)
      have hid := wireEntry_id userWire d
      rw [map_append, map_cons, map_nil] at hsplit ⊢
      have hlast : last VmMapEntry.id (pre ++ (init.map (wireEntry userWire) ++
          [wireEntry userWire d])) = some d.id := by
        rw [← append_assoc, last, getLast?_concat, Option.map_some, hid]
      have hcons : s.map.entries = pre ++ init.map (wireEntry userWire) ++
          wireEntry userWire d :: post := by
        rw [hsplit]
        simp only [append_assoc, singleton_append]
      have hat := h.entryAt hcons
      rw [hid] at hat
      have hundo := unwireEntry_wireEntry userWire hnarrow
      have hstands : Stands (wireEntry userWire d)
          (unwireEntry userWire (wireEntry userWire d)) := by
        rw [hundo]
        exact ⟨hid.symm, (wireEntry_range userWire d).1.symm, (wireEntry_range userWire d).2.symm,
          hnarrow⟩
      obtain ⟨hupdated, hlaid⟩ := h.update hcons hstands
      rw [hid, hundo] at hupdated
      rw [hid] at hlaid
      have hprev : (s.update d.id (unwireEntry userWire)).map.prev (some d.id) =
          last VmMapEntry.id (pre ++ init.map (wireEntry userWire)) := by
        have hd := hlaid.distinct
        change Distinct VmMapEntry.id (Linked.update VmMapEntry.id d.id _ s.map.entries) at hd
        rw [hupdated] at hd
        change last VmMapEntry.id ((Linked.update VmMapEntry.id d.id
          (unwireEntry userWire) s.map.entries).takeWhile fun e => e.id ≠ d.id) = _
        rw [hupdated, takeWhile_split hd]
      rw [hlast, backOut]
      simp only [hat]
      rw [if_pos (by rw [(wireEntry_range userWire d).2]; exact hend), hprev]
      have hlen' : init.length ≤ n := by
        rw [length_append, length_singleton] at hlen
        omega
      have hrest := ih (s := s.update d.id (unwireEntry userWire)) hlaid hupdated hlen' hpre
        fun a ha => hdone a (mem_append_left _ ha)
      refine ⟨hrest.1, hrest.2.trans ?_⟩
      simp only [append_assoc, singleton_append]

theorem wireLoop_stop (userWire : Bool) (accessType : VmProt) (h : s.map.Laid)
    (hsplit : s.map.entries = pre ++ post) (hstop : ∀ e ∈ post, stop ≤ e.vmeStart) (n : ℕ) :
    wireLoop start stop accessType userWire n s (post.head?.map VmMapEntry.id) =
      (.success, s) := by
  cases n with
  | zero => simp only [wireLoop]
  | succ n =>
    cases post with
    | nil => simp only [List.head?_nil, Option.map_none, wireLoop]
    | cons e post =>
      have hle := hstop e mem_cons_self
      simp only [head?_cons, Option.map_some, wireLoop, h.entryAt hsplit]
      rw [if_neg (not_lt.mpr hle)]

/-- Where the first pass stands: at an entry in the range that follows what is wired already, or
past the end of the range. -/
def AtTurn (start stop : ℕ) (done rest : List VmMapEntry) : Prop :=
  (∃ e post, rest = e :: post ∧ Chain start (max e.vmeStart start) done ∧ start < e.vmeEnd ∧
    e.vmeStart < stop) ∨
  Chain start stop done ∧ ∀ e ∈ rest, stop ≤ e.vmeStart

/-- The entries that are wired already. -/
def Done (start : ℕ) (accessType : VmProt) (done : List VmMapEntry) : Prop :=
  ∀ d ∈ done, (start < d.vmeEnd ∧ d.wiredCount < 2 ^ 16 ∧ d.userWiredCount < 2 ^ 16) ∧
    d.protection.and accessType = accessType

/-- What a call that wires makes of the wirings `w` of the addresses. -/
def Wires (userWire : Bool) (accessType : VmProt) (start stop : ℕ) (w w' : ℕ → Option Wiring) :
    Prop :=
  (∀ x, start ≤ x → x < stop → ∃ v, w x = some v ∧ v.protection.and accessType = accessType ∧
    w' x = some (v.wire userWire)) ∧
  ∀ x, x < start ∨ stop ≤ x → w' x = w x

theorem wires_done {done rest : List VmMapEntry} {accessType : VmProt}
    (userWire : Bool) (hpre : ∀ e ∈ pre, e.vmeEnd ≤ start) (hdone : Done start accessType done)
    (hchain : Chain start stop done) :
    Wires userWire accessType start stop (wirings (pre ++ done ++ rest))
      (wirings (pre ++ done.map (wireEntry userWire) ++ rest)) := by
  constructor
  · intro x hlo hhi
    obtain ⟨d, hd, -, hw⟩ := hchain.covers hlo hhi
    have hnone : wirings pre x = none := wirings_of_le fun e he => (hpre e he).trans hlo
    refine ⟨d.wiring, ?_, (hdone d hd).2, ?_⟩
    · rw [wirings_append, wirings_append, hnone, hw]
      rfl
    · rw [wirings_append, wirings_append, hnone, wirings_wired, hw]
      rfl
  · intro x hx
    have hnone : wirings done x = none := by
      refine wirings_none fun d hd hc => ?_
      have := hchain.bounds hd
      have := hc.1
      have := hc.2
      omega
    rw [wirings_append, wirings_append, wirings_wired, hnone, wirings_append, wirings_append, hnone]
    rfl

theorem wireLoop_spec (userWire : Bool) (accessType : VmProt) (hlt : start < stop)
    (n : ℕ) : ∀ {s : MapState α} {pre done rest : List VmMapEntry}, s.map.Laid →
    s.map.entries = pre ++ done.map (wireEntry userWire) ++ rest → rest.length ≤ n →
    (∀ e ∈ pre, e.vmeEnd ≤ start) → Done start accessType done → AtTurn start stop done rest →
    (wireLoop start stop accessType userWire n s
      (rest.head?.map VmMapEntry.id)).2.map.Laid ∧
    ((wireLoop start stop accessType userWire n s
        (rest.head?.map VmMapEntry.id)).1 = .success ∧
      Wires userWire accessType start stop (wirings (pre ++ done ++ rest))
        (wirings (wireLoop start stop accessType userWire n s
          (rest.head?.map VmMapEntry.id)).2.map.entries) ∨
    (wireLoop start stop accessType userWire n s
        (rest.head?.map VmMapEntry.id)).1 = .failure ∧
      ∀ x, wirings (wireLoop start stop accessType userWire n s
        (rest.head?.map VmMapEntry.id)).2.map.entries x = wirings (pre ++ done ++ rest) x) := by
  have hover : ∀ {s : MapState α} {pre done rest : List VmMapEntry} (n : ℕ), s.map.Laid →
      s.map.entries = pre ++ done.map (wireEntry userWire) ++ rest →
      (∀ e ∈ pre, e.vmeEnd ≤ start) → Done start accessType done → Chain start stop done →
      (∀ e ∈ rest, stop ≤ e.vmeStart) →
      (wireLoop start stop accessType userWire n s
        (rest.head?.map VmMapEntry.id)).2.map.Laid ∧
      (wireLoop start stop accessType userWire n s
          (rest.head?.map VmMapEntry.id)).1 = .success ∧
        Wires userWire accessType start stop (wirings (pre ++ done ++ rest))
          (wirings (wireLoop start stop accessType userWire n s
            (rest.head?.map VmMapEntry.id)).2.map.entries) := by
    intro s pre done rest n h hsplit hpre hdone hchain hstop
    rw [wireLoop_stop userWire accessType h hsplit hstop n]
    refine ⟨h, rfl, ?_⟩
    rw [hsplit]
    exact wires_done userWire hpre hdone hchain
  induction n with
  | zero =>
    intro s pre done rest h hsplit hlen hpre hdone hturn
    obtain rfl := eq_nil_of_length_eq_zero (Nat.le_zero.mp hlen)
    rcases hturn with ⟨e, post, hnil, -⟩ | ⟨hchain, hstop⟩
    · cases hnil
    · obtain ⟨hlaid, hresult⟩ := hover 0 h hsplit hpre hdone hchain hstop
      exact ⟨hlaid, .inl hresult⟩
  | succ n ih =>
    intro s pre done rest h hsplit hlen hpre hdone hturn
    rcases hturn with ⟨e, post, rfl, hchain, hend, hbelow⟩ | ⟨hchain, hstop⟩
    case inr =>
      obtain ⟨hlaid, hresult⟩ := hover (n + 1) h hsplit hpre hdone hchain hstop
      exact ⟨hlaid, .inl hresult⟩
    obtain ⟨d, front, back, ht⟩ := h.wireTurn hsplit userWire hbelow.le hend.le hlt.le
    have hfront : done = [] ∨ front = [] := by
      rcases List.eq_nil_or_concat' done with rfl | ⟨init, a, rfl⟩
      · exact .inl rfl
      · refine .inr (ht.front_nil ?_)
        by_contra hc
        have hpos := (hdone a (mem_append_right _ mem_cons_self)).1.1
        have hb := (hchain.bounds (mem_append_right _ mem_cons_self)).2
        rw [max_eq_right (not_le.mp hc).le] at hb
        omega
    have hwire := wireEntry_range userWire d
    -- The entries, as far as they are wired now.
    have hentries : (s.wireTurn start stop userWire e.id).map.entries =
        pre ++ front ++ (done ++ [d]).map (wireEntry userWire) ++ (back ++ post) := by
      rw [ht.entries]
      rcases hfront with rfl | rfl
      · simp
      · simp
    have hsame : ∀ x, wirings (pre ++ front ++ (done ++ [d]) ++ (back ++ post)) x =
        wirings (pre ++ done ++ e :: post) x := by
      intro x
      have hparts : wirings (front ++ (done ++ [d]) ++ back) x = wirings (done ++ [e]) x := by
        have hw := ht.wirings x
        rcases hfront with rfl | rfl
        · rw [nil_append, append_assoc, singleton_append, nil_append]
          exact hw
        · rw [nil_append] at hw ⊢
          rw [append_assoc, singleton_append, wirings_append, hw, ← wirings_append]
      have hleft : pre ++ front ++ (done ++ [d]) ++ (back ++ post) =
          pre ++ ((front ++ (done ++ [d]) ++ back) ++ post) := by simp
      have hright : pre ++ done ++ e :: post = pre ++ ((done ++ [e]) ++ post) := by simp
      rw [hleft, hright, wirings_append, wirings_append, hparts, ← wirings_append, ← wirings_append]
    have hpre' : ∀ a ∈ pre ++ front, a.vmeEnd ≤ start := fun a ha =>
      (mem_append.mp ha).elim (hpre a) (ht.below a)
    have hdend : start < d.vmeEnd := by
      rw [ht.vmeEnd]
      exact lt_min hend hlt
    have hat : (s.wireTurn start stop userWire e.id).map.entryAt e.id =
        some (wireEntry userWire d) := by
      have hat := ht.laid.entryAt ht.entries
      rwa [wireEntry_id, ht.id] at hat
    have hnext : (s.wireTurn start stop userWire e.id).map.next (some e.id) =
        (back ++ post).head?.map VmMapEntry.id := by
      have hnext := VmMap.next_split ht.laid.distinct ht.entries
      rwa [wireEntry_id, ht.id] at hnext
    have hplace : ((s.wireTurn start stop userWire e.id).map.next (some e.id)).bind
        (s.wireTurn start stop userWire e.id).map.entryAt = (back ++ post).head? := by
      rw [hnext]
      exact ht.laid.place hentries
    have hloop : wireLoop start stop accessType userWire (n + 1) s
        ((e :: post).head?.map VmMapEntry.id) =
        (if Hole stop (wireEntry userWire d) (back ++ post).head? ∨
            (wireEntry userWire d).protection.and accessType ≠ accessType then
          (.failure, (s.wireTurn start stop userWire e.id).backOut userWire start
            (s.wireTurn start stop userWire e.id).map.entries.length (some e.id))
        else wireLoop start stop accessType userWire n
          (s.wireTurn start stop userWire e.id) ((back ++ post).head?.map VmMapEntry.id)) := by
      simp only [head?_cons, Option.map_some, wireLoop, h.entryAt hsplit, if_pos hbelow,
        hat, hnext, ht.laid.place hentries]
    have hstart : d.vmeStart ≤ d.vmeEnd := by
      rw [ht.vmeStart, ht.vmeEnd]
      have hle := h.ordered e (by rw [hsplit]; simp)
      exact max_le (le_min hle hbelow.le) (le_min hend.le hlt.le)
    have hchain' : Chain start d.vmeEnd (done ++ [d]) := hchain.concat ht.vmeStart hstart
    rw [hloop]
    split_ifs with hbroken
    · -- A hole, or a protection that is not enough: all that is wired is restored.
      have hlast : last VmMapEntry.id (pre ++ front ++
          (done ++ [d]).map (wireEntry userWire)) = some e.id := by
        rw [map_append, map_cons, map_nil, ← append_assoc, last,
          getLast?_concat, Option.map_some, wireEntry_id, ht.id]
      have hnarrow : ∀ a ∈ done ++ [d],
          start < a.vmeEnd ∧ a.wiredCount < 2 ^ 16 ∧ a.userWiredCount < 2 ^ 16 := by
        intro a ha
        rcases mem_append.mp ha with ha | ha
        · exact (hdone a ha).1
        · rw [mem_singleton.mp ha]
          exact ⟨hdend, ht.narrow⟩
      have hcount : (done ++ [d]).length ≤
          (s.wireTurn start stop userWire e.id).map.entries.length := by
        rw [hentries]
        simp only [length_append, length_map]
        omega
      have hback := backOut_spec userWire start _ ht.laid hentries hcount hpre' hnarrow
      rw [hlast] at hback
      refine ⟨hback.1, .inr ⟨rfl, fun x => ?_⟩⟩
      rw [hback.2]
      exact hsame x
    · obtain ⟨hhole, hprot⟩ := not_or.mp hbroken
      have hprotection : (wireEntry userWire d).protection = d.protection := by
        unfold wireEntry
        split <;> rfl
      rw [not_ne_iff, hprotection] at hprot
      have hdone' : Done start accessType (done ++ [d]) := by
        intro a ha
        rcases mem_append.mp ha with ha | ha
        · exact hdone a ha
        · rw [mem_singleton.mp ha]
          exact ⟨⟨hdend, ht.narrow⟩, hprot⟩
      have hasc := h.ascending
      rw [hsplit] at hasc
      have hafter : ∀ p ∈ post, e.vmeEnd ≤ p.vmeStart :=
        (pairwise_cons.mp (pairwise_append.mp hasc).2.1).1
      have hwirings : wirings (pre ++ done ++ e :: post) =
          wirings (pre ++ front ++ (done ++ [d]) ++ (back ++ post)) := (funext hsame).symm
      rw [hwirings]
      by_cases hcut : stop ≤ e.vmeEnd
      · have hdstop : d.vmeEnd = stop := by rw [ht.vmeEnd, min_eq_right hcut]
        rw [hdstop] at hchain'
        obtain ⟨hlaid, hresult⟩ := hover n ht.laid hentries hpre' hdone' hchain' fun a ha => by
          rcases mem_append.mp ha with ha | ha
          · exact ht.above a ha
          · exact hcut.trans (hafter a ha)
        exact ⟨hlaid, .inl hresult⟩
      · have hcut' := (not_le.mp hcut).le
        obtain rfl := ht.back_nil hcut'
        have hdstop : d.vmeEnd = e.vmeEnd := by rw [ht.vmeEnd, min_eq_left hcut']
        rw [nil_append] at hentries hhole ⊢
        have hlen' : post.length ≤ n := by
          rw [length_cons] at hlen
          omega
        refine ih ht.laid hentries hlen' hpre' hdone' (.inl ?_)
        cases post with
        | nil =>
          refine absurd ⟨?_, fun p hp => by cases hp⟩ hhole
          rw [hwire.2, hdstop]
          exact not_le.mp hcut
        | cons p post =>
          have hle := hafter p mem_cons_self
          have hp : p.vmeStart = e.vmeEnd := by
            by_contra hne
            refine hhole ⟨?_, fun q hq => ?_⟩
            · rw [hwire.2, hdstop]
              exact not_le.mp hcut
            · cases hq
              rw [hwire.2, hdstop]
              omega
          have hple := h.ordered p (by rw [hsplit]; simp)
          refine ⟨p, post, rfl, ?_, by omega, by omega⟩
          rw [hp, max_eq_left hend.le, ← hdstop]
          exact hchain'

theorem wireLoop_empty (userWire : Bool) (accessType : VmProt) (h : s.map.Laid)
    (hsplit : s.map.entries = pre ++ e :: post) (hend : start ≤ e.vmeEnd) (n : ℕ) :
    (wireLoop start start accessType userWire n s (some e.id)).2.map.Laid ∧
    ∀ x, wirings (wireLoop start start accessType userWire n s
      (some e.id)).2.map.entries x = wirings s.map.entries x := by
  cases n with
  | zero => exact ⟨h, fun _ => rfl⟩
  | succ n =>
    by_cases hbelow : e.vmeStart < start
    · obtain ⟨d, front, back, ht⟩ := h.wireTurn hsplit userWire hbelow.le hend (le_refl start)
      have hwire := wireEntry_range userWire d
      have hdstart : d.vmeStart = start := by rw [ht.vmeStart, max_eq_right hbelow.le]
      have hdend : d.vmeEnd = start := by rw [ht.vmeEnd, min_eq_right hend]
      have hempty : ∀ x, wirings [wireEntry userWire d] x = wirings [d] x := by
        intro x
        have hd : wirings [d] x = none := wirings_none fun a ha hc => by
          rw [mem_singleton.mp ha] at hc
          have := hc.1
          have := hc.2
          omega
        have hmap := wirings_wired userWire [d] x
        rw [hd] at hmap
        rw [hd]
        exact hmap
      have hat : (s.wireTurn start start userWire e.id).map.entryAt e.id =
          some (wireEntry userWire d) := by
        have hat := ht.laid.entryAt ht.entries
        rwa [wireEntry_id, ht.id] at hat
      have hnext : (s.wireTurn start start userWire e.id).map.next (some e.id) =
          (back ++ post).head?.map VmMapEntry.id := by
        have hnext := VmMap.next_split ht.laid.distinct ht.entries
        rwa [wireEntry_id, ht.id] at hnext
      have hsame : ∀ x, wirings (s.wireTurn start start userWire e.id).map.entries x =
          wirings s.map.entries x := by
        intro x
        have hw := ht.wirings x
        rw [← singleton_append, wirings_append, wirings_append] at hw
        have hleft : pre ++ front ++ wireEntry userWire d :: (back ++ post) =
            pre ++ ((front ++ ([wireEntry userWire d] ++ back)) ++ post) := by simp
        have hright : pre ++ e :: post = pre ++ ([e] ++ post) := by simp
        rw [ht.entries, hsplit, hleft, hright, wirings_append, wirings_append,
          wirings_append front, wirings_append _ back, hempty, hw, ← wirings_append,
          ← wirings_append]
      have hasc := h.ascending
      rw [hsplit] at hasc
      have hstop : ∀ a ∈ back ++ post, start ≤ a.vmeStart := by
        intro a ha
        rcases mem_append.mp ha with ha | ha
        · exact ht.above a ha
        · exact hend.trans ((pairwise_cons.mp (pairwise_append.mp hasc).2.1).1 a ha)
      have hsplit' : (s.wireTurn start start userWire e.id).map.entries =
          (pre ++ front ++ [wireEntry userWire d]) ++ (back ++ post) := by
        rw [ht.entries]
        simp
      have hback : ∀ k, (s.wireTurn start start userWire e.id).backOut userWire start k
          (some e.id) = s.wireTurn start start userWire e.id := by
        intro k
        cases k with
        | zero => simp only [backOut]
        | succ k =>
          rw [backOut]
          simp only [hat]
          rw [if_neg (by rw [hwire.2, hdend]; exact lt_irrefl start)]
      simp only [wireLoop, h.entryAt hsplit, if_pos hbelow, hat, hnext]
      split
      · rw [hback]
        exact ⟨ht.laid, hsame⟩
      · rw [wireLoop_stop userWire accessType ht.laid hsplit' hstop n]
        exact ⟨ht.laid, hsame⟩
    · simp only [wireLoop, h.entryAt hsplit, if_neg hbelow]
      exact ⟨h, fun _ => trivial⟩

/-! ## Unwiring -/

theorem unwireCheck_spec {userWire : Bool} {e : VmMapEntry}
    (hcheck : unwireCheck userWire stop (e :: l) = true) :
    ∀ x, e.vmeStart ≤ x → x < stop → ∃ v, wirings (e :: l) x = some v ∧ v.wiredCount ≠ 0 ∧
      (userWire = true → v.userWiredCount ≠ 0) := by
  induction l generalizing e with
  | nil =>
    intro x hlo hhi
    rw [unwireCheck, if_pos (hlo.trans_lt hhi)] at hcheck
    split at hcheck
    · cases hcheck
    case isFalse hgood =>
      simp only [not_or, not_and] at hgood
      obtain ⟨hwired, hhole, huser⟩ := hgood
      have hend : x < e.vmeEnd := by
        by_contra hc
        refine hhole ⟨by omega, fun n hn => by cases hn⟩
      exact ⟨e.wiring, by rw [wirings_cons, if_pos ⟨hlo, hend⟩], hwired, huser⟩
  | cons a l ih =>
    intro x hlo hhi
    rw [unwireCheck, if_pos (hlo.trans_lt hhi)] at hcheck
    split at hcheck
    · cases hcheck
    case isFalse hgood =>
      simp only [not_or, not_and] at hgood
      obtain ⟨hwired, hhole, huser⟩ := hgood
      by_cases hend : x < e.vmeEnd
      · exact ⟨e.wiring, by rw [wirings_cons, if_pos ⟨hlo, hend⟩], hwired, huser⟩
      · have ha : a.vmeStart ≤ x := by
          by_contra hc
          refine hhole ⟨by omega, fun n hn => ?_⟩
          cases hn
          omega
        obtain ⟨v, hv, hrest⟩ := ih hcheck x ha hhi
        exact ⟨v, by rw [wirings_cons, if_neg fun hc => hend hc.2, hv], hrest⟩

theorem VmMap.Laid.saveHint (h : m.Laid) (place : Option ℕ) : (m.saveHint place).Laid :=
  ⟨h.ascending, h.ordered, h.inside, h.distinct, h.nextId, h.narrow⟩

theorem VmMap.Laid.lock (h : m.Laid) : m.lock.Laid :=
  ⟨h.ascending, h.ordered, h.inside, h.distinct, h.nextId, h.narrow⟩

theorem unwireEntry_id (userWire : Bool) (e : VmMapEntry) :
    (unwireEntry userWire e).id = e.id := by
  unfold unwireEntry
  split <;> rfl

theorem unwireEntry_range (userWire : Bool) (e : VmMapEntry) :
    (unwireEntry userWire e).vmeStart = e.vmeStart ∧
      (unwireEntry userWire e).vmeEnd = e.vmeEnd := by
  unfold unwireEntry
  split <;> exact ⟨rfl, rfl⟩

theorem wirings_unwired (userWire : Bool) (e : VmMapEntry) (x : ℕ) :
    wirings [unwireEntry userWire e] x = (wirings [e] x).map (unwire userWire) :=
  wirings_map (unwireEntry_range userWire) (unwireEntry_wiring userWire) [e] x

variable [WireFaults α]

theorem unwireLoop_stop (userWire : Bool) (h : s.map.Laid)
    (hsplit : s.map.entries = pre ++ post) (hstop : ∀ e ∈ post, stop ≤ e.vmeStart) (n : ℕ) :
    unwireLoop userWire stop n s (post.head?.map VmMapEntry.id) = s := by
  cases n with
  | zero => simp only [unwireLoop]
  | succ n =>
    cases post with
    | nil => simp only [List.head?_nil, Option.map_none, unwireLoop]
    | cons e post =>
      have hle := hstop e mem_cons_self
      simp only [head?_cons, Option.map_some, unwireLoop, h.entryAt hsplit]
      rw [if_neg (not_lt.mpr hle)]

theorem unwireLoop_spec (userWire : Bool) (stop : ℕ) (n : ℕ) : ∀ {s : MapState α}
    {pre post : List VmMapEntry}, s.map.Laid → s.map.entries = pre ++ post → post.length ≤ n →
    ∃ post', (unwireLoop userWire stop n s (post.head?.map VmMapEntry.id)).map.Laid ∧
      (unwireLoop userWire stop n s (post.head?.map VmMapEntry.id)).map.entries =
        pre ++ post' ∧
      ∀ x, wirings post' x =
        if x < stop then (wirings post x).map (unwire userWire) else wirings post x := by
  induction n with
  | zero =>
    intro s pre post h hsplit hlen
    obtain rfl := eq_nil_of_length_eq_zero (Nat.le_zero.mp hlen)
    exact ⟨[], h, hsplit, by simp⟩
  | succ n ih =>
    intro s pre post h hsplit hlen
    cases post with
    | nil => exact ⟨[], h, hsplit, by simp⟩
    | cons e post =>
      by_cases hbelow : e.vmeStart < stop
      · obtain ⟨e₁, back, h₁⟩ := h.clipEnd hsplit hbelow.le
        have hnarrow := h₁.laid.narrow e₁ (by rw [h₁.entries]; simp)
        obtain ⟨hupdated, hlaid⟩ := h₁.laid.update h₁.entries (unwireEntry_stands userWire hnarrow)
        rw [h₁.id] at hupdated hlaid
        set t := (s.clipEnd e.id stop).update e.id (unwireEntry userWire)
        have hentries : t.map.entries = pre ++ unwireEntry userWire e₁ :: (back ++ post) :=
          hupdated
        have hat : t.map.entryAt e.id = some (unwireEntry userWire e₁) := by
          have hat := VmMap.Laid.entryAt (m := t.map) hlaid hentries
          rwa [unwireEntry_id, h₁.id] at hat
        -- The fault leaves nothing but a hint in the map.
        obtain ⟨u, hu, hulaid, huentries⟩ : ∃ u : MapState α, u =
            (if (unwireEntry userWire e₁).wiredCount = 0 then
              (⟨(WireFaults.vmFaultUnwire t (unwireEntry userWire e₁)).1,
                t.map.saveHint (WireFaults.vmFaultUnwire t
                  (unwireEntry userWire e₁)).2⟩ : MapState α)
            else t) ∧ u.map.Laid ∧ u.map.entries = t.map.entries := by
          refine ⟨_, rfl, ?_⟩
          split
          · exact ⟨VmMap.Laid.saveHint (m := t.map) hlaid _, rfl⟩
          · exact ⟨hlaid, rfl⟩
        have hnext : u.map.next (some e.id) = (back ++ post).head?.map VmMapEntry.id := by
          have hnext := VmMap.next_split hulaid.distinct (huentries.trans hentries)
          rwa [unwireEntry_id, h₁.id] at hnext
        have hloop : unwireLoop userWire stop (n + 1) s
            ((e :: post).head?.map VmMapEntry.id) =
            unwireLoop userWire stop n u ((back ++ post).head?.map VmMapEntry.id) := by
          rw [← hnext, hu]
          simp only [head?_cons, Option.map_some, unwireLoop, h.entryAt hsplit,
            if_pos hbelow, hat, t]
        have hasc := h.ascending
        rw [hsplit] at hasc
        have hafter : ∀ p ∈ post, e.vmeEnd ≤ p.vmeStart :=
          (pairwise_cons.mp (pairwise_append.mp hasc).2.1).1
        have huentries' : u.map.entries =
            (pre ++ [unwireEntry userWire e₁]) ++ (back ++ post) := by
          rw [huentries, hentries]
          simp
        have hold : ∀ x, wirings (e :: post) x =
            ((wirings [e₁] x).or (wirings back x)).or (wirings post x) := by
          intro x
          rw [← singleton_append, wirings_append, ← h₁.wirings x, ← singleton_append,
            wirings_append]
        have hfirst : ∀ l : List VmMapEntry, ∀ x, wirings (unwireEntry userWire e₁ :: l) x =
            ((wirings [e₁] x).map (unwire userWire)).or (wirings l x) := by
          intro l x
          rw [← singleton_append, wirings_append, wirings_unwired]
        rw [hloop]
        by_cases hcut : stop ≤ e.vmeEnd
        · have hstop : ∀ a ∈ back ++ post, stop ≤ a.vmeStart := by
            intro a ha
            rcases mem_append.mp ha with ha | ha
            · exact h₁.above a ha
            · exact hcut.trans (hafter a ha)
          rw [unwireLoop_stop userWire hulaid huentries' hstop n]
          refine ⟨unwireEntry userWire e₁ :: (back ++ post), hulaid, ?_, fun x => ?_⟩
          · rw [huentries, hentries]
          · rw [hfirst, hold]
            split
            case isTrue hx =>
              have hnone : wirings (back ++ post) x = none :=
                wirings_of_lt fun a ha => hx.trans_le (hstop a ha)
              have hnone' := hnone
              rw [wirings_append, Option.or_eq_none_iff] at hnone'
              rw [hnone, hnone'.1, hnone'.2, Option.or_none, Option.or_none, Option.or_none]
            case isFalse hx =>
              have hnone : wirings [e₁] x = none := wirings_of_le fun a ha => by
                rw [mem_singleton.mp ha, h₁.vmeEnd, min_eq_right hcut]
                exact not_lt.mp hx
              rw [hnone, wirings_append]
              rfl
        · have hcut' := (not_le.mp hcut).le
          obtain rfl := h₁.none hcut'
          rw [nil_append] at huentries' ⊢
          have hlen' : post.length ≤ n := by
            rw [length_cons] at hlen
            omega
          obtain ⟨post', hlaid', hentries', hpost'⟩ := ih hulaid huentries' hlen'
          refine ⟨unwireEntry userWire e₁ :: post', hlaid', ?_, fun x => ?_⟩
          · rw [hentries']
            simp
          · rw [hfirst, hold, hpost', wirings_nil, Option.or_none]
            cases he : wirings [e₁] x with
            | none => rfl
            | some v =>
              have hx : x < stop := by
                by_contra hc
                have hnone : wirings [e₁] x = none := wirings_of_le fun a ha => by
                  rw [mem_singleton.mp ha, h₁.vmeEnd, min_eq_left hcut']
                  omega
                rw [hnone] at he
                cases he
              rw [if_pos hx, if_pos hx]
              rfl
      · refine ⟨e :: post, ?_⟩
        have hasc := h.ascending
        rw [hsplit] at hasc
        have hafter := (pairwise_cons.mp (pairwise_append.mp hasc).2.1).1
        have hord := h.ordered e (by rw [hsplit]; simp)
        have hstop : ∀ a ∈ e :: post, stop ≤ a.vmeStart := by
          intro a ha
          rcases mem_cons.mp ha with rfl | ha
          · omega
          · have := hafter a ha
            omega
        rw [unwireLoop_stop userWire h hsplit hstop (n + 1)]
        refine ⟨h, hsplit, fun x => ?_⟩
        split
        case isTrue hx => rw [wirings_of_lt fun a ha => hx.trans_le (hstop a ha)]; rfl
        case isFalse => rfl

/-! ## A call -/

theorem scan_found {prev : Option ℕ}
    (h : VmMap.scan address prev l = (true, some i)) : ∃ e ∈ l, e.id = i ∧ e.Covers address := by
  induction l generalizing prev with
  | nil => cases h
  | cons e l ih =>
    rw [VmMap.scan] at h
    split at h
    case isTrue hlt =>
      split at h
      case isTrue hge =>
        cases h
        exact ⟨e, mem_cons_self, rfl, hge, hlt⟩
      case isFalse => cases h
    case isFalse =>
      obtain ⟨a, ha, hrest⟩ := ih h
      exact ⟨a, mem_cons_of_mem _ ha, hrest⟩

theorem VmMap.lookupEntry_found {m' : VmMap} (h : m.lookupEntry address = (true, some i, m')) :
    ∃ e ∈ m.entries, e.id = i ∧ e.Covers address := by
  unfold VmMap.lookupEntry at h
  split at h
  · cases h
  case h_2 cur hcur =>
    have hmem : cur ∈ m.entries := by
      unfold VmMap.hintEntry at hcur
      split at hcur
      · exact List.mem_of_head? hcur
      · exact mem_of_find?_eq_some hcur
    dsimp only at h
    split at h
    case isTrue hge =>
      split at h
      case isTrue hlt =>
        cases h
        exact ⟨cur, hmem, rfl, hge, hlt⟩
      case isFalse =>
        obtain ⟨hfound, hrest⟩ := Prod.mk.inj h
        obtain ⟨e, he, hcovers⟩ := scan_found (Prod.ext hfound (Prod.mk.inj hrest).1)
        exact ⟨e, List.mem_of_mem_drop he, hcovers⟩
    case isFalse =>
      obtain ⟨hfound, hrest⟩ := Prod.mk.inj h
      obtain ⟨e, he, hcovers⟩ := scan_found (Prod.ext hfound (Prod.mk.inj hrest).1)
      refine ⟨e, ?_, hcovers⟩
      rcases mem_append.mp he with he | he
      · exact (List.takeWhile_sublist _).subset he
      · rw [mem_singleton.mp he]
        exact hmem

/-- The wirings of the addresses of a map. -/
def VmMap.wirings (m : VmMap) (x : ℕ) : Option Wiring := Vm.wirings m.entries x

/-- Every address of a range that is within the bounds of the map is wired in some way. -/
def VmMap.RangeHas (m : VmMap) (start stop : ℕ) (p : Wiring → Prop) : Prop :=
  ∀ x, start ≤ x → x < stop → m.minOffset ≤ x → x < m.maxOffset → ∃ v, m.wirings x = some v ∧ p v

theorem VmMap.Laid.bounds (h : m.Laid)
    (hx : m.wirings x = some v) : m.minOffset ≤ x ∧ x < m.maxOffset := by
  obtain ⟨e, he, -⟩ := Option.map_eq_some_iff.mp hx
  have hin := h.inside e (mem_of_find?_eq_some he)
  have hc : e.Covers x := by simpa using find?_some he
  exact ⟨hin.1.trans hc.1, hc.2.trans_le hin.2⟩

theorem VmMap.Laid.narrow_wirings (h : m.Laid)
    (hx : m.wirings x = some v) : v.wiredCount < 2 ^ 16 ∧ v.userWiredCount < 2 ^ 16 := by
  obtain ⟨e, he, rfl⟩ := Option.map_eq_some_iff.mp hx
  exact h.narrow e (mem_of_find?_eq_some he)

theorem VmMap.rangeCheck_mem (start stop : ℕ) (hmin : m.minOffset ≤ x) (hmax : x < m.maxOffset) :
    ((m.rangeCheck start stop).1 ≤ x ∧ x < (m.rangeCheck start stop).2) ↔ start ≤ x ∧ x < stop := by
  unfold VmMap.rangeCheck
  dsimp only
  split_ifs <;> omega

theorem VmMap.rangeCheck_le (m : VmMap) (start stop : ℕ) :
    (m.rangeCheck start stop).1 ≤ (m.rangeCheck start stop).2 := by
  unfold VmMap.rangeCheck
  dsimp only
  split_ifs <;> omega

theorem VmMap.Laid.range (h : m.Laid) {w' : ℕ → Option Wiring} {f : Wiring → Wiring}
    (hin : ∀ x, (m.rangeCheck start stop).1 ≤ x → x < (m.rangeCheck start stop).2 →
      w' x = (m.wirings x).map f)
    (hout : ∀ x, x < (m.rangeCheck start stop).1 ∨ (m.rangeCheck start stop).2 ≤ x →
      w' x = m.wirings x) (x : ℕ) :
    w' x = if start ≤ x ∧ x < stop then (m.wirings x).map f else m.wirings x := by
  cases hx : m.wirings x with
  | none =>
    by_cases hc : (m.rangeCheck start stop).1 ≤ x ∧ x < (m.rangeCheck start stop).2
    · rw [hin x hc.1 hc.2, hx]
      split <;> rfl
    · rw [hout x (by omega), hx]
      split <;> rfl
  | some v =>
    obtain ⟨hmin, hmax⟩ := h.bounds hx
    have hiff := VmMap.rangeCheck_mem start stop hmin hmax
    by_cases hc : start ≤ x ∧ x < stop
    · rw [if_pos hc, ← hx]
      exact hin x (hiff.mpr hc).1 (hiff.mpr hc).2
    · rw [if_neg hc, ← hx]
      refine hout x ?_
      have hn := fun hr => hc (hiff.mp hr)
      omega

omit [WireFaults α] in
theorem suffix_split (h : s.map.Laid) (hsplit : s.map.entries = pre ++ e :: post) :
    s.suffix (some e.id) = e :: post := by
  have hd := h.distinct
  rw [hsplit] at hd
  unfold suffix
  dsimp only
  rw [hsplit, List.dropWhile_append_of_pos (by simpa using hd.ne_of_split.1)]
  simp

theorem wirePass_map (stop : ℕ) (l : List VmMapEntry) (s : MapState α) :
    (wirePass stop s l).map.entries = s.map.entries ∧
      (s.map.Laid → (wirePass stop s l).map.Laid) := by
  unfold wirePass
  induction l.takeWhile fun entry => entry.vmeStart < stop generalizing s with
  | nil => exact ⟨rfl, id⟩
  | cons e l ih =>
    rw [List.foldl_cons]
    obtain ⟨hentries, hlaid⟩ := ih (if e.wiredCount = 1 ∧ e.userWiredCount ≤ 1 then
      (⟨(WireFaults.vmFaultWire s e).1, s.map.saveHint (WireFaults.vmFaultWire s e).2⟩ : MapState α)
      else s)
    refine ⟨hentries.trans ?_, fun h => hlaid ?_⟩
    · split <;> rfl
    · split
      · exact h.saveHint _
      · exact h

/-- What a call makes of the wiring of an address of its range. -/
def Wiring.change (accessType : VmProt) (userWire : Bool) (v : Wiring) : Wiring :=
  if accessType = vmProtNone then v.unwire userWire else v.wire userWire

/-- What a call that succeeds has found at every address of its range. -/
def Wiring.Allows (accessType : VmProt) (userWire : Bool) (v : Wiring) : Prop :=
  if accessType = vmProtNone then
    v.wiredCount ≠ 0 ∧ (userWire = true → v.userWiredCount ≠ 0)
  else v.protection.and accessType = accessType

/-- What a call makes of a map. -/
def WireStep (m m' : VmMap) (result : KernReturn) (start stop : ℕ) (accessType : VmProt)
    (userWire : Bool) : Prop :=
  result = .success ∧ m.RangeHas start stop (Allows accessType userWire) ∧
    (∀ x, m'.wirings x =
      if start ≤ x ∧ x < stop then (m.wirings x).map (change accessType userWire)
      else m.wirings x) ∨
  result ≠ .success ∧ ∀ x, m'.wirings x = m.wirings x

/-- The part of a call that unwires, after the lookup. -/
theorem unwire_call (h : s.map.Laid) (hsplit : s.map.entries = pre ++ e :: post)
    (stop : ℕ) (userWire : Bool) (hcovers : e.Covers start) :
    (s.clipStart e.id start).map.Laid ∧
    (∀ x, (s.clipStart e.id start).map.wirings x = s.map.wirings x) ∧
    (unwireCheck userWire stop ((s.clipStart e.id start).suffix (some e.id)) = true →
      (∀ x, start ≤ x → x < stop → ∃ v, s.map.wirings x = some v ∧
        v.wiredCount ≠ 0 ∧ (userWire = true → v.userWiredCount ≠ 0)) ∧
      (unwireLoop userWire stop (s.clipStart e.id start).map.entries.length
        (s.clipStart e.id start) (some e.id)).map.Laid ∧
      ∀ x, (unwireLoop userWire stop (s.clipStart e.id start).map.entries.length
        (s.clipStart e.id start) (some e.id)).map.wirings x =
          if start ≤ x ∧ x < stop then (s.map.wirings x).map (unwire userWire)
          else s.map.wirings x) := by
  obtain ⟨e', front, hcut⟩ := h.clipStart hsplit hcovers.2.le
  have hstart : e'.vmeStart = start := by rw [hcut.vmeStart, max_eq_right hcovers.1]
  have hasc := h.ascending
  rw [hsplit] at hasc
  have hbelow : ∀ a ∈ pre ++ front, a.vmeEnd ≤ start := by
    intro a ha
    rcases mem_append.mp ha with ha | ha
    · exact ((pairwise_append.mp hasc).2.2 a ha e mem_cons_self).trans hcovers.1
    · exact hcut.below a ha
  have hlaid' := hcut.laid.ascending
  rw [hcut.entries] at hlaid'
  have habove : ∀ a ∈ e' :: post, start ≤ a.vmeStart := by
    intro a ha
    rcases mem_cons.mp ha with rfl | ha
    · exact hstart.ge
    · have hafter := (pairwise_cons.mp (pairwise_append.mp hlaid').2.1).1 a ha
      have hend := hcut.vmeEnd
      have := hcovers.2
      omega
  have hsame : ∀ x, (s.clipStart e.id start).map.wirings x = s.map.wirings x := by
    intro x
    have hleft : pre ++ front ++ e' :: post = pre ++ ((front ++ [e']) ++ post) := by simp
    have hright : pre ++ e :: post = pre ++ ([e] ++ post) := by simp
    unfold VmMap.wirings
    rw [hcut.entries, hsplit, hleft, hright, wirings_append, wirings_append, hcut.wirings,
      ← wirings_append, ← wirings_append]
  have hparts : ∀ x, s.map.wirings x = (wirings (pre ++ front) x).or (wirings (e' :: post) x) := by
    intro x
    rw [← hsame, ← wirings_append, ← hcut.entries]
    rfl
  have hsuffix : (s.clipStart e.id start).suffix (some e.id) = e' :: post := by
    have hsuffix := suffix_split hcut.laid hcut.entries
    rwa [hcut.id] at hsuffix
  refine ⟨hcut.laid, hsame, fun hcheck => ⟨?_, ?_⟩⟩
  · intro x hlo hhi
    rw [hsuffix] at hcheck
    have hnone : wirings (pre ++ front) x = none :=
      wirings_of_le fun a ha => (hbelow a ha).trans hlo
    rw [hparts, hnone]
    exact unwireCheck_spec hcheck x (hstart.le.trans hlo) hhi
  · have hlen : (e' :: post).length ≤ (s.clipStart e.id start).map.entries.length := by
      rw [hcut.entries, length_append]
      omega
    obtain ⟨post', hlaid, hentries, hpost'⟩ :=
      unwireLoop_spec userWire stop _ hcut.laid hcut.entries hlen
    rw [head?_cons, Option.map_some, hcut.id] at hlaid hentries
    refine ⟨hlaid, fun x => ?_⟩
    have hresult : (unwireLoop userWire stop (s.clipStart e.id start).map.entries.length
        (s.clipStart e.id start) (some e.id)).map.wirings x =
          (wirings (pre ++ front) x).or (wirings post' x) := by
      unfold VmMap.wirings
      rw [hentries, wirings_append]
    rw [hresult, hpost', hparts]
    by_cases hlo : start ≤ x
    · have hnone : wirings (pre ++ front) x = none :=
        wirings_of_le fun a ha => (hbelow a ha).trans hlo
      rw [hnone]
      by_cases hhi : x < stop
      · rw [if_pos hhi, if_pos ⟨hlo, hhi⟩]
        simp only [Option.none_or]
      · rw [if_neg hhi, if_neg fun hc : start ≤ x ∧ x < stop => hhi hc.2]
    · have hnone : wirings (e' :: post) x = none :=
        wirings_of_lt fun a ha => (not_le.mp hlo).trans_le (habove a ha)
      rw [hnone, if_neg fun hc : start ≤ x ∧ x < stop => hlo hc.1]
      split <;> rfl

omit [WireFaults α] in
/-- The first pass of a call that wires. -/
theorem wire_call (h : s.map.Laid) (hsplit : s.map.entries = pre ++ e :: post)
    (accessType : VmProt) (userWire : Bool) (hcovers : e.Covers start) (hle : start ≤ stop) :
    (wireLoop start stop accessType userWire s.map.entries.length s
      (some e.id)).2.map.Laid ∧
    ((wireLoop start stop accessType userWire s.map.entries.length s
        (some e.id)).1 = .success ∧ Wires userWire accessType start stop s.map.wirings
        (wireLoop start stop accessType userWire s.map.entries.length s
          (some e.id)).2.map.wirings ∨
    (wireLoop start stop accessType userWire s.map.entries.length s
        (some e.id)).1 ≠ .success ∧
      ∀ x, (wireLoop start stop accessType userWire s.map.entries.length s
        (some e.id)).2.map.wirings x = s.map.wirings x) := by
  rcases hle.lt_or_eq with hlt | rfl
  · have hasc := h.ascending
    rw [hsplit] at hasc
    have hbelow : ∀ a ∈ pre, a.vmeEnd ≤ start := fun a ha =>
      ((pairwise_append.mp hasc).2.2 a ha e mem_cons_self).trans hcovers.1
    have hlen : (e :: post).length ≤ s.map.entries.length := by
      rw [hsplit, length_append]
      omega
    have hturn : AtTurn start stop [] (e :: post) :=
      .inl ⟨e, post, rfl, (max_eq_right hcovers.1).symm, hcovers.2, hcovers.1.trans_lt hlt⟩
    have hentries : s.map.entries = pre ++ [].map (wireEntry userWire) ++ e :: post := by
      rw [map_nil, append_nil, hsplit]
    obtain ⟨hlaid, hresult⟩ := wireLoop_spec userWire accessType hlt _ h hentries hlen hbelow
      (fun d hd => by cases hd) hturn
    rw [append_nil, ← hsplit, head?_cons, Option.map_some] at hresult
    refine ⟨hlaid, hresult.imp id fun hfail => ⟨?_, hfail.2⟩⟩
    rw [hfail.1]
    decide
  · obtain ⟨hlaid, hsame⟩ := wireLoop_empty userWire accessType h hsplit hcovers.2.le
      s.map.entries.length
    refine ⟨hlaid, ?_⟩
    by_cases hsuccess : (wireLoop start start accessType userWire s.map.entries.length s
        (some e.id)).1 = .success
    · exact .inl ⟨hsuccess, fun x hlo hhi => absurd hlo (not_le.mpr hhi), fun x _ => hsame x⟩
    · exact .inr ⟨hsuccess, hsame⟩

theorem vmMapPageableCommon_spec (h : s.map.Laid) (kernelPmap : Bool) (start stop : ℕ)
    (accessType : VmProt) (userWire : Bool) :
    (s.vmMapPageableCommon kernelPmap start stop accessType userWire).2.map.Laid ∧
    WireStep s.map (s.vmMapPageableCommon kernelPmap start stop accessType userWire).2.map
      (s.vmMapPageableCommon kernelPmap start stop accessType userWire).1 start stop accessType
      userWire := by
  have hle := s.map.rangeCheck_le start stop
  have hrange : ∀ {p : Wiring → Prop},
      (∀ x, (s.map.rangeCheck start stop).1 ≤ x → x < (s.map.rangeCheck start stop).2 →
        ∃ v, s.map.wirings x = some v ∧ p v) → s.map.RangeHas start stop p :=
    fun hp x hlo hhi hmin hmax =>
      have hin := (VmMap.rangeCheck_mem start stop hmin hmax).mpr ⟨hlo, hhi⟩
      hp x hin.1 hin.2
  obtain ⟨hint, hhint⟩ := s.map.lock.lookupEntry_map (s.map.rangeCheck start stop).1
  unfold vmMapPageableCommon
  dsimp only
  split
  case h_2 m hlookup =>
    rw [hlookup] at hhint
    subst hhint
    exact ⟨h.lock.saveHint hint, .inr ⟨fun hc => by (cases hc), fun _ => rfl⟩⟩
  case h_1 i m hlookup =>
    obtain ⟨e, he, rfl, hcovers⟩ := VmMap.lookupEntry_found hlookup
    obtain ⟨pre, post, hsplit⟩ := append_of_mem he
    rw [hlookup] at hhint
    change m = _ at hhint
    subst hhint
    set t : MapState α := ⟨s.kernel, s.map.lock.saveHint hint⟩
    have ht : t.map.Laid := h.lock.saveHint hint
    have hview : t.map.wirings = s.map.wirings := rfl
    split
    case isTrue hnone =>
      obtain ⟨hlaid, hsame, hunwire⟩ :=
        unwire_call ht hsplit (s.map.rangeCheck start stop).2 userWire hcovers
      split
      case isTrue hcheck =>
        obtain ⟨hfound, hlaid', hresult⟩ := hunwire hcheck
        refine ⟨hlaid', .inl ⟨rfl, hrange fun x hlo hhi => ?_, ?_⟩⟩
        · obtain ⟨v, hv, hrest⟩ := hfound x hlo hhi
          exact ⟨v, hv, by rwa [Allows, if_pos hnone]⟩
        · have hchange : change accessType userWire = unwire userWire := by
            funext v
            rw [change, if_pos hnone]
          rw [hchange]
          refine h.range (fun x hlo hhi => ?_) fun x hx => ?_
          · rw [hresult, if_pos ⟨hlo, hhi⟩, hview]
          · rw [hresult, if_neg (by omega), hview]
      case isFalse => exact ⟨hlaid, .inr ⟨fun hc => by (cases hc), hsame⟩⟩
    case isFalse hnone =>
      obtain ⟨hlaid, hresult⟩ := wire_call ht hsplit accessType userWire hcovers hle
      split
      case h_1 u hloop =>
        rw [hloop] at hlaid hresult
        obtain ⟨-, hin, hout⟩ := hresult.resolve_right fun hc => hc.1 rfl
        obtain ⟨hentries, hpass⟩ := wirePass_map (s.map.rangeCheck start stop).2
          (u.suffix (some e.id)) u
        have hlaid' := hpass hlaid
        refine ⟨?_, .inl ⟨rfl, hrange fun x hlo hhi => ?_, ?_⟩⟩
        · split
          · exact hlaid'.lock
          · exact hlaid'
        · obtain ⟨v, hv, hprot, -⟩ := hin x hlo hhi
          exact ⟨v, hv, by rwa [Allows, if_neg hnone]⟩
        · have hchange : change accessType userWire = wire userWire := by
            funext v
            rw [change, if_neg hnone]
          have hend : ∀ x, (if kernelPmap = true then
              (⟨(wirePass (s.map.rangeCheck start stop).2 u
                (u.suffix (some e.id))).kernel, (wirePass
                (s.map.rangeCheck start stop).2 u (u.suffix (some e.id))).map.lock⟩ : MapState α)
              else wirePass (s.map.rangeCheck start stop).2 u
                (u.suffix (some e.id))).map.wirings x = u.map.wirings x := by
            intro x
            unfold VmMap.wirings
            split
            · exact congrArg (fun l => wirings l x) hentries
            · rw [hentries]
          rw [hchange]
          refine h.range (fun x hlo hhi => ?_) fun x hx => ?_
          · obtain ⟨v, hv, -, hv'⟩ := hin x hlo hhi
            rw [hview] at hv
            rw [hend, hv', hv, Option.map_some]
          · rw [hend, hout x hx, hview]
      case h_2 r hnot =>
        rcases hresult with ⟨hsuccess, -⟩ | hfail
        · exact (hnot _ (Prod.ext hsuccess rfl)).elim
        · exact ⟨hlaid, .inr hfail⟩

/-! ## Runs -/

/-- No count is about to wrap, and the wiring that the kernel gives up is not that of the users. -/
def Wiring.Fits (accessType : VmProt) (userWire : Bool) (v : Wiring) : Prop :=
  if accessType = vmProtNone then
    userWire = false → v.userWiredCount ≠ 0 → v.wiredCount ≠ 1
  else if userWire then
    v.userWiredCount + 1 < 2 ^ 16 ∧ (v.userWiredCount = 0 → v.wiredCount + 1 < 2 ^ 16)
  else v.wiredCount + 1 < 2 ^ 16

/-- Where a call is about to succeed, no address of its range is at the limit. -/
def VmMap.Fits (m : VmMap) (start stop : ℕ) (accessType : VmProt) (userWire : Bool) : Prop :=
  m.RangeHas start stop (Allows accessType userWire) →
    ∀ x v, start ≤ x → x < stop → m.wirings x = some v → v.Fits accessType userWire

/-- The outstanding wirings of each address after a call. -/
def outstanding (count : ℕ → ℕ) (result : KernReturn) (accessType : VmProt) (start stop x : ℕ) :
    ℕ :=
  if result = .success ∧ start ≤ x ∧ x < stop then
    if accessType = vmProtNone then count x - 1 else count x + 1
  else count x

/-- The outstanding wirings of the kernel and of the users after a call. -/
def outstandingKernel (userWire : Bool) (count : ℕ → ℕ) (result : KernReturn) (accessType : VmProt)
    (start stop : ℕ) : ℕ → ℕ :=
  if userWire then count else outstanding count result accessType start stop

def outstandingUser (userWire : Bool) (count : ℕ → ℕ) (result : KernReturn) (accessType : VmProt)
    (start stop : ℕ) : ℕ → ℕ :=
  if userWire then outstanding count result accessType start stop else count

/-- Runs of calls that wire and unwire from a map without wirings, with the outstanding wirings of
the kernel and of the users. In a careful run every call fits. -/
inductive WireRun (careful : Bool) : (ℕ → ℕ) → (ℕ → ℕ) → MapState α → Prop
  | start (s : MapState α) (hlaid : s.map.Laid)
      (hnone : ∀ e ∈ s.map.entries, e.wiredCount = 0 ∧ e.userWiredCount = 0) :
      WireRun careful (fun _ => 0) (fun _ => 0) s
  | call {kernelWired userWired : ℕ → ℕ} {s : MapState α} (kernelPmap : Bool) (start stop : ℕ)
      (accessType : VmProt) (userWire : Bool) (hrun : WireRun careful kernelWired userWired s)
      (hcareful : careful = true → s.map.Fits start stop accessType userWire) :
      WireRun careful (outstandingKernel userWire kernelWired
          (s.vmMapPageableCommon kernelPmap start stop accessType userWire).1 accessType start stop)
        (outstandingUser userWire userWired
          (s.vmMapPageableCommon kernelPmap start stop accessType userWire).1 accessType start stop)
        (s.vmMapPageableCommon kernelPmap start stop accessType userWire).2

/-- The counts of an address are those of the outstanding wirings. -/
def Wiring.Exact (v : Wiring) (kernelWired userWired : ℕ) : Prop :=
  v.wiredCount = kernelWired + (if userWired = 0 then 0 else 1) ∧ v.userWiredCount = userWired

omit [WireFaults α] in
theorem Wiring.Exact.change {v : Wiring} {k u : ℕ} (h : v.Exact k u) {accessType : VmProt}
    {userWire : Bool} (hnarrow : v.wiredCount < 2 ^ 16 ∧ v.userWiredCount < 2 ^ 16)
    (hallows : v.Allows accessType userWire) (hfits : v.Fits accessType userWire) :
    (v.change accessType userWire).Exact
      (if userWire then k else if accessType = vmProtNone then k - 1 else k + 1)
      (if userWire then if accessType = vmProtNone then u - 1 else u + 1 else u) := by
  obtain ⟨hwired, rfl⟩ := h
  unfold Wiring.Allows at hallows
  unfold Wiring.Fits at hfits
  unfold Wiring.change
  by_cases hnone : accessType = vmProtNone
  · rw [if_pos hnone] at hallows hfits ⊢
    cases userWire with
    | true =>
      have hpos := hallows.2 rfl
      have hpred := ushortPred_of_pos hnarrow.2 hpos
      have hpred' := ushortPred_of_pos hnarrow.1 hallows.1
      rw [if_neg hpos] at hwired
      refine ⟨?_, ?_⟩
      · simp only [Wiring.unwire, if_true, hnone, hpred, hpred']
        split_ifs <;> omega
      · simp only [Wiring.unwire, if_true, hnone, hpred]
    | false =>
      have hpred := ushortPred_of_pos hnarrow.1 hallows.1
      have hne := hfits rfl
      refine ⟨?_, rfl⟩
      simp only [Wiring.unwire, Bool.false_eq_true, if_false, if_true, hnone, hpred]
      have hpos := hallows.1
      split_ifs at hwired ⊢ with hzero
      · omega
      · have := hne hzero
        omega
  · rw [if_neg hnone] at hallows hfits ⊢
    cases userWire with
    | true =>
      rw [if_pos rfl] at hfits
      have hsucc := ushortSucc_of_lt hfits.1
      refine ⟨?_, ?_⟩
      · simp only [Wiring.wire, if_true, hnone, if_false]
        rw [if_neg (Nat.succ_ne_zero _)]
        by_cases hzero : v.userWiredCount = 0
        · rw [if_pos hzero, ushortSucc_of_lt (hfits.2 hzero), hwired, if_pos hzero]
        · rw [if_neg hzero, hwired, if_neg hzero]
      · simp only [Wiring.wire, if_true, hnone, if_false, hsucc]
    | false =>
      rw [if_neg Bool.false_ne_true] at hfits
      have hsucc := ushortSucc_of_lt hfits
      refine ⟨?_, rfl⟩
      simp only [Wiring.wire, Bool.false_eq_true, if_false, hnone, hsucc]
      omega

theorem WireRun.laid {careful : Bool}
    (h : WireRun careful kernelWired userWired s) : s.map.Laid := by
  induction h with
  | start _ hlaid _ => exact hlaid
  | call kernelPmap start stop accessType userWire _ _ ih =>
    exact (vmMapPageableCommon_spec ih kernelPmap start stop accessType userWire).1

/-- A call of a careful run keeps the counts those of the outstanding wirings. -/
theorem exact_call (h : s.map.Laid)
    (hexact : ∀ x v, s.map.wirings x = some v → v.Exact (kernelWired x) (userWired x))
    (kernelPmap : Bool) (start stop : ℕ) (accessType : VmProt) (userWire : Bool)
    (hfits : s.map.Fits start stop accessType userWire) (x : ℕ) (v : Wiring)
    (hv : (s.vmMapPageableCommon kernelPmap start stop accessType userWire).2.map.wirings x =
      some v) : v.Exact (outstandingKernel userWire kernelWired
        (s.vmMapPageableCommon kernelPmap start stop accessType userWire).1 accessType start stop x)
      (outstandingUser userWire userWired
        (s.vmMapPageableCommon kernelPmap start stop accessType userWire).1 accessType start stop
        x) := by
  set result := (s.vmMapPageableCommon kernelPmap start stop accessType userWire).1
  have hother : ¬(result = .success ∧ start ≤ x ∧ x < stop) → s.map.wirings x = some v →
      v.Exact (outstandingKernel userWire kernelWired result accessType start stop x)
        (outstandingUser userWire userWired result accessType start stop x) := by
    intro hc hv
    have hno : ∀ count, outstanding count result accessType start stop x = count x :=
      fun _ => if_neg hc
    unfold outstandingKernel outstandingUser
    split
    · rw [hno]
      exact hexact x v hv
    · rw [hno]
      exact hexact x v hv
  obtain ⟨-, ⟨hresult, hallows, hchange⟩ | ⟨hresult, hsame⟩⟩ :=
    vmMapPageableCommon_spec h kernelPmap start stop accessType userWire
  · rw [hchange] at hv
    by_cases hc : start ≤ x ∧ x < stop
    · rw [if_pos hc] at hv
      obtain ⟨w, hw, rfl⟩ := Option.map_eq_some_iff.mp hv
      obtain ⟨hmin, hmax⟩ := h.bounds hw
      obtain ⟨w', hw', hallow⟩ := hallows x hc.1 hc.2 hmin hmax
      cases hw.symm.trans hw'
      have hafter := (hexact x w hw).change (h.narrow_wirings hw) hallow
        (hfits hallows x w hc.1 hc.2 hw)
      have hin : ∀ count, outstanding count result accessType start stop x =
          if accessType = vmProtNone then count x - 1 else count x + 1 :=
        fun _ => if_pos ⟨hresult, hc⟩
      unfold outstandingKernel outstandingUser
      cases userWire with
      | true =>
        rw [if_pos rfl, if_pos rfl, hin]
        exact hafter
      | false =>
        rw [if_neg Bool.false_ne_true, if_neg Bool.false_ne_true, hin]
        exact hafter
    · rw [if_neg hc] at hv
      exact hother (fun hp => hc hp.2) hv
  · rw [hsame] at hv
    exact hother (fun hp => hresult hp.1) hv

/-- In a careful run the counts of every address are those of the outstanding wirings; and a call
that fails changes no count, in any run. -/
theorem wireCounts_run {careful : Bool} {kernelWired userWired : ℕ → ℕ}
    (h : WireRun careful kernelWired userWired s) :
    (careful = true → ∀ x v, s.map.wirings x = some v → v.Exact (kernelWired x) (userWired x)) ∧
    ∀ kernelPmap start stop accessType userWire,
      (s.vmMapPageableCommon kernelPmap start stop accessType userWire).1 ≠ .success →
      ∀ x, (s.vmMapPageableCommon kernelPmap start stop accessType userWire).2.map.wirings x =
        s.map.wirings x := by
  have hlaid := h.laid
  refine ⟨fun hcareful => ?_, fun kernelPmap start stop accessType userWire hfail => ?_⟩
  · induction h with
    | start s _ hnone =>
      intro x v hv
      obtain ⟨e, he, rfl⟩ := Option.map_eq_some_iff.mp hv
      exact hnone e (mem_of_find?_eq_some he)
    | call kernelPmap start stop accessType userWire hrun hfits ih =>
      exact exact_call hrun.laid (ih hrun.laid) kernelPmap start stop accessType userWire
        (hfits hcareful)
  · obtain ⟨-, ⟨hresult, -⟩ | ⟨-, hsame⟩⟩ :=
      vmMapPageableCommon_spec hlaid kernelPmap start stop accessType userWire
    · exact absurd hresult hfail
    · exact hsame

omit [WireFaults α] in
theorem Wiring.unwire_wire {v : Wiring} {userWire : Bool}
    (hnarrow : v.wiredCount < 2 ^ 16 ∧ v.userWiredCount < 2 ^ 16)
    (hallows : (v.wire userWire).Allows vmProtNone userWire) :
    (v.wire userWire).unwire userWire = v := by
  have hwired := ushortPred_succ hnarrow.1
  cases userWire with
  | false =>
    unfold unwire wire
    simp only [Bool.false_eq_true, if_false, hwired]
  | true =>
    -- a count that has wrapped around is not given up
    have huser := ushortPred_succ hnarrow.2
    unfold unwire wire
    simp only [if_true, huser]
    by_cases hzero : v.userWiredCount = 0
    · simp only [if_pos hzero, hwired]
    · simp only [if_neg hzero]

/-- What is wired is given up again, the last first; and there are calls that fail. -/
inductive Nested : MapState α → MapState α → Prop
  | done (s : MapState α) : Nested s s
  | fail {s t : MapState α} (kernelPmap : Bool) (start stop : ℕ) (accessType : VmProt)
      (userWire : Bool)
      (hfail : (s.vmMapPageableCommon kernelPmap start stop accessType userWire).1 ≠ .success)
      (hrest : Nested (s.vmMapPageableCommon kernelPmap start stop accessType userWire).2 t) :
      Nested s t
  | wire {s t u : MapState α} (kernelPmap : Bool) (start stop : ℕ) (accessType : VmProt)
      (userWire : Bool) (hwire : accessType ≠ vmProtNone)
      (hdone : (s.vmMapPageableCommon kernelPmap start stop accessType userWire).1 = .success)
      (hin : Nested (s.vmMapPageableCommon kernelPmap start stop accessType userWire).2 t)
      (hundone : (t.vmMapPageableCommon kernelPmap start stop vmProtNone userWire).1 = .success)
      (hrest : Nested (t.vmMapPageableCommon kernelPmap start stop vmProtNone userWire).2 u) :
      Nested s u

/-- Nested calls leave the wirings of every address as they were, however the counts wrap. -/
theorem nested_wirings {t : MapState α} (h : Nested s t) (hlaid : s.map.Laid) :
    t.map.Laid ∧ ∀ x, t.map.wirings x = s.map.wirings x := by
  induction h with
  | done s => exact ⟨hlaid, fun _ => rfl⟩
  | fail kernelPmap start stop accessType userWire hfail _ ih =>
    obtain ⟨hlaid', ⟨hresult, -⟩ | ⟨-, hsame⟩⟩ :=
      vmMapPageableCommon_spec hlaid kernelPmap start stop accessType userWire
    · exact absurd hresult hfail
    · exact ⟨(ih hlaid').1, fun x => ((ih hlaid').2 x).trans (hsame x)⟩
  | @wire s t u kernelPmap start stop accessType userWire hwire hdone _ hundone _ ihin ihrest =>
    obtain ⟨hlaid', ⟨-, -, hchange⟩ | ⟨hresult, -⟩⟩ :=
      vmMapPageableCommon_spec hlaid kernelPmap start stop accessType userWire
    swap
    · exact absurd hdone hresult
    obtain ⟨hlaid', hin⟩ := ihin hlaid'
    obtain ⟨hlaid'', ⟨-, hallows, hback⟩ | ⟨hresult, -⟩⟩ :=
      vmMapPageableCommon_spec hlaid' kernelPmap start stop vmProtNone userWire
    swap
    · exact absurd hundone hresult
    obtain ⟨hend, hrest⟩ := ihrest hlaid''
    refine ⟨hend, fun x => ?_⟩
    rw [hrest, hback]
    split_ifs with hc
    · cases hv : s.map.wirings x with
      | none => rw [hin, hchange, if_pos hc, hv]; rfl
      | some v =>
        have hwired : t.map.wirings x = some (v.wire userWire) := by
          rw [hin, hchange, if_pos hc, hv, Option.map_some, Wiring.change, if_neg hwire]
        obtain ⟨hmin, hmax⟩ := hlaid'.bounds hwired
        obtain ⟨w, hw, hallow⟩ := hallows x hc.1 hc.2 hmin hmax
        cases hwired.symm.trans hw
        rw [hwired, Option.map_some, Wiring.change, if_pos rfl,
          Wiring.unwire_wire (hlaid.narrow_wirings hv) hallow]
    · rw [hin, hchange, if_neg hc]

end

/-- Faults that find the pages of an entry in memory. -/
@[reducible] def residentFaults : WireFaults ℕ where
  vmFaultWire s _ := (s.kernel, s.map.hint)
  vmFaultUnwire s _ := (s.kernel, s.map.hint)

/-- One entry with an object, in a map of its size. -/
def wiredMap (user wired timestamp : ℕ) : MapState ℕ where
  kernel := writableMap.kernel
  map :=
    { VmMap.create 0 16 with
      entries := [{ writableEntry with
        object := some 0, wiredCount := wired, userWiredCount := user }]
      nentries := 1
      size := 16
      hint := some 0
      timestamp := timestamp
      nextId := 1 }

theorem wiredMap_wireTurn (user wired timestamp : ℕ) :
    (wiredMap user wired timestamp).wireTurn 0 16 true 0 =
      wiredMap (ushortSucc user) (if user = 0 then ushortSucc wired else wired) timestamp := by
  have hclip : (wiredMap user wired timestamp).clipEnd 0 16 = wiredMap user wired timestamp := rfl
  have hobject : (wiredMap user wired timestamp).createObject 0 =
      wiredMap user wired timestamp := by
    have hat : (wiredMap user wired timestamp).map.entryAt 0 = some { writableEntry with
      object := some 0, wiredCount := wired, userWiredCount := user } := rfl
    unfold createObject
    rw [hat]
    exact ite_self _
  unfold wireTurn
  rw [hclip, hobject]
  rfl

theorem wiredMap_wire (user wired timestamp : ℕ) : letI := residentFaults
    (wiredMap user wired timestamp).vmMapPageableUser false 0 16 vmProtDefault =
      (.success, wiredMap (ushortSucc user) (if user = 0 then ushortSucc wired else wired)
        (timestamp + 1)) := by
  let _ := residentFaults
  have hloop : wireLoop 0 16 vmProtDefault true
      (wiredMap user wired (timestamp + 1)).map.entries.length
      ⟨(wiredMap user wired timestamp).kernel, (wiredMap user wired (timestamp + 1)).map⟩ (some 0) =
      (.success, wiredMap (ushortSucc user) (if user = 0 then ushortSucc wired else wired)
        (timestamp + 1)) := by
    change wireLoop 0 16 vmProtDefault true 1 (wiredMap user wired (timestamp + 1))
      (some 0) = _
    rw [← wiredMap_wireTurn]
    generalize hturn : (wiredMap user wired (timestamp + 1)).wireTurn 0 16 true 0 = t
    unfold wireLoop
    have hat : (wiredMap user wired (timestamp + 1)).map.entryAt 0 = some { writableEntry with
      object := some 0, wiredCount := wired, userWiredCount := user } := rfl
    rw [hat]
    dsimp only
    rw [if_pos (by decide), hturn, ← hturn, wiredMap_wireTurn]
    rfl
  have hpass : ∀ u w t l, wirePass 16 (wiredMap u w t) l = wiredMap u w t := by
    intro u w t l
    unfold wirePass
    induction l.takeWhile fun e => e.vmeStart < 16 with
    | nil => rfl
    | cons e l ih =>
      rw [List.foldl_cons]
      have hturn : (if e.wiredCount = 1 ∧ e.userWiredCount ≤ 1 then wiredMap u w t
          else wiredMap u w t) = wiredMap u w t := ite_self _
      change List.foldl _ (if e.wiredCount = 1 ∧ e.userWiredCount ≤ 1 then wiredMap u w t
          else wiredMap u w t) l = _
      rw [hturn]
      exact ih
  have hrange : (wiredMap user wired timestamp).map.rangeCheck 0 16 = (0, 16) := rfl
  have hlookup : (wiredMap user wired timestamp).map.lock.lookupEntry 0 =
      (true, some 0, (wiredMap user wired (timestamp + 1)).map) := rfl
  unfold vmMapPageableUser vmMapPageableCommon
  rw [hrange]
  dsimp only
  rw [hlookup]
  dsimp only
  rw [if_neg (by decide)]
  rw [hloop]
  exact congrArg _ (hpass _ _ _ _)

theorem wiredMap_laid : (wiredMap 0 0 0).map.Laid := by
  constructor
  · exact pairwise_singleton _ _
  · simp [wiredMap, writableEntry]
  · simp [wiredMap, writableEntry, VmMap.create]
  · simp [wiredMap, Distinct]
  · simp [wiredMap, writableEntry]
  · simp [wiredMap]

theorem nested_wirings_user : letI := residentFaults
    ∃ t : MapState ℕ, t.map.Laid ∧ ∀ x, t.map.wirings x = (wiredMap 0 0 0).map.wirings x := by
  let _ := residentFaults
  have hwire := wiredMap_wire 0 0 0
  exact ⟨_, nested_wirings (.wire false 0 16 vmProtDefault true (by decide)
    (congrArg Prod.fst hwire) (.done _) (by
      rw [show MapState.vmMapPageableCommon _ false 0 16 vmProtDefault true = _ from hwire]
      decide +kernel) (.done _)) wiredMap_laid⟩

theorem wireRun_users (n : ℕ) : letI := residentFaults
    ∃ wired timestamp kernelWired userWired, WireRun false kernelWired userWired
      (wiredMap (n % 2 ^ 16) wired timestamp) ∧ kernelWired 0 = 0 ∧ userWired 0 = n := by
  let _ := residentFaults
  induction n with
  | zero => exact ⟨0, 0, _, _, .start _ wiredMap_laid (by simp [wiredMap]), rfl, rfl⟩
  | succ n ih =>
    obtain ⟨wired, timestamp, kernelWired, userWired, hrun, hkernel, huser⟩ := ih
    have hcall := hrun.call false 0 16 vmProtDefault true fun hc => by cases hc
    have hsucc : ushortSucc (n % 2 ^ 16) = (n + 1) % 2 ^ 16 := by
      unfold ushortSucc
      omega
    have hwire := wiredMap_wire (n % 2 ^ 16) wired timestamp
    rw [hsucc] at hwire
    rw [show vmMapPageableCommon _ false 0 16 vmProtDefault true = _ from hwire] at hcall
    refine ⟨_, _, _, _, hcall, hkernel, ?_⟩
    change outstanding userWired .success vmProtDefault 0 16 0 = n + 1
    rw [outstanding, if_pos (by decide), if_neg (by decide), huser]

theorem wireCounts_run_user : letI := residentFaults
    ∃ (s : MapState ℕ) (v : Wiring), s.map.wirings 0 = some v ∧ v.Exact 0 1 := by
  let _ := residentFaults
  have hfits : (wiredMap 0 0 0).map.Fits 0 16 vmProtDefault true := by
    intro _ x v _ _ hv
    obtain ⟨e, he, rfl⟩ := Option.map_eq_some_iff.mp hv
    rw [mem_singleton.mp (mem_of_find?_eq_some he), Wiring.Fits, if_neg (by decide), if_pos rfl]
    decide
  have hstart : WireRun true _ _ _ :=
    .start (wiredMap 0 0 0) wiredMap_laid (by simp [wiredMap])
  have hrun := hstart.call false 0 16 vmProtDefault true fun _ => hfits
  rw [show MapState.vmMapPageableCommon _ false 0 16 vmProtDefault true = _ from
    wiredMap_wire 0 0 0] at hrun
  exact ⟨wiredMap _ _ 1, _, rfl, (wireCounts_run hrun).1 rfl 0 _ rfl⟩

/-- After 65536 wirings the users' count is zero; and the kernel may give up their wiring. -/
theorem wireCounts_wrap : letI := residentFaults
    (∃ (s : MapState ℕ) (kernelWired userWired : ℕ → ℕ) (v : Wiring),
      WireRun false kernelWired userWired s ∧ userWired 0 = 65536 ∧ s.map.wirings 0 = some v ∧
        v.userWiredCount = 0 ∧ ¬v.Exact (kernelWired 0) (userWired 0)) ∧
    ∃ (s : MapState ℕ) (kernelWired userWired : ℕ → ℕ) (v : Wiring),
      WireRun false kernelWired userWired s ∧ userWired 0 = 1 ∧ s.map.wirings 0 = some v ∧
        v.wiredCount = 0 ∧ ¬v.Exact (kernelWired 0) (userWired 0) := by
  let _ := residentFaults
  refine ⟨?_, ?_⟩
  · obtain ⟨wired, timestamp, kernelWired, userWired, hrun, -, huser⟩ := wireRun_users 65536
    refine ⟨_, _, _, ⟨wired, 0, vmProtDefault⟩, hrun, huser, rfl, rfl, fun hc => ?_⟩
    have hzero : 0 = userWired 0 := hc.2
    omega
  · have hstart : WireRun false _ _ _ :=
      .start (wiredMap 0 0 0) wiredMap_laid (by simp [wiredMap])
    have hrun := hstart.call false 0 16 vmProtDefault true fun hc => by cases hc
    rw [show MapState.vmMapPageableCommon _ false 0 16 vmProtDefault true = _ from
      wiredMap_wire 0 0 0] at hrun
    have hrun' := hrun.call false 0 16 vmProtNone false fun hc => by cases hc
    refine ⟨_, _, _, ⟨0, 1, vmProtDefault⟩, hrun', rfl, ?_, rfl, fun hc => ?_⟩
    · decide +kernel
    · exact absurd hc.1 (by decide +kernel)

end MachKernel.Vm
