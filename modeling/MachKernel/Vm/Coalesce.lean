import MachKernel.Vm.Enter
import MachKernel.Vm.Refs

/-! Extending the object below a new range (`vm_object_coalesce`). -/

namespace MachKernel.Vm
open List Option
open Word32 Linked Links

variable {α : Type*}

/-! ## Removing pages -/

section
variable [PageSize] {ob : VmObject α} {start stop off : ℕ}

theorem pageRemoveLookup_eq (n : ℕ) : ∃ l a, pageRemoveLookup ob start n =
    { ob with memq := l, absentCount := a } := by
  induction n generalizing ob start with
  | zero => exact ⟨_, _, rfl⟩
  | succ n ih =>
    obtain ⟨l, a, h⟩ : ∃ l a, pageRemoveLookup (ob.pageFree start) (add start pageSize) n =
      { ob.pageFree start with memq := l, absentCount := a } := ih
    exact ⟨l, a, h⟩

theorem pageRemoveLookup_none (n : ℕ) (h : ob.pageLookup off = none) :
    (pageRemoveLookup ob start n).pageLookup off = none := by
  induction n generalizing ob start with
  | zero => exact h
  | succ n ih =>
    refine ih ?_
    rw [VmObject.pageLookup_pageFree]
    split_ifs
    · rfl
    · exact h

theorem pageRemoveLookup_gone {n k : ℕ} (hk : k < n) (hlt : start + k * pageSize < modulus) :
    (pageRemoveLookup ob start n).pageLookup (start + k * pageSize) = none := by
  induction n generalizing ob start k with
  | zero => cases hk
  | succ n ih =>
    cases k with
    | zero =>
      refine pageRemoveLookup_none n ?_
      rw [VmObject.pageLookup_pageFree, if_pos (by simp)]
    | succ k =>
      have hstep : add start pageSize = start + pageSize := by
        refine add_of_lt ?_
        have : pageSize ≤ (k + 1) * pageSize := Nat.le_mul_of_pos_left _ (by omega)
        omega
      have hsum : start + (k + 1) * pageSize = add start pageSize + k * pageSize := by
        rw [hstep]
        ring
      rw [hsum] at hlt ⊢
      exact ih (by omega) hlt

theorem vmObjectPageRemove_eq (ob : VmObject α) (start stop : ℕ) :
    ∃ l a, vmObjectPageRemove ob start stop = { ob with memq := l, absentCount := a } := by
  unfold vmObjectPageRemove
  split_ifs
  · exact pageRemoveLookup_eq _
  · exact pageRemoveLookup_eq _
  · exact ⟨_, _, rfl⟩

theorem vmObjectPageRemove_gone {k : ℕ} (hstop : stop < modulus)
    (hlt : start + k * pageSize < stop) :
    (vmObjectPageRemove ob start stop).pageLookup (start + k * pageSize) = none := by
  unfold vmObjectPageRemove
  split_ifs with hfew hle
  · refine pageRemoveLookup_gone ?_ (by omega)
    refine (Nat.lt_div_iff_mul_lt pageSize_pos).mpr ?_
    unfold pageMask
    omega
  · omega
  · apply find?_eq_none.mpr
    intro p hp hoff
    simp only [mem_filter, decide_eq_true_eq] at hp hoff
    exact hp.2 (by omega)

theorem vmObjectPageRemove_wrapped (h : stop ≤ start) : vmObjectPageRemove ob start stop = ob := by
  unfold vmObjectPageRemove
  rw [if_neg (show ¬ start < stop by omega)]
  split_ifs
  · rfl
  · have hno : ∀ p : VmPage α, ¬ (start ≤ p.offset ∧ p.offset < stop) := fun p => by omega
    simp [hno]

end

/-! ## What the collapse leaves at a place -/

section
variable {st st' st₀ : ObjectStore α} {ext : ObjId → ℕ} {o b : ObjId}
  {object object' backing : VmObject α}

theorem absorbPages_lookup {bo size : ℕ} {ps : List (VmPage α)}
    (hlt : ∀ p ∈ ps, p.offset < modulus)
    (h : ps.foldlM (absorbPage bo size) object = some object') :
    (∃ l, object' = { object with memq := l }) ∧
      ∀ off, object'.pageLookup off = (object.pageLookup off).or (if off < size then
        (ps.find? fun p => p.offset = off + bo).map (VmPage.moved bo) else none) := by
  induction ps generalizing object with
  | nil =>
    cases h
    exact ⟨⟨_, rfl⟩, fun off => by simp⟩
  | cons p ps ih =>
    have hp := hlt p mem_cons_self
    rw [foldlM_cons, Option.bind_eq_bind, bind_eq_some_iff] at h
    obtain ⟨object₁, hpage, h⟩ := h
    obtain ⟨⟨l, rfl⟩, hl⟩ := ih (fun q hq => hlt q (mem_cons_of_mem _ hq)) h
    unfold absorbPage at hpage
    simp only at hpage
    split at hpage
    · next hout =>
      cases hpage
      refine ⟨⟨l, rfl⟩, fun off => ?_⟩
      rw [hl off]
      split_ifs with hoff
      · have hne : p.offset ≠ off + bo := by
          rintro heq
          rw [sub_of_le hp (by omega)] at hout
          omega
        rw [find?_cons_of_neg (by simpa using hne)]
      · rfl
    · next hin =>
      have hsub := sub_of_le hp (not_lt.mp fun h => hin (.inl h))
      have heq : ∀ off, p.offset = off + bo ↔ sub p.offset bo = off := by
        intro off
        rw [hsub]
        omega
      split at hpage
      · next pp hpp =>
        split at hpage
        · cases hpage
        cases hpage
        refine ⟨⟨l, rfl⟩, fun off => ?_⟩
        rw [hl off]
        by_cases hoff : p.offset = off + bo
        · rw [(heq off).mp hoff] at hpp
          rw [hpp, some_or, some_or]
        · rw [find?_cons_of_neg (by simpa using hoff)]
      · next hnone =>
        cases hpage
        refine ⟨⟨l, rfl⟩, fun off => ?_⟩
        rw [hl off, VmObject.pageLookup_pageInsert]
        by_cases hoff : p.offset = off + bo
        · have hs := (heq off).mp hoff
          rw [hs] at hnone
          have hsize : off < size := by omega
          rw [hnone, if_pos hs, if_pos hsize, find?_cons_of_pos (by simpa using hoff)]
          simp [VmPage.moved, hsize]
        · rw [if_neg (fun h => hoff ((heq off).mpr h)), or_none,
            find?_cons_of_neg (by simpa using hoff)]

/-- The first object down a chain with a page at the place that an object shows at `off`, its window
on the chain starting at `so`, has the data `v` there. -/
inductive FoundBelow (st : ObjectStore α) (off : ℕ) (v : α) : Option ObjId → ℕ → Prop
  | here {i : ObjId} {ob : VmObject α} {so : ℕ} (hob : st.objs i = some ob)
      (hv : ob.resident (off + so) = some v) : FoundBelow st off v (some i) so
  | shadow {i : ObjId} {ob : VmObject α} {so : ℕ} (hob : st.objs i = some ob)
      (hnone : ob.pageLookup (off + so) = none)
      (h : FoundBelow st off v ob.shadow (add so ob.shadowOffset)) : FoundBelow st off v (some i) so

/-- Data in a page of the object itself or, inside its size, in one that comes up to it when all
of the chain below is collapsed. -/
def Leftover (st : ObjectStore α) (ob : VmObject α) (off : ℕ) (v : α) : Prop :=
  ob.resident off = some v ∨
    ob.pageLookup off = none ∧ off < ob.size ∧ FoundBelow st off v ob.shadow ob.shadowOffset

/-- The pages of a store have 32-bit offsets. -/
def PagesBounded (st : ObjectStore α) : Prop :=
  ∀ i ob, st.objs i = some ob → ∀ p ∈ ob.memq, p.offset < modulus

variable {ob object₀ : VmObject α} {g : CollapseGlobals} {lockTry : ℕ → Bool}

theorem foundBelow_iff {i : ObjId} {off so : ℕ} {v : α}
    (hob : st.objs i = some ob) : FoundBelow st off v (some i) so ↔
      ob.resident (off + so) = some v ∨ ob.pageLookup (off + so) = none ∧
        FoundBelow st off v ob.shadow (add so ob.shadowOffset) := by
  constructor
  · intro h
    cases h with
    | here hob' hv =>
      obtain rfl := some.inj (hob.symm.trans hob')
      exact .inl hv
    | shadow hob' hnone h =>
      obtain rfl := some.inj (hob.symm.trans hob')
      exact .inr ⟨hnone, h⟩
  · rintro (hv | ⟨hnone, h⟩)
    · exact .here hob hv
    · exact .shadow hob hnone h

theorem VmObject.resident_of_none {off : ℕ} (h : ob.pageLookup off = none) :
    ob.resident off = none := by rw [VmObject.resident, h, Option.bind_none]

/-- Where the turns of the loop have brought the store `st₀`, the object at `o` having become
`object`. -/
structure Collapsed (st₀ st : ObjectStore α) (ext : ObjId → ℕ) (o : ObjId)
    (object₀ object : VmObject α) : Prop where
  chains : ChainsOk st ext
  hobject : st.objs o = some object
  other : ∀ i ≠ o, ∀ a, st.objs i = some a →
    ∃ a₀ n, st₀.objs i = some a₀ ∧ a = { a₀ with refCount := n }
  kept : ∀ i, (st₀.objs i).isSome → (st.objs i).isSome ∨ ext i = 0
  pagerData : st.pagerData = st₀.pagerData
  left : ∀ off v, Leftover st₀ object off v ↔ Leftover st₀ object₀ off v

theorem leftover_takeOver {n off : ℕ} {l : List (VmPage α)} (hbacking : st.objs b = some backing)
    (hshadow : object.shadow = some b)
    (hlookup : VmObject.pageLookup { object with memq := l } off =
      (object.pageLookup off).or (if off < object.size then
        (backing.pageLookup (off + object.shadowOffset)).map (VmPage.moved object.shadowOffset)
        else none)) (v : α) :
    Leftover st (VmObject.takeOver { object with memq := l } { backing with refCount := n }) off v ↔
      Leftover st object off v := by
  have htake : (VmObject.takeOver { object with memq := l }
      { backing with refCount := n }).pageLookup off =
        VmObject.pageLookup { object with memq := l } off := rfl
  unfold Leftover VmObject.resident
  rw [htake, hlookup, hshadow, foundBelow_iff hbacking]
  cases hl : object.pageLookup off with
  | some p => simp
  | none =>
    by_cases hoff : off < object.size
    · cases hb : backing.pageLookup (off + object.shadowOffset) with
      | none => simp [VmObject.resident, VmObject.takeOver, hoff, hb]
      | some p => by_cases ha : p.absent <;> simp [VmObject.resident, hoff, hb, ha]
    · simp [VmObject.takeOver, hoff]

theorem Collapsed.absorb (h : Collapsed st₀ st ext o object₀ object)
    (hpages : PagesBounded st₀) (hshadow : object.shadow = some b)
    (hbacking : st.objs b = some backing) (href : backing.refCount = 1)
    (hst' : st.absorb o b object backing = .again st') :
    ∃ object', Collapsed st₀ st' ext o object₀ object' := by
  have hne : o ≠ b := h.chains.acyclic.ne ((st.shadowOf_eq h.hobject).trans hshadow)
  obtain ⟨a₀, n, ha₀, rfl⟩ := h.other b hne.symm backing hbacking
  obtain ⟨hext, -⟩ := h.chains.only_parent hbacking href ((st.shadowOf_eq h.hobject).trans hshadow)
  unfold ObjectStore.absorb at hst'
  split at hst'
  · cases hst'
  next object' hfold =>
  simp only at hst'
  split at hst'
  · cases hst'
  cases hst'
  obtain ⟨⟨l, rfl⟩, hlookup⟩ := absorbPages_lookup (hpages b a₀ ha₀) hfold
  obtain ⟨hchains, hkept⟩ := h.chains.absorb h.hobject hshadow hbacking href
    (show VmObject.refCount { object with memq := l } = object.refCount from rfl)
  refine ⟨VmObject.takeOver { object with memq := l } { a₀ with refCount := n }, hchains, ?_,
    fun i hio a ha => ?_, fun i hi => ?_, ?_, fun off v => ?_⟩
  · rw [objs_absorb _ hne, if_pos rfl]
  · have hib : i ≠ b := by
      rintro rfl
      simp at ha
    rw [objs_absorb _ hib, if_neg hio] at ha
    exact h.other i hio a ha
  · by_cases hib : i = b
    · exact .inr (hib ▸ hext)
    · exact (h.kept i hi).imp_left (hkept i hib)
  · simp [ObjectStore.handOver, h.pagerData]
  · rw [← h.left off v]
    exact leftover_takeOver ha₀ hshadow (hlookup off) v

theorem Collapsed.bypass (h : Collapsed st₀ st ext o object₀ object)
    (hpages : PagesBounded st₀) (hshadow : object.shadow = some b)
    (hbacking : st.objs b = some backing)
    (hscan : backing.memq.any (pageNeeded object.shadowOffset object.size object) = false) :
    Collapsed st₀ (st.bypass o b object backing) ext o object₀ { object with
      shadow := backing.shadow
      shadowOffset := add object.shadowOffset backing.shadowOffset } := by
  have hne : o ≠ b := h.chains.acyclic.ne ((st.shadowOf_eq h.hobject).trans hshadow)
  obtain ⟨a₀, n, ha₀, rfl⟩ := h.other b hne.symm backing hbacking
  obtain ⟨hchains, hkept⟩ := h.chains.bypass h.hobject hshadow hbacking
  refine ⟨hchains, objs_bypass_self h.chains.acyclic h.hobject hshadow hbacking,
    fun i hio a ha => ?_, fun i hi => (h.kept i hi).imp_left (hkept i), ?_, fun off v => ?_⟩
  · rw [objs_bypass_of_ne hio] at ha
    obtain ⟨a₁, ha₁, rfl⟩ := map_eq_some_iff.mp ha
    obtain ⟨a₂, n₂, ha₂, rfl⟩ := h.other i hio a₁ ha₁
    exact ⟨a₂, _, ha₂, rfl⟩
  · simp [ObjectStore.bypass, h.pagerData]
  · rw [← h.left off v]
    unfold Leftover
    rw [hshadow, foundBelow_iff ha₀]
    constructor
    · refine Or.imp_right ?_
      rintro ⟨hnone, hoff, hfound⟩
      exact ⟨hnone, hoff, .inr ⟨pageLookup_of_scan (hpages b a₀ ha₀) hscan hoff hnone, hfound⟩⟩
    · refine Or.imp_right ?_
      rintro ⟨hnone, hoff, hfound⟩
      refine ⟨hnone, hoff, ?_⟩
      have hscanned := pageLookup_of_scan (hpages b a₀ ha₀) hscan hoff hnone
      refine hfound.elim (fun hv => ?_) And.right
      have := VmObject.resident_of_none hscanned
      simp [this] at hv

theorem Collapsed.refl (hok : ChainsOk st ext) (hobject : st.objs o = some object) :
    Collapsed st st ext o object object :=
  ⟨hok, hobject, fun _ _ a ha => ⟨a, a.refCount, ha, rfl⟩, fun _ hi => .inl hi, rfl,
    fun _ _ => .rfl⟩

theorem Collapsed.pass {lockTry : Bool}
    (h : Collapsed st₀ st ext o object₀ object) (hpages : PagesBounded st₀)
    (hst' : st.collapsePass g lockTry o = .again st') :
    ∃ object', Collapsed st₀ st' ext o object₀ object' := by
  unfold ObjectStore.collapsePass at hst'
  simp only [h.hobject] at hst'
  split at hst'
  · cases hst'
  split at hst'
  · cases hst'
  next b hshadow =>
  split at hst'
  · cases hst'
  next backing hbacking =>
  unfold ObjectStore.collapseBacking at hst'
  split_ifs at hst' with _ _ href _ _ _ hscan
  · exact h.absorb hpages hshadow hbacking href hst'
  · cases hst'
    exact ⟨_, h.bypass hpages hshadow hbacking (by simpa using hscan)⟩

theorem Collapsed.loop (turns : ℕ)
    (h : Collapsed st₀ st ext o object₀ object) (hpages : PagesBounded st₀)
    (hst' : st.collapseLoop g o turns lockTry = .ok st') :
    ∃ object', Collapsed st₀ st' ext o object₀ object' := by
  induction turns generalizing st object lockTry with
  | zero => cases hst'
  | succ turns ih =>
    rw [ObjectStore.collapseLoop] at hst'
    split at hst'
    · cases hst'
      exact ⟨object, h⟩
    · next hpass =>
      obtain ⟨object₁, h₁⟩ := h.pass hpages hpass
      exact ih h₁ hst'
    · cases hst'

/-- When `vm_object_collapse` has come to its end the object shows what it or, inside its size, the
chain below it had. -/
theorem collapsed_of_vmObjectCollapse {turns : ℕ}
    (hok : ChainsOk st ext) (hpages : PagesBounded st) (hobject : st.objs o = some object)
    (h : st.vmObjectCollapse g lockTry (some o) turns = .ok st') :
    ∃ object', Collapsed st st' ext o object object' := by
  unfold ObjectStore.vmObjectCollapse at h
  split_ifs at h
  · exact (Collapsed.refl hok hobject).loop turns hpages h
  · cases h
    exact ⟨object, .refl hok hobject⟩

end

/-! ## What the extension shows -/

section
variable [Zero α] {st st' : ObjectStore α} {ext : ObjId → ℕ} {o : ObjId} {ob : VmObject α}

theorem content_alone_iff (hob : st.objs o = some ob) (hpager : ob.pagerCreated = false)
    (hshadow : ob.shadow = none) (off : ℕ) (v : α) :
    Content st (some o) off v ↔ (ob.resident off).getD 0 = v := by
  have hnone : st.pagerPage ob off = none := by simp [ObjectStore.pagerPage, hpager]
  have hc : Content st (some o) off ((ob.resident off).getD 0) := by
    cases hr : ob.resident off with
    | some w => exact .resident hob hr
    | none => exact .shadow hob hr hnone (hshadow ▸ .zeroFill _)
  exact ⟨fun h => hc.unique h, fun h => h ▸ hc⟩

theorem content_of_avoids (hdata : st'.pagerData = st.pagerData)
    (hother : ∀ i ≠ o, ∀ a, st.objs i = some a →
      ∃ a' n, st'.objs i = some a' ∧ a = { a' with refCount := n })
    (halone : ∀ i ≠ o, st.shadowOf i ≠ some o) {x : Option ObjId} {off : ℕ} {v : α}
    (hv : Content st x off v) (hx : x ≠ some o) : Content st' x off v := by
  have hsame : ∀ (a' : VmObject α) (n off : ℕ),
      st.own { a' with refCount := n } off = st'.own a' off := by
    intro a' n off
    unfold ObjectStore.own ObjectStore.pagerPage
    rw [hdata]
    rfl
  revert hx
  refine content_induction (P := fun x off v => x ≠ some o → Content st' x off v)
    (fun off _ => .zeroFill off) ?_ ?_ hv
  · intro i a off v ha hown hx
    obtain ⟨a', n, ha', rfl⟩ := hother i (fun h => hx (h ▸ rfl)) a ha
    exact content_of_own ha' ((hsame a' n off).symm.trans hown)
  · intro i a off v ha hown _ ih hx
    have hio : i ≠ o := fun h => hx (h ▸ rfl)
    obtain ⟨a', n, ha', rfl⟩ := hother i hio a ha
    exact content_of_shadow ha' ((hsame a' n off).symm.trans hown)
      (ih fun h => halone i hio ((st.shadowOf_eq ha).trans h))

omit [Zero α] in
theorem shadowOf_lt (hok : ChainsOk st ext) {i j : ObjId} (h : st.shadowOf i = some j) :
    i < st.next := by
  apply hok.bound
  unfold ObjectStore.shadowOf at h
  cases hob : st.objs i with
  | none => simp [hob] at h
  | some _ => rfl

omit [Zero α] in
theorem vmObjectCoalesce_spec [PageSize] {g : CollapseGlobals} {lockTry : ℕ → Bool} {turns : ℕ}
    {prevOffset prevSize nextSize : ℕ} (hok : ChainsOk st ext) (hpages : PagesBounded st)
    (h : vmObjectCoalesce st g lockTry turns (some o) prevOffset prevSize nextSize =
      some (true, st')) :
    ∃ object st₁ ob size, st.objs o = some object ∧ Collapsed st st₁ ext o object ob ∧
      ob.refCount ≤ 1 ∧ ob.pagerCreated = false ∧ ob.shadow = none ∧
      st' = st₁.set o { vmObjectPageRemove ob (add prevOffset prevSize)
        (add (add prevOffset prevSize) nextSize) with size := size } := by
  unfold vmObjectCoalesce at h
  simp only at h
  split at h
  · cases h
  next st₁ hst₁ =>
  split at h
  · cases h
  next ob hob =>
  split at h
  · cases h
  next hguard =>
  have hst' := (Prod.mk.inj (some.inj h)).2.symm
  simp only [not_or, not_lt, Bool.not_eq_true, Option.isSome_eq_false_iff,
    isNone_iff_eq_none] at hguard
  cases hobject : st.objs o with
  | none =>
    -- there is nothing to collapse, so there would be no object afterwards either
    have hleave : ∀ b, st.collapsePass g b o = .leave := fun b => by
      simp [ObjectStore.collapsePass, hobject]
    unfold ObjectStore.vmObjectCollapse at hst₁
    simp only at hst₁
    split at hst₁
    · cases hst₁
      simp [hobject] at hob
    · cases turns with
      | zero => cases hst₁
      | succ turns =>
        rw [ObjectStore.collapseLoop, hleave] at hst₁
        cases hst₁
        simp [hobject] at hob
  | some object =>
    obtain ⟨ob', hc⟩ := collapsed_of_vmObjectCollapse hok hpages hobject hst₁
    obtain rfl := some.inj (hob.symm.trans hc.hobject)
    exact ⟨object, st₁, ob, _, rfl, hc, hguard.1, hguard.2.1, hguard.2.2.1, hst'⟩

theorem Collapsed.others {st₁ : ObjectStore α} {object ob' : VmObject α}
    (h : Collapsed st st₁ ext o object ob) (href : ob.refCount ≤ 1) (hext : 0 < ext o)
    (hshadow : ob'.shadow = ob.shadow) {i : ObjId} (hio : i ≠ o)
    (hi : ((st₁.set o ob').objs i).isSome) (off : ℕ) (v : α) :
    Content (st₁.set o ob') (some i) off v ↔ Content st (some i) off v := by
  have hcount := h.chains.refCount o ob h.hobject
  have halone : ∀ j, st₁.shadowOf j ≠ some o := by
    intro j hj
    have := refs_pos (shadowOf_lt h.chains hj) hj
    omega
  have hshadows : (st₁.set o ob').shadowOf = st₁.shadowOf := by
    rw [ObjectStore.shadowOf_set, hshadow, ← st₁.shadowOf_eq h.hobject, Function.update_eq_self]
  have hlive : ShadowsLive (st₁.set o ob') := by
    intro a b hab
    rw [hshadows] at hab
    rw [ObjectStore.objs_set_of_ne]
    · exact h.chains.live a b hab
    · rintro rfl
      exact halone a hab
  have hback : ∀ w, Content (st₁.set o ob') (some i) off w → Content st (some i) off w := by
    intro w hw
    refine content_of_avoids (o := o) ?_ (fun j hj a ha => ?_) (fun j _ => ?_) hw
      (fun heq => hio (some.inj heq))
    · exact h.pagerData.symm
    · rw [ObjectStore.objs_set_of_ne _ hj] at ha
      exact h.other j hj a ha
    · rw [hshadows]
      exact halone j
  refine ⟨hback v, fun hv => ?_⟩
  obtain ⟨w, hw⟩ := Content.exists (hshadows ▸ h.chains.acyclic) hlive i hi off
  rwa [hv.unique (hback w hw)]

end

/-! ## The entry that grows -/

/-- A call has made the entry `e` longer: it is now `e'`. -/
structure Extended (m m' : VmMap) (e e' : VmMapEntry) : Prop where
  mem : e ∈ m.entries
  mem' : e' ∈ m'.entries
  id : e'.id = e.id
  longer : e.vmeEnd < e'.vmeEnd

section
variable [PageSize] {m m' : VmMap} {st st' : ObjectStore α} {g : CollapseGlobals}
  {lockTry : ℕ → Bool} {turns : ℕ} {args : EnterArgs} {kr : KernReturn}
  {address address' start stop : ℕ} {pre post : List VmMapEntry} {e e' : VmMapEntry}

theorem VmMap.WellFormed.not_extended_enterNew (hwf : m.WellFormed)
    (hsplit : m.entries = pre ++ post) :
    ¬ Extended m (m.enterNew args start stop (last VmMapEntry.id pre)) e e' := by
  intro hext
  have hmem := hext.mem'
  rw [VmMap.enterNew_entries (hsplit ▸ hwf.distinct) hsplit stop, mem_append, mem_cons] at hmem
  have hold : e' ∈ m.entries := by
    rw [hsplit, mem_append]
    refine hmem.imp_right fun h => h.resolve_left ?_
    rintro rfl
    have hlt := hwf.nextId e hext.mem
    rw [← hext.id] at hlt
    exact lt_irrefl _ hlt
  have heq := hwf.distinct.eq_of_name hold hext.mem hext.id
  exact absurd hext.longer (heq ▸ lt_irrefl _)

theorem VmMap.enterAt_extended (hwf : m.WellFormed) (hsplit : m.entries = pre ++ post)
    (h : m.enterAt st g lockTry turns args start stop (last VmMapEntry.id pre) =
      .ret kr address' m' st') (hext : Extended m m' e e') :
    e.vmeEnd = start ∧ e' = { e with vmeEnd := stop } ∧ m' = m.extend e stop ∧
      e.isAMap = false ∧ e.isSubMap = false ∧
      vmObjectCoalesce st g lockTry turns e.object e.offset (sub e.vmeEnd e.vmeStart)
        (sub stop e.vmeEnd) = some (true, st') := by
  unfold enterAt at h
  split at h
  · cases h
    exact absurd hext (hwf.not_extended_enterNew hsplit)
  next a ha =>
  split at h
  · next hextend =>
    split at h
    · cases h
    · next hcoalesce =>
      cases h
      obtain ⟨i, -, ha⟩ := bind_eq_some_iff.mp ha
      have hmem := mem_of_find?_eq_some ha
      obtain ⟨b, hb, hbe⟩ := mem_map.mp hext.mem'
      have hid : b.id = e.id := by
        rw [← hext.id, ← hbe]
        split_ifs <;> rfl
      obtain rfl := hwf.distinct.eq_of_name hb hext.mem hid
      by_cases hname : b.id = a.id
      · obtain rfl := hwf.distinct.eq_of_name hb hmem hname
        rw [if_pos rfl] at hbe
        unfold extendable at hextend
        simp only [Bool.decide_and, Bool.and_eq_true, decide_eq_true_eq,
          Bool.not_eq_true] at hextend
        exact ⟨hextend.2.1, hbe.symm, rfl, hextend.2.2.1, hextend.2.2.2.1, hcoalesce⟩
      · rw [if_neg hname] at hbe
        exact absurd hext.longer (hbe ▸ lt_irrefl _)
    · cases h
      exact absurd hext (hwf.not_extended_enterNew hsplit)
  · cases h
    exact absurd hext (hwf.not_extended_enterNew hsplit)

theorem VmMap.WellFormed.enterPass_extended (hwf : m.WellFormed) (hreq : EnterRequest address args)
    (h : m.enterPass st g lockTry turns address args = .ret .success address' m' st')
    (hext : Extended m m' e e') :
    e.vmeEnd + args.size ≤ m.maxOffset ∧ e' = { e with vmeEnd := e.vmeEnd + args.size } ∧
      (∀ a ∈ m.entries, a ≠ e → a ∈ m'.entries) ∧
      e.isAMap = false ∧ e.isSubMap = false ∧
      vmObjectCoalesce st g lockTry turns e.object e.offset (e.vmeEnd - e.vmeStart) args.size =
        some (true, st') := by
  -- either search ends between two parts of the list, and the range after it is inside the map
  obtain ⟨hint, pre, post, start, hhint, hsplit, hmax, h⟩ : ∃ hint pre post start,
      (∀ i, hint = some i → i ∈ m.entries.map VmMapEntry.id) ∧ m.entries = pre ++ post ∧
      start + args.size ≤ m.maxOffset ∧
      (m.lock.saveHint hint).enterAt st g lockTry turns args start (start + args.size)
        (last VmMapEntry.id pre) = .ret .success address' m' st' := by
    cases hany : args.anywhere with
    | true =>
      obtain ⟨c, hint, pre, post, hhint, hgap, hmax, -, -, h⟩ :=
        hwf.enterPass_gap hreq.size_lt hany h
      exact ⟨hint, pre, post, _, hhint, hgap.split, hmax, h⟩
    | false =>
      obtain ⟨-, hint, pre, post, hhint, hfree, h⟩ := hwf.enterPass_address hreq.address_lt
        hreq.address_aligned hreq.size_lt hreq.size_aligned hany h
      exact ⟨hint, pre, post, address, hhint, hfree.split, hfree.inside.2, h⟩
  obtain ⟨rfl, he', rfl, hmap, hsub, hcoalesce⟩ := VmMap.enterAt_extended
    (hwf.lock.saveHint hhint) hsplit h ⟨hext.mem, hext.mem', hext.id, hext.longer⟩
  have hlt := hwf.nonempty e hext.mem
  have hmax' := hwf.bounds.2.1
  rw [sub_of_le (by omega) hlt.le, sub_of_le (by omega) (by omega),
    Nat.add_sub_cancel_left] at hcoalesce
  refine ⟨hmax, he', fun a ha hne => ?_, hmap, hsub, hcoalesce⟩
  refine mem_map.mpr ⟨a, ha, if_neg fun hid => ?_⟩
  exact hne (hwf.distinct.eq_of_name ha hext.mem hid)

variable [Zero α] {ext : ObjId → ℕ}

/-- The pages of an entry's new part read as zero, and through every other entry and every other
object the same is seen as before. -/
structure Fresh (m m' : VmMap) (st st' : ObjectStore α) (ext : ObjId → ℕ) (e e' : VmMapEntry) :
    Prop where
  zero : ∀ x, PageAligned x → e.vmeEnd ≤ x → x < e'.vmeEnd →
    Content st' e'.object (add e'.offset (sub x e'.vmeStart)) 0
  entries : ∀ a ∈ m.entries, a ≠ e → a ∈ m'.entries ∧ ∀ i, a.target = some (.object i) →
    ∀ off v, Content st' (some i) off v ↔ Content st (some i) off v
  objects : ∀ i, e.object ≠ some i → (st'.objs i).isSome →
    ∀ off v, Content st' (some i) off v ↔ Content st (some i) off v
  /-- An object that is referred to from outside does not go away. -/
  kept : ∀ i, (st.objs i).isSome → (st'.objs i).isSome ∨ ext i = 0

/-- The range after the entry runs past the largest offset, and data is left over in it. -/
def Exposes (st : ObjectStore α) (e : VmMapEntry) (size : ℕ) : Prop :=
  e.offset + (e.vmeEnd - e.vmeStart) < modulus ∧
    modulus ≤ e.offset + (e.vmeEnd - e.vmeStart) + size ∧
    ∃ o ob x v, e.object = some o ∧ st.objs o = some ob ∧ PageAligned x ∧ e.vmeEnd ≤ x ∧
      x < e.vmeEnd + size ∧ v ≠ 0 ∧ Leftover st ob (add e.offset (sub x e.vmeStart)) v

variable {offset prevSize size : ℕ}

theorem Collapsed.zero_iff {st₁ : ObjectStore α} {o : ObjId} {object ob : VmObject α}
    {n : ℕ} (h : Collapsed st st₁ ext o object ob)
    (hpager : ob.pagerCreated = false) (hshadow : ob.shadow = none) (hoff : offset < modulus)
    (hsum : prevSize + size < modulus) {k : ℕ} (hk : k * pageSize < size) :
    Content (st₁.set o { vmObjectPageRemove ob (add offset prevSize)
      (add (add offset prevSize) size) with size := n }) (some o)
      (add offset (prevSize + k * pageSize)) 0 ↔
      ¬ (offset + prevSize < modulus ∧ modulus ≤ offset + prevSize + size ∧
        ∃ v ≠ 0, Leftover st object (add offset (prevSize + k * pageSize)) v) := by
  have hassoc : add offset (prevSize + k * pageSize) =
      add (add offset prevSize) (k * pageSize) := by
    rw [Word32.add_assoc, add_of_lt (a := prevSize) (by omega)]
  obtain ⟨l, a, heq⟩ := vmObjectPageRemove_eq ob (add offset prevSize)
    (add (add offset prevSize) size)
  rw [content_alone_iff (ObjectStore.objs_set_self _ _ _) (by simp [heq, hpager])
    (by simp [heq, hshadow])]
  have hres : ∀ b : VmObject α, VmObject.resident { b with size := n } = b.resident := fun _ => rfl
  rw [hres]
  by_cases hcross : offset + prevSize < modulus ∧ modulus ≤ offset + prevSize + size
  · -- the end of the range has wrapped
    have hstart : add offset prevSize = offset + prevSize := add_of_lt hcross.1
    have hstop : add (add offset prevSize) size ≤ add offset prevSize := by
      rw [hstart, add_of_ge hcross.1 (by omega) hcross.2]
      omega
    rw [vmObjectPageRemove_wrapped hstop]
    have hleft : ∀ v, Leftover st object (add offset (prevSize + k * pageSize)) v ↔
        ob.resident (add offset (prevSize + k * pageSize)) = some v := by
      intro v
      rw [← h.left]
      unfold Leftover
      rw [hshadow]
      refine or_iff_left ?_
      rintro ⟨-, -, hf⟩
      cases hf
    simp only [hleft, hcross, true_and]
    cases ob.resident (add offset (prevSize + k * pageSize)) with
    | none => simp
    | some w => simp
  · have hlt : add offset prevSize + size < modulus := by
      simp only [add, modulus] at *
      omega
    have hgone : (vmObjectPageRemove ob (add offset prevSize)
        (add (add offset prevSize) size)).pageLookup (add offset (prevSize + k * pageSize)) =
          none := by
      rw [hassoc, add_of_lt (a := add offset prevSize) (b := k * pageSize) (by omega),
        add_of_lt hlt]
      exact vmObjectPageRemove_gone hlt (by omega)
    rw [VmObject.resident_of_none hgone]
    simp only [getD_none, true_iff]
    exact fun h => hcross ⟨h.1, h.2.1⟩

/-- What `vm_object_coalesce` makes of an object `o` that takes a range of `size` after
`offset + prevSize`. -/
structure Coalesced (st st' : ObjectStore α) (ext : ObjId → ℕ) (o : ObjId) (object : VmObject α)
    (offset prevSize size : ℕ) : Prop where
  hobject : st.objs o = some object
  alone : ext o ≤ 1
  others : ∀ i ≠ o, (st'.objs i).isSome →
    ∀ off v, Content st' (some i) off v ↔ Content st (some i) off v
  kept : ∀ i, (st.objs i).isSome → (st'.objs i).isSome ∨ ext i = 0
  zero : ∀ k, k * pageSize < size →
    (Content st' (some o) (add offset (prevSize + k * pageSize)) 0 ↔
      ¬ (offset + prevSize < modulus ∧ modulus ≤ offset + prevSize + size ∧
        ∃ v ≠ 0, Leftover st object (add offset (prevSize + k * pageSize)) v))

theorem vmObjectCoalesce_coalesced {o : ObjId} (hok : ChainsOk st ext)
    (hpages : PagesBounded st) (hext : 0 < ext o) (hoff : offset < modulus)
    (hsum : prevSize + size < modulus)
    (h : vmObjectCoalesce st g lockTry turns (some o) offset prevSize size = some (true, st')) :
    ∃ object, Coalesced st st' ext o object offset prevSize size := by
  obtain ⟨object, st₁, ob, n, hobject, hc, href, hpager, hshadow, hst'⟩ :=
    vmObjectCoalesce_spec hok hpages h
  have hzero : ∀ k, k * pageSize < size → _ := fun k =>
    hc.zero_iff hpager hshadow hoff hsum (n := n) (k := k)
  obtain ⟨l, a, hremove⟩ := vmObjectPageRemove_eq ob (add offset prevSize)
    (add (add offset prevSize) size)
  rw [← hst'] at hzero
  obtain ⟨ob', hob', hsh'⟩ : ∃ ob', st' = st₁.set o ob' ∧ ob'.shadow = ob.shadow :=
    ⟨_, hst', by rw [hremove]⟩
  have hcount := hc.chains.refCount o ob hc.hobject
  refine ⟨object, hobject, by omega, fun i hi hlive => ?_, fun i hi => ?_, hzero⟩
  · rw [hob'] at hlive ⊢
    exact hc.others href hext hsh' hi hlive
  · rw [hob']
    rcases eq_or_ne i o with rfl | hne
    · exact .inl (by rw [ObjectStore.objs_set_self]; rfl)
    · rw [ObjectStore.objs_set_of_ne _ hne]
      exact hc.kept i hi

/-- A range by which an entry is extended shows no old data, and nothing else changes, if and only
if the offsets of the range do not run past the largest one over data that is left there. -/
theorem vmMapEnter_extends (hwf : m.WellFormed) (hreq : EnterRequest address args)
    (hok : ChainsOk st ext) (hpages : PagesBounded st) (hoff : e.offset < modulus)
    (hrefs : ∀ i, refsTo (.object i) m.entries ≤ ext i)
    (hpass : m.enterPass st g lockTry turns address args = .ret .success address' m' st')
    (hext : Extended m m' e e') : Fresh m m' st st' ext e e' ↔ ¬ Exposes st e args.size := by
  obtain ⟨hmax, he', hentries, hmap, hsub, hcoalesce⟩ := hwf.enterPass_extended hreq hpass hext
  have hlt := hwf.nonempty e hext.mem
  have hmax' := hwf.bounds.2.1
  cases hobj : e.object with
  | none =>
    rw [hobj] at hcoalesce
    cases hcoalesce
    refine iff_of_true ⟨fun x _ _ _ => ?_, fun a ha hne => ⟨hentries a ha hne, fun _ _ _ _ => .rfl⟩,
      fun _ _ _ _ _ => .rfl, fun _ hi => .inl hi⟩ ?_
    · rw [he', hobj]
      exact .zeroFill _
    · rintro ⟨-, -, o, -, -, -, ho, -⟩
      rw [hobj] at ho
      cases ho
  | some o =>
    rw [hobj] at hcoalesce
    have htarget : e.target = some (.object o) := by simp [VmMapEntry.target, hobj, hmap, hsub]
    have hmine := refsTo_pos hext.mem htarget
    obtain ⟨object, hc⟩ := vmObjectCoalesce_coalesced hok hpages (hmine.trans_le (hrefs o)) hoff
      (by omega) hcoalesce
    -- the pages of the range are `k` pages after its start
    have hplace : ∀ x, PageAligned x → e.vmeEnd ≤ x → x < e.vmeEnd + args.size →
        ∃ k, k * pageSize < args.size ∧
          sub x e.vmeStart = e.vmeEnd - e.vmeStart + k * pageSize := by
      intro x hx hle hxlt
      obtain ⟨k, hk⟩ := Nat.dvd_sub hx (hwf.aligned e hext.mem).2
      rw [Nat.mul_comm] at hk
      exact ⟨k, by omega, by rw [sub_of_le (by omega) (by omega)]; omega⟩
    constructor
    · rintro hfresh ⟨hlo, hhi, o', object', x, v, ho', hobject', hx, hle, hxlt, hv, hleft⟩
      obtain rfl := some.inj (hobj.symm.trans ho')
      obtain rfl := some.inj (hc.hobject.symm.trans hobject')
      obtain ⟨k, hk, hsubx⟩ := hplace x hx hle hxlt
      have hzero := hfresh.zero x hx hle (by rw [he']; exact hxlt)
      rw [he', hobj, hsubx] at hzero
      rw [hsubx] at hleft
      exact (hc.zero k hk).mp hzero ⟨hlo, hhi, v, hv, hleft⟩
    · intro hsafe
      refine ⟨fun x hx hle hxlt => ?_, fun a ha hne => ⟨hentries a ha hne, fun i hi off v => ?_⟩,
        fun i hi hlive => hc.others i (fun h => hi (h ▸ hobj)) hlive, hc.kept⟩
      · rw [he'] at hxlt
        obtain ⟨k, hk, hsubx⟩ := hplace x hx hle hxlt
        rw [he', hobj, hsubx]
        refine (hc.zero k hk).mpr ?_
        rintro ⟨hlo, hhi, v, hv, hleft⟩
        exact hsafe ⟨hlo, hhi, o, object, x, v, hobj, hc.hobject, hx, hle, hxlt, hv, hsubx ▸ hleft⟩
      · have hio : i ≠ o := by
          rintro rfl
          have := two_le_refsTo hext.mem htarget ha hne hi
          have := hrefs i
          have := hc.alone
          omega
        by_cases hlive : (st'.objs i).isSome
        · exact hc.others i hio hlive off v
        · have hgone : ¬ (st.objs i).isSome := by
            intro hi'
            have := refsTo_pos ha hi
            have := hrefs i
            have := (hc.kept i hi').resolve_left hlive
            omega
          refine iff_of_false (fun hv => ?_) fun hv => ?_
          · obtain ⟨ob, hob, -⟩ := content_cases hv
            exact hlive (by rw [hob]; rfl)
          · obtain ⟨ob, hob, -⟩ := content_cases hv
            exact hgone (by rw [hob]; rfl)

end

/-! ## An object that was larger -/

/-- An object of which the page at `left` is still there. -/
def shrunkStore (left : ℕ) : ObjectStore ℕ where
  objs
    | 0 => some { (ObjectStore.template : VmObject ℕ) with
        size := left + 4096, memq := [⟨left, 7, false, false⟩] }
    | _ => none
  next := 1
  kobject _ := none
  pagerData _ _ := none

/-- One page at 4096 that shows the object at `offset`. -/
def shrunkEntry (offset : ℕ) : VmMapEntry where
  id := 0
  vmeStart := 4096
  vmeEnd := 8192
  object := some 0
  offset := offset
  isAMap := false
  isSubMap := false
  inTransition := false
  needsWakeup := false
  needsCopy := false
  protection := vmProtDefault
  maxProtection := vmProtAll
  inheritance := vmInheritDefault
  wiredCount := 0
  userWiredCount := 0

def shrunkMap (offset : ℕ) : VmMap :=
  { VmMap.create 4096 3221225472 with
    entries := [shrunkEntry offset], nentries := 1, size := 4096, nextId := 1 }

theorem shrunkMap_wellFormed (offset : ℕ) : letI := pages4096; (shrunkMap offset).WellFormed := by
  let _ := pages4096
  have hempty : (VmMap.create 4096 3221225472).WellFormed :=
    VmMap.create_wellFormed (by norm_num) (by norm_num) (by decide)
  refine ⟨pairwise_singleton _ _, ?_, ?_, ?_, rfl,
    by norm_num [shrunkMap, sizeSum, shrunkEntry], hempty.bounds, nodup_singleton _, ?_,
    nofun, nofun⟩
  all_goals
    intro a ha
    rw [mem_singleton.mp ha]
  · simp [shrunkEntry]
  · exact ⟨(by decide : PageAligned 4096), (by decide : PageAligned 8192)⟩
  · simp [shrunkMap, shrunkEntry, VmMap.create]
  · exact Nat.one_pos

theorem shrunkStore_chainsOk (left : ℕ) :
    ChainsOk (shrunkStore left) fun i => if i = 0 then 1 else 0 where
  bound
    | 0, _ => Nat.one_pos
    | i + 1, h => by simp [shrunkStore] at h
  live
    | 0, j, h | i + 1, j, h => by cases h
  acyclic := by
    refine .of_rank id ?_
    rintro (_ | a) b h <;> cases h
  refCount := by
    rintro (_ | i) ob h <;> cases h
    rfl

theorem shrunkStore_bounded {left : ℕ} (h : left < modulus) : PagesBounded (shrunkStore left) := by
  rintro (_ | i) ob hob p hp <;> cases hob
  rw [mem_singleton.mp hp]
  exact h

theorem shrunkMap_refs (offset : ℕ) (i : ObjId) :
    refsTo (.object i) (shrunkMap offset).entries ≤ if i = 0 then 1 else 0 := by
  rcases i with _ | i
  · rfl
  · rfl

theorem shrunk_request {size : ℕ} (hsize : size < modulus)
    (hal : letI := pages4096; PageAligned size) : letI := pages4096
    EnterRequest 8192 { anywhereArgs size 0 with anywhere := false } := by
  let _ := pages4096
  exact ⟨by norm_num, (by decide : PageAligned 8192), hsize, hal, (by norm_num : 0 < modulus)⟩

/-- The page that was left over is gone. -/
theorem vmMapEnter_extends_page : letI := pages4096
    ∃ m' st', (shrunkMap 0).enterPass (shrunkStore 4096) ⟨true, true⟩ (fun _ => true) 1 8192
        { anywhereArgs 4096 0 with anywhere := false } = .ret .success 8192 m' st' ∧
      Fresh (shrunkMap 0) m' (shrunkStore 4096) st' (fun i => if i = 0 then 1 else 0)
        (shrunkEntry 0) { shrunkEntry 0 with vmeEnd := 12288 } := by
  let _ := pages4096
  have hpass : (shrunkMap 0).enterPass (shrunkStore 4096) ⟨true, true⟩ (fun _ => true) 1 8192
      { anywhereArgs 4096 0 with anywhere := false } = .ret .success 8192
        (((shrunkMap 0).lock.saveHint (some 0)).extend (shrunkEntry 0) 12288) _ := rfl
  refine ⟨_, _, hpass, (vmMapEnter_extends (shrunkMap_wellFormed 0)
    (shrunk_request (by norm_num) (by decide)) (shrunkStore_chainsOk 4096) (shrunkStore_bounded
    (by norm_num)) (by norm_num [shrunkEntry]) (shrunkMap_refs 0) hpass
    ⟨mem_singleton_self _, mem_singleton_self _, rfl, by decide⟩).mpr ?_⟩
  rintro ⟨-, hhi, -⟩
  exact absurd hhi (by decide)

/-- An extension that passes the largest offset brings a page to light that was left over. -/
theorem vmMapEnter_exposes : letI := pages4096
    (shrunkMap 2147483648).WellFormed ∧
      EnterRequest 8192 { anywhereArgs 2147483648 0 with anywhere := false } ∧
      ChainsOk (shrunkStore 2147487744) (fun i => if i = 0 then 1 else 0) ∧
      PagesBounded (shrunkStore 2147487744) ∧
      (∀ i, refsTo (.object i) (shrunkMap 2147483648).entries ≤ if i = 0 then 1 else 0) ∧
      ∃ m' st' e', (shrunkMap 2147483648).enterPass (shrunkStore 2147487744) ⟨true, true⟩
        (fun _ => true) 1 8192 { anywhereArgs 2147483648 0 with anywhere := false } =
          .ret .success 8192 m' st' ∧
        Extended (shrunkMap 2147483648) m' (shrunkEntry 2147483648) e' ∧
        Content st' e'.object (add e'.offset (sub 8192 e'.vmeStart)) 7 ∧
        ¬ Fresh (shrunkMap 2147483648) m' (shrunkStore 2147487744) st'
          (fun i => if i = 0 then 1 else 0) (shrunkEntry 2147483648) e' := by
  let _ := pages4096
  have hpass : (shrunkMap 2147483648).enterPass (shrunkStore 2147487744) ⟨true, true⟩
      (fun _ => true) 1 8192 { anywhereArgs 2147483648 0 with anywhere := false } =
        .ret .success 8192 (((shrunkMap 2147483648).lock.saveHint (some 0)).extend
          (shrunkEntry 2147483648) 2147491840) _ := rfl
  refine ⟨shrunkMap_wellFormed _, shrunk_request (by norm_num) (by decide), shrunkStore_chainsOk _,
    shrunkStore_bounded (by norm_num), shrunkMap_refs _, _, _,
    { shrunkEntry 2147483648 with vmeEnd := 2147491840 }, hpass,
    ⟨mem_singleton_self _, mem_singleton_self _, rfl, by decide⟩, ?_, fun h => ?_⟩
  · exact .resident rfl rfl
  · have h0 := h.zero 8192 (by decide) (by decide) (by decide)
    have := h0.unique (.resident (v := 7) rfl rfl)
    cases this

end MachKernel.Vm
