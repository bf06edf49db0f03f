import MachKernel.Vm.FaultPage

/-! What page `vm_fault_page` finds, and where it puts a page that it fills. -/

namespace MachKernel.Vm
open Option
open Word32 Links

/-! ## What is visible through a chain -/

/-- An object as its readers see it. -/
structure View (α : Type*) where
  shadow : Option ObjId
  shadowOffset : ℕ
  own : ℕ → Option α

/-- Reading an offset of an object yields what it has itself, or else what its shadow shows; past
the end of the chain there are zeros. -/
inductive Visible {α : Type*} [Zero α] (V : ObjId → Option (View α)) : Option ObjId → ℕ → α → Prop
  | zeroFill (off : ℕ) : Visible V none off 0
  | own {i : ObjId} {o : View α} {off : ℕ} {v : α} (hi : V i = some o) (hv : o.own off = some v) :
      Visible V (some i) off v
  | shadow {i : ObjId} {o : View α} {off : ℕ} {v : α} (hi : V i = some o) (hown : o.own off = none)
      (hv : Visible V o.shadow (add off o.shadowOffset) v) : Visible V (some i) off v

/-- The contents of a page; an absent page has none, and a page that has not been filled. -/
def VmObject.shown {α : Type*} (ob : VmObject (Option α)) (off : ℕ) : Option α :=
  (ob.pageLookup off).bind fun m => if m.absent then none else m.data

namespace PagingState
variable {α : Type*} (p : PagingState α)

/-- What the pager of an object has at an offset. -/
def pagerHas (ob : VmObject (Option α)) (off : ℕ) : Option α :=
  (p.kernel.store.pagerPage ob off).join

def view (i : ObjId) : Option (View α) :=
  (p.objs i).map fun ob =>
    ⟨ob.shadow, ob.shadowOffset, fun off => (ob.shown off).or (p.pagerHas ob off)⟩

/-- Pages that are not busy have their contents, or else their pager does not have them; and
`existence_info` is right. -/
structure Sound : Prop where
  acyclic : Acyclic p.kernel.store.shadowOf
  word : ∀ i ob, p.objs i = some ob → ob.shadowOffset < modulus
  filled : ∀ i ob off m, p.objs i = some ob → ob.pageLookup off = some m → m.busy = false →
    m.absent = false → (p.flags i off).error = false → m.data.isSome
  absent : ∀ i ob off m, p.objs i = some ob → ob.pageLookup off = some m → m.absent = true →
    m.data = none ∧ (m.busy = false → p.pagerHas ob off = none)
  existence : ∀ i ob off, p.objs i = some ob → p.existence i (add off ob.pagingOffset) = false →
    p.pagerHas ob off = none

/-- The page is in memory: no object on the way to it has another one, not even in its pager. -/
inductive InCore : ObjId → ℕ → Prop
  | here {i : ObjId} {ob : VmObject (Option α)} {off : ℕ} {m : VmPage (Option α)}
      (hob : p.objs i = some ob) (hm : ob.pageLookup off = some m) (habsent : m.absent = false) :
      InCore i off
  | deeper {i j : ObjId} {ob : VmObject (Option α)} {off : ℕ} (hob : p.objs i = some ob)
      (hno : ∀ m, ob.pageLookup off = some m → m.absent = true) (hpager : p.pagerHas ob off = none)
      (hshadow : ob.shadow = some j) (h : InCore j (add off ob.shadowOffset)) : InCore i off

/-- A fault has come down the chain from `first` to a place: it is on the chain, and what is visible
there is visible at the start. A page that must be resident is still to come. -/
structure Descent [Zero α] (c : FaultCall) (object : ObjId) (offset : ℕ) : Prop where
  chain : Relation.ReflTransGen (fun a b => p.kernel.store.shadowOf a = some b) c.firstObject object
  shown : ∀ v, Visible p.view (some object) offset v →
    Visible p.view (some c.firstObject) c.firstOffset v
  resident : c.mustBeResident = true → p.InCore object offset

end PagingState

/-- While it waits and while it has given up its locks, other threads keep what a fault has found on
its way (invariants 1 to 3 of the routine); where they do not, they make it start over. -/
structure FaultMeets.Keeps {α : Type*} [Zero α] (w : FaultMeets α) (c : FaultCall) : Prop where
  waiting : ∀ k p, w.waits k = .awakened → p.Sound → (w.waiting k p).Sound ∧
    ∀ object offset, p.Descent c object offset → (w.waiting k p).Descent c object offset
  meanwhile : ∀ k p, p.Sound → (w.meanwhile k p).Sound ∧
    ∀ object offset, p.Descent c object offset → (w.meanwhile k p).Descent c object offset

/-! ## What the routine does to a place on its way -/

section
variable {α : Type*} {p p' : PagingState α} {i : ObjId} {off : ℕ}

theorem VmObject.pageLookup_updatePage {α : Type*} (ob : VmObject α) (off o : ℕ)
    {f : VmPage α → VmPage α} (hf : ∀ m, (f m).offset = m.offset) :
    (ob.updatePage off f).pageLookup o = (ob.pageLookup o).map fun m =>
      if m.offset = off then f m else m := by
  unfold VmObject.pageLookup VmObject.updatePage
  rw [List.find?_map]
  have hcomp : ((fun m : VmPage α => decide (m.offset = o)) ∘ fun m =>
      if m.offset = off then f m else m) = fun m => decide (m.offset = o) := by
    funext m
    simp only [Function.comp_apply]
    split_ifs
    · rw [hf]
    · rfl
  rw [hcomp]

/-- Nothing changes that a reader could see. -/
structure PagingState.Same (p p' : PagingState α) : Prop where
  view : p'.view = p.view
  sound : p.Sound → p'.Sound

theorem PagingState.Same.refl (p : PagingState α) : p.Same p := ⟨rfl, id⟩

theorem PagingState.Same.trans {p'' : PagingState α} (h : p.Same p') (h' : p'.Same p'') :
    p.Same p'' := ⟨h'.view.trans h.view, fun hp => h'.sound (h.sound hp)⟩

theorem PagingState.objs_modify (f : VmObject (Option α) → VmObject (Option α)) (j : ObjId) :
    (p.modify i f).objs j = (p.objs j).map fun ob => if j = i then f ob else ob :=
  p.kernel.store.objs_modify_map i j f

/-- An object is changed in its pages only, and each page still shows what it did. -/
structure Harmless (p : PagingState α) (i : ObjId)
    (f : VmObject (Option α) → VmObject (Option α)) : Prop where
  frame : ∀ ob, p.objs i = some ob → (f ob).shadow = ob.shadow ∧
    (f ob).shadowOffset = ob.shadowOffset ∧ (f ob).pagerCreated = ob.pagerCreated ∧
    (f ob).pager = ob.pager ∧ (f ob).pagingOffset = ob.pagingOffset
  shown : ∀ ob, p.objs i = some ob → (f ob).shown = ob.shown
  page : ∀ ob, p.objs i = some ob → ∀ off m, (f ob).pageLookup off = some m →
    ob.pageLookup off = some m ∨ m.busy = true ∧ m.data = none

theorem Harmless.pagerHas {f : VmObject (Option α) → VmObject (Option α)} (h : Harmless p i f)
    {ob : VmObject (Option α)} (hob : p.objs i = some ob) (off : ℕ) :
    (p.modify i f).pagerHas (f ob) off = p.pagerHas ob off := by
  obtain ⟨-, -, hcreated, hpager, hoffset⟩ := h.frame ob hob
  change (p.kernel.store.pagerPage (f ob) off).join = (p.kernel.store.pagerPage ob off).join
  unfold ObjectStore.pagerPage
  rw [hcreated, hpager, hoffset]

theorem Harmless.same {f : VmObject (Option α) → VmObject (Option α)} (h : Harmless p i f) :
    p.Same (p.modify i f) := by
  have hview : (p.modify i f).view = p.view := by
    funext j
    unfold PagingState.view
    rw [PagingState.objs_modify, Option.map_map]
    cases hob : p.objs j with
    | none => rfl
    | some ob =>
      simp only [map_some, Function.comp_apply]
      split_ifs with hj
      · subst hj
        obtain ⟨hshadow, hoffset, -⟩ := h.frame ob hob
        rw [hshadow, hoffset, h.shown ob hob]
        simp only [h.pagerHas hob]
      · rfl
  have hshadowOf : (p.modify i f).kernel.store.shadowOf = p.kernel.store.shadowOf := by
    funext j
    change ((p.modify i f).objs j).bind _ = (p.objs j).bind _
    rw [PagingState.objs_modify]
    cases hob : p.objs j with
    | none => rfl
    | some ob =>
      simp only [map_some, bind_some]
      split_ifs with hj
      · subst hj
        exact (h.frame ob hob).1
      · rfl
  -- an object that is not `i` is as before
  have hobjs : ∀ j ob', (p.modify i f).objs j = some ob' → ∃ ob, p.objs j = some ob ∧
      (j = i ∧ ob' = f ob ∨ ob' = ob) := fun j ob' hob' => by
    rw [PagingState.objs_modify] at hob'
    obtain ⟨ob, hob, rfl⟩ := map_eq_some_iff.mp hob'
    refine ⟨ob, hob, ?_⟩
    split_ifs with hj
    · exact .inl ⟨hj, rfl⟩
    · exact .inr rfl
  refine ⟨hview, fun hp => ⟨hshadowOf ▸ hp.acyclic, ?_, ?_, ?_, ?_⟩⟩
  · intro j ob' hob'
    obtain ⟨ob, hob, ⟨rfl, rfl⟩ | rfl⟩ := hobjs j ob' hob'
    · rw [(h.frame ob hob).2.1]
      exact hp.word _ ob hob
    · exact hp.word j _ hob
  · intro j ob' off m hob' hm hbusy habsent herror
    obtain ⟨ob, hob, ⟨rfl, rfl⟩ | rfl⟩ := hobjs j ob' hob'
    · rcases h.page ob hob off m hm with hm | ⟨htrue, -⟩
      · exact hp.filled _ ob off m hob hm hbusy habsent herror
      · rw [htrue] at hbusy
        cases hbusy
    · exact hp.filled j _ off m hob hm hbusy habsent herror
  · intro j ob' off m hob' hm habsent
    obtain ⟨ob, hob, ⟨rfl, rfl⟩ | rfl⟩ := hobjs j ob' hob'
    · rw [h.pagerHas hob]
      rcases h.page ob hob off m hm with hm | ⟨htrue, hdata⟩
      · exact hp.absent _ ob off m hob hm habsent
      · refine ⟨hdata, fun hfalse => ?_⟩
        rw [htrue] at hfalse
        cases hfalse
    · exact hp.absent j _ off m hob hm habsent
  · intro j ob' off hob' hex
    obtain ⟨ob, hob, ⟨rfl, rfl⟩ | rfl⟩ := hobjs j ob' hob'
    · rw [(h.frame ob hob).2.2.2.2] at hex
      rw [h.pagerHas hob]
      exact hp.existence _ ob off hob hex
    · exact hp.existence j _ off hob hex

theorem same_pagingBegin (p : PagingState α) (i : ObjId) : p.Same (p.pagingBegin i) :=
  Harmless.same ⟨fun _ _ => ⟨rfl, rfl, rfl, rfl, rfl⟩, fun _ _ => rfl, fun _ _ _ _ h => .inl h⟩

theorem same_pagingEnd (p : PagingState α) (i : ObjId) : p.Same (p.pagingEnd i) :=
  Harmless.same ⟨fun _ _ => ⟨rfl, rfl, rfl, rfl, rfl⟩, fun _ _ => rfl, fun _ _ _ _ h => .inl h⟩

theorem same_setFlags {flags : PageFlags} (hflags : (p.flags i off).error = flags.error ∨
    ∀ ob m, p.objs i = some ob → ob.pageLookup off = some m → m.busy = true) :
    p.Same (p.setFlags i off flags) := by
  refine ⟨rfl, fun hp => ⟨hp.acyclic, hp.word, ?_, hp.absent, hp.existence⟩⟩
  intro j ob o m hob hm hbusy habsent herror
  by_cases hplace : j = i ∧ o = off
  · obtain ⟨rfl, rfl⟩ := hplace
    rcases hflags with hsame | hbusy'
    · refine hp.filled _ ob _ m hob hm hbusy habsent ?_
      rw [hsame]
      simpa [PagingState.setFlags] using herror
    · rw [hbusy' ob m hob hm] at hbusy
      cases hbusy
  · refine hp.filled j ob o m hob hm hbusy habsent ?_
    unfold PagingState.setFlags at herror
    by_cases hj : j = i
    · subst hj
      have ho : o ≠ off := fun h => hplace ⟨rfl, h⟩
      simpa [ho] using herror
    · simpa [hj] using herror

theorem same_update {g : VmPage (Option α) → VmPage (Option α)} (hg : ∀ m, (g m).offset = m.offset)
    (hpage : ∀ ob m, p.objs i = some ob → ob.pageLookup off = some m →
      m.data = none ∧ (g m).data = none ∧ (g m).busy = true) (f : ℕ → ℕ) :
    p.Same (p.modify i fun ob =>
      { ob.updatePage off g with absentCount := f ob.absentCount }) := by
  have hlook : ∀ (ob : VmObject (Option α)) o,
      VmObject.pageLookup { ob.updatePage off g with absentCount := f ob.absentCount } o =
        (ob.pageLookup o).map fun m => if m.offset = off then g m else m :=
    fun ob o => ob.pageLookup_updatePage off o hg
  refine Harmless.same ⟨fun _ _ => ⟨rfl, rfl, rfl, rfl, rfl⟩, fun ob hob => ?_,
    fun ob hob o m hm => ?_⟩
  · funext o
    unfold VmObject.shown
    rw [hlook]
    cases hm : ob.pageLookup o with
    | none => rfl
    | some m =>
      have ho := VmObject.offset_of_pageLookup hm
      simp only [map_some, bind_some]
      split_ifs with hoff h₁ h₂ h₂ <;> try rfl
      all_goals
        obtain ⟨hdata, hdata', -⟩ := hpage ob m hob (by rw [← hoff, ho, hm])
        simp [hdata, hdata']
  · rw [hlook] at hm
    obtain ⟨m₀, hm₀, rfl⟩ := map_eq_some_iff.mp hm
    have ho := VmObject.offset_of_pageLookup hm₀
    split_ifs with hoff
    · obtain ⟨-, hdata, hbusy⟩ := hpage ob m₀ hob (by rw [← hoff, ho, hm₀])
      exact .inr ⟨hbusy, hdata⟩
    · exact .inl hm₀

theorem same_insert (hnone : ∀ ob, p.objs i = some ob → ob.pageLookup off = none)
    (fictitious : Bool) : p.Same (p.insert i off fictitious) := by
  have hlook : ∀ (ob : VmObject (Option α)) o,
      (ob.pageInsert ⟨off, none, true, false⟩).pageLookup o =
        (ob.pageLookup o).or (if off = o then some ⟨off, none, true, false⟩ else none) :=
    fun ob o => ob.pageLookup_pageInsert _ o
  have hsame : p.Same (p.modify i fun ob => ob.pageInsert ⟨off, none, true, false⟩) := by
    refine Harmless.same ⟨fun _ _ => ⟨rfl, rfl, rfl, rfl, rfl⟩, fun ob hob => ?_,
      fun ob hob o m hm => ?_⟩
    · funext o
      unfold VmObject.shown
      rw [hlook]
      by_cases ho : off = o
      · subst ho
        simp [hnone ob hob]
      · simp [ho]
    · rw [hlook] at hm
      by_cases ho : off = o
      · subst ho
        rw [hnone ob hob, if_pos rfl] at hm
        cases hm
        exact .inr ⟨rfl, rfl⟩
      · rw [if_neg ho, or_none] at hm
        exact .inl hm
  refine hsame.trans (same_setFlags (.inr fun ob m hob hm => ?_))
  rw [PagingState.objs_modify] at hob
  obtain ⟨ob₀, hob₀, rfl⟩ := map_eq_some_iff.mp hob
  rw [if_pos rfl, hlook, hnone ob₀ hob₀, if_pos rfl] at hm
  cases hm
  rfl

theorem same_free (hshown : ∀ ob, p.objs i = some ob → ob.shown off = none) :
    p.Same (p.free i off) := by
  refine Harmless.same ⟨fun _ _ => ⟨rfl, rfl, rfl, rfl, rfl⟩, fun ob hob => ?_,
    fun ob hob o m hm => ?_⟩
  · funext o
    have hob' := hshown ob hob
    unfold VmObject.shown at hob' ⊢
    rw [VmObject.pageLookup_pageFree]
    split_ifs with ho
    · rw [ho, hob']
      rfl
    · rfl
  · rw [VmObject.pageLookup_pageFree] at hm
    split_ifs at hm
    exact .inl hm

theorem PagingState.InCore.congr (h : ∀ j ob, p.objs j = some ob → ∃ ob', p'.objs j = some ob' ∧
      ob'.pageLookup = ob.pageLookup ∧ ob'.shadow = ob.shadow ∧ ob'.shadowOffset = ob.shadowOffset ∧
      p'.pagerHas ob' = p.pagerHas ob) {j : ObjId} (hcore : p.InCore j off) : p'.InCore j off := by
  induction hcore with
  | here hob hm habsent =>
    obtain ⟨ob', hob', hlook, -⟩ := h _ _ hob
    exact .here hob' (hlook ▸ hm) habsent
  | deeper hob hno hpager hshadow _ ih =>
    obtain ⟨ob', hob', hlook, hshadow', hoffset, hhas⟩ := h _ _ hob
    exact .deeper hob' (hlook ▸ hno) (hhas ▸ hpager) (hshadow'.trans hshadow) (hoffset ▸ ih)

theorem inCore_pagingBegin (p : PagingState α) (i : ObjId) {j : ObjId} (h : p.InCore j off) :
    (p.pagingBegin i).InCore j off := by
  refine h.congr fun k ob hob => ?_
  unfold PagingState.pagingBegin
  rw [PagingState.objs_modify, hob]
  refine ⟨_, rfl, ?_⟩
  split_ifs <;> exact ⟨rfl, rfl, rfl, rfl⟩

theorem inCore_pagingEnd (p : PagingState α) (i : ObjId) {j : ObjId} (h : p.InCore j off) :
    (p.pagingEnd i).InCore j off := by
  refine h.congr fun k ob hob => ?_
  unfold PagingState.pagingEnd
  rw [PagingState.objs_modify, hob]
  refine ⟨_, rfl, ?_⟩
  split_ifs <;> exact ⟨rfl, rfl, rfl, rfl⟩

theorem inCore_setFlags (p : PagingState α) (i : ObjId) (o : ℕ) (flags : PageFlags) {j : ObjId}
    (h : p.InCore j off) : (p.setFlags i o flags).InCore j off := by
  refine PagingState.InCore.congr (fun k ob hob => ?_) h
  exact ⟨ob, hob, rfl, rfl, rfl, rfl⟩

theorem PagingState.view_eq {ob : VmObject (Option α)} (hob : p.objs i = some ob) :
    p.view i = some ⟨ob.shadow, ob.shadowOffset, fun o => (ob.shown o).or (p.pagerHas ob o)⟩ := by
  unfold PagingState.view
  rw [hob]
  rfl

theorem PagingState.shadowOf_view (p : PagingState α) (i : ObjId) :
    p.kernel.store.shadowOf i = (p.view i).bind View.shadow := by
  unfold PagingState.view
  change (p.objs i).bind _ = _
  cases p.objs i <;> rfl

end

/-! ## The search -/

section
variable {α : Type*} [Zero α] {c : FaultCall} {w : FaultMeets α} {s s' : FaultVars α}
  {p p' : PagingState α} {ob : VmObject (Option α)}

theorem PagingState.Descent.same {object : ObjId} {offset : ℕ} (h : p.Descent c object offset)
    (hsame : p.Same p') (hcore : c.mustBeResident = true → p.InCore object offset →
      p'.InCore object offset) : p'.Descent c object offset := by
  have hshadow : p'.kernel.store.shadowOf = p.kernel.store.shadowOf := by
    funext j
    rw [p'.shadowOf_view, p.shadowOf_view, hsame.view]
  refine ⟨hshadow ▸ h.chain, fun v hv => ?_, fun hres => hcore hres (h.resident hres)⟩
  rw [hsame.view] at hv ⊢
  exact h.shown v hv

theorem PagingState.Descent.next {object next : ObjId} {offset : ℕ} (h : p.Descent c object offset)
    (hob : p.objs object = some ob) (hno : ∀ m, ob.pageLookup offset = some m → m.absent = true)
    (hpager : p.pagerHas ob offset = none) (hshadow : ob.shadow = some next) :
    p.Descent c next (add offset ob.shadowOffset) := by
  have hshown : ob.shown offset = none := by
    unfold VmObject.shown
    cases hm : ob.pageLookup offset with
    | none => rfl
    | some m => simp [hno m hm]
  refine ⟨h.chain.tail ((p.kernel.store.shadowOf_eq hob).trans hshadow), fun v hv => ?_,
    fun hres => ?_⟩
  · exact h.shown v (.shadow (p.view_eq hob) (by simp [hshown, hpager]) (by rwa [hshadow]))
  · cases h.resident hres with
    | here hob' hm habsent =>
      obtain rfl := some.inj (hob.symm.trans hob')
      rw [hno _ hm] at habsent
      cases habsent
    | deeper hob' _ _ hshadow' hcore =>
      obtain rfl := some.inj (hob.symm.trans hob')
      obtain rfl := some.inj (hshadow.symm.trans hshadow')
      exact hcore

/-- At each lookup. -/
structure FaultVars.Inv (c : FaultCall) (s : FaultVars α) : Prop where
  sound : s.paging.Sound
  descent : s.paging.Descent c s.object s.offset
  start : s.object = c.firstObject → s.offset = c.firstOffset
  top : ∀ t, s.firstM = some t → t = c.firstOffset

/-- The lookup finds an absent page in the first object, when that has no shadow any more but still
its shadow offset. -/
def FaultVars.Misplaces (c : FaultCall) (s : FaultVars α) : Prop :=
  s.object = c.firstObject ∧ ∃ ob m, s.paging.objs s.object = some ob ∧
    ob.pageLookup s.offset = some m ∧ m.busy = false ∧
    (s.paging.flags s.object s.offset).error = false ∧ m.absent = true ∧ ob.shadow = none ∧
    ob.shadowOffset ≠ 0

/-- What a turn that starts with `s` comes to. -/
def TurnSpec (c : FaultCall) (s : FaultVars α) : FaultTurn α → Prop
  | .again s' => s'.Inv c
  | .found s' m => (∃ v, m.data = some v ∧
      Visible s.paging.view (some c.firstObject) c.firstOffset v) ∧
      (s.Misplaces c ↔ s'.object = c.firstObject ∧ m.offset ≠ c.firstOffset)
  | .ret _ _ => True
  | .panic => True

theorem FaultVars.Inv.move (h : s.Inv c) (hob : s.paging.objs s.object = some ob)
    (hno : ∀ m, ob.pageLookup s.offset = some m → m.absent = true)
    (hpager : s.paging.pagerHas ob s.offset = none) {next : ObjId} (hshadow : ob.shadow = some next)
    (hsame : s.paging.Same p') (hcore : ∀ off, c.mustBeResident = true →
      s.paging.InCore next off → p'.InCore next off)
    {top : Option ℕ} (htop : ∀ t, top = some t → t = c.firstOffset) (access : VmProt) (met : ℕ) :
    FaultVars.Inv c ⟨p', next, add s.offset ob.shadowOffset, top, access, met⟩ := by
  refine ⟨hsame.sound h.sound, (h.descent.next hob hno hpager hshadow).same hsame (hcore _),
    fun heq => ?_, htop⟩
  -- the chain does not come back to the first object
  obtain rfl : next = c.firstObject := heq
  exact absurd h.descent.chain (h.sound.acyclic.not_path_back
    ((s.paging.kernel.store.shadowOf_eq hob).trans hshadow))

theorem FaultVars.Inv.zeros (h : s.Inv c) (hob : s.paging.objs s.object = some ob)
    (hno : ∀ m, ob.pageLookup s.offset = some m → m.absent = true)
    (hpager : s.paging.pagerHas ob s.offset = none) (hshadow : ob.shadow = none) :
    Visible s.paging.view (some c.firstObject) c.firstOffset 0 := by
  have hshown : ob.shown s.offset = none := by
    unfold VmObject.shown
    cases hm : ob.pageLookup s.offset with
    | none => rfl
    | some m => simp [hno m hm]
  refine h.descent.shown 0 (.shadow (s.paging.view_eq hob) (by simp [hshown, hpager]) ?_)
  dsimp only
  rw [hshadow]
  exact .zeroFill _

theorem waitForPage_spec (hw : w.Keeps c) (h : s.Inv c) : TurnSpec c s (s.waitForPage w c) := by
  unfold FaultVars.waitForPage
  cases hwait : w.waits s.met with
  | awakened =>
    obtain ⟨hsound, hkeeps⟩ := hw.waiting s.met s.paging hwait h.sound
    exact ⟨hsound, hkeeps _ _ h.descent, h.start, h.top⟩
  | restart => trivial
  | interrupted => trivial

theorem unlocked_inv (hw : w.Keeps c) (h : s.Inv c) : (s.unlocked w).Inv c := by
  obtain ⟨hsound, hkeeps⟩ := hw.meanwhile s.met s.paging h.sound
  exact ⟨hsound, hkeeps _ _ h.descent, h.start, h.top⟩

theorem unlockPage_spec (hw : w.Keeps c) (h : s.Inv c) :
    TurnSpec c s (s.unlockPage w c ob (s.paging.flags s.object s.offset)) := by
  unfold FaultVars.unlockPage
  generalize hflags : ({ s.paging.flags s.object s.offset with
    unlockRequest := s.accessRequired.or (s.paging.flags s.object s.offset).unlockRequest } :
    PageFlags) = flags
  have hsame : s.paging.Same (s.paging.setFlags s.object s.offset flags) :=
    same_setFlags (.inl (by rw [← hflags]))
  have hinv : FaultVars.Inv c { s with paging := s.paging.setFlags s.object s.offset flags } :=
    ⟨hsame.sound h.sound, h.descent.same hsame fun _ => inCore_setFlags _ _ _ _, h.start, h.top⟩
  split_ifs
  · trivial
  · dsimp only
    rw [hflags]
    cases w.requests s.met with
    | success => exact unlocked_inv hw hinv
    | sendInterrupted => trivial
    | failure => trivial
  · trivial

omit [Zero α] in
theorem objs_pagingEnd {i j : ObjId} {ob' : VmObject (Option α)}
    (h : (p.pagingEnd i).objs j = some ob') :
    ∃ ob, p.objs j = some ob ∧ ob'.pageLookup = ob.pageLookup := by
  unfold PagingState.pagingEnd at h
  rw [PagingState.objs_modify] at h
  obtain ⟨ob, hob, rfl⟩ := map_eq_some_iff.mp h
  refine ⟨ob, hob, ?_⟩
  split_ifs <;> rfl

theorem zeroFill_spec {s₁ : FaultVars α} {offset : ℕ}
    (hzero : Visible s.paging.view (some c.firstObject) c.firstOffset 0)
    (hplace : s.Misplaces c ↔ s₁.object = c.firstObject ∧ offset ≠ c.firstOffset) :
    TurnSpec c s (s₁.zeroFill w offset) :=
  ⟨⟨0, rfl, hzero⟩, hplace⟩

theorem absentPage_spec (h : s.Inv c) (hmod : c.firstOffset < modulus)
    (hob : s.paging.objs s.object = some ob) {m : VmPage (Option α)}
    (hm : ob.pageLookup s.offset = some m) (hbusy : m.busy = false)
    (herror : (s.paging.flags s.object s.offset).error = false) (habsent : m.absent = true) :
    TurnSpec c s (s.absentPage w c ob m) := by
  obtain ⟨hdata, hpager⟩ := h.sound.absent _ ob _ m hob hm habsent
  have hoff := VmObject.offset_of_pageLookup hm
  have hno : ∀ m', ob.pageLookup s.offset = some m' → m'.absent = true := fun m' hm' => by
    obtain rfl := some.inj (hm.symm.trans hm')
    exact habsent
  unfold FaultVars.absentPage
  cases hshadow : ob.shadow with
  | none =>
    have hzero := h.zeros hob hno (hpager hbusy) hshadow
    dsimp only
    split_ifs with hpages hfirst
    · trivial
    · split
      · trivial
      · refine zeroFill_spec hzero ⟨fun hmis => absurd hmis.1 hfirst, fun hmis => ?_⟩
        exact absurd rfl hmis.2
    · -- in the first object itself, the offset has been moved on already
      have hfirst : s.object = c.firstObject := not_not.mp hfirst
      have hadd : add s.offset ob.shadowOffset = c.firstOffset ↔ ob.shadowOffset = 0 := by
        rw [h.start hfirst]
        exact add_eq_left_iff hmod (h.sound.word _ ob hob)
      refine zeroFill_spec hzero ⟨fun hmis => ⟨hfirst, fun heq => ?_⟩, fun hmis => ?_⟩
      · obtain ⟨-, ob', -, hob', -, -, -, -, -, hne⟩ := hmis
        obtain rfl := some.inj (hob.symm.trans hob')
        exact hne (hadd.mp heq)
      · exact ⟨hfirst, ob, m, hob, hm, hbusy, herror, habsent, hshadow,
          fun hzero => hmis.2 (hadd.mpr hzero)⟩
  | some next =>
    have hend := same_pagingEnd s.paging s.object
    dsimp only
    split_ifs with hres hfirst
    · exact h.move hob hno (hpager hbusy) hshadow (hend.trans (same_pagingBegin _ next))
        (fun off _ hcore => inCore_pagingBegin _ _ (inCore_pagingEnd _ _ hcore)) h.top _ _
    · have hfree : (s.paging.pagingEnd s.object).Same
          ((s.paging.pagingEnd s.object).free s.object m.offset) := by
        refine same_free fun ob' hob' => ?_
        obtain ⟨ob₀, hob₀, hlook⟩ := objs_pagingEnd hob'
        obtain rfl := some.inj (hob.symm.trans hob₀)
        unfold VmObject.shown
        rw [hlook, hoff, hm]
        simp [habsent]
      exact h.move hob hno (hpager hbusy) hshadow
        ((hend.trans hfree).trans (same_pagingBegin _ next)) (fun _ htrue => absurd htrue hres)
        h.top _ _
    · have hupdate : s.paging.Same (s.paging.modify s.object fun ob =>
          { ob.updatePage m.offset fun m => { m with absent := false, busy := true } with
            absentCount := ob.absentCount - 1 }) := by
        refine same_update (g := fun m => { m with absent := false, busy := true })
          (fun _ => rfl) (fun ob' m' hob' hm' => ?_) (fun n => n - 1)
        obtain rfl := some.inj (hob.symm.trans hob')
        rw [hoff] at hm'
        obtain rfl := some.inj (hm.symm.trans hm')
        exact ⟨hdata, hdata, rfl⟩
      refine h.move hob hno (hpager hbusy) hshadow (hupdate.trans (same_pagingBegin _ next))
        (fun _ htrue => absurd htrue hres) (fun t ht => ?_) _ _
      cases ht
      rw [hoff]
      exact h.start (not_not.mp hfirst)

omit [Zero α] in
theorem pageLookup_insert {i : ObjId} {off : ℕ} {fictitious : Bool}
    (hnone : ∀ ob, p.objs i = some ob → ob.pageLookup off = none) {ob' : VmObject (Option α)}
    {m : VmPage (Option α)} (hob' : (p.insert i off fictitious).objs i = some ob')
    (hm : ob'.pageLookup off = some m) : m = ⟨off, none, true, false⟩ := by
  change (p.modify i _).objs i = some ob' at hob'
  rw [PagingState.objs_modify] at hob'
  obtain ⟨ob, hob, rfl⟩ := map_eq_some_iff.mp hob'
  rw [if_pos rfl, VmObject.pageLookup_pageInsert, hnone ob hob, if_pos rfl] at hm
  exact (some.inj hm).symm

omit [Zero α] in
theorem awaitData_same (ob : VmObject (Option α))
    (hpage : ∀ ob' m, s.paging.objs s.object = some ob' → ob'.pageLookup s.offset = some m →
      m = ⟨s.offset, none, true, false⟩) : s.paging.Same (s.awaitData ob).paging := by
  have hflags : s.paging.Same (s.paging.setFlags s.object s.offset
      { s.paging.flags s.object s.offset with
        fictitious := (s.paging.flags s.object s.offset).fictitious && !ob.internal }) :=
    same_setFlags (.inl rfl)
  refine hflags.trans (same_update (g := fun m => { m with absent := true }) (fun _ => rfl)
    (fun ob' m hob' hm => ?_) fun n => n + 1)
  rw [hpage ob' m hob' hm]
  exact ⟨rfl, rfl, rfl⟩

theorem requestPage_spec (hw : w.Keeps c) (h : s.Inv c) (hres : c.mustBeResident = false)
    (hnone : ∀ ob, s.paging.objs s.object = some ob → ob.pageLookup s.offset = none) :
    TurnSpec c s (FaultVars.requestPage w c
      { s with paging := s.paging.insert s.object s.offset true } ob) := by
  have hsame := (same_insert hnone true).trans (awaitData_same ob
    (s := { s with paging := s.paging.insert s.object s.offset true })
    fun _ _ hob' hm => pageLookup_insert hnone hob' hm)
  have hinv : FaultVars.Inv c (FaultVars.awaitData
      { s with paging := s.paging.insert s.object s.offset true } ob) := by
    refine ⟨hsame.sound h.sound, h.descent.same hsame fun htrue => ?_, h.start, h.top⟩
    rw [hres] at htrue
    cases htrue
  unfold FaultVars.requestPage
  dsimp only
  split_ifs
  · trivial
  · trivial
  · trivial
  · cases w.requests s.met with
    | success => exact unlocked_inv hw hinv
    | sendInterrupted => trivial
    | failure => trivial

theorem nextObject_spec (h : s.Inv c) (hob : s.paging.objs s.object = some ob)
    (hnone : ob.pageLookup s.offset = none) (hpager : s.paging.pagerHas ob s.offset = none)
    (hsame : s.paging.Same p') (hcore : ∀ off o, c.mustBeResident = true →
      s.paging.InCore o off → p'.InCore o off)
    {top : Option ℕ} (htop : ∀ t, top = some t → t = c.firstOffset) :
    TurnSpec c s (FaultVars.nextObject w c { s with paging := p', firstM := top } ob) := by
  have hno : ∀ m, ob.pageLookup s.offset = some m → m.absent = true := fun m hm => by
    rw [hnone] at hm
    cases hm
  have hmis : ¬ s.Misplaces c := by
    rintro ⟨-, ob', m, hob', hm, -⟩
    obtain rfl := some.inj (hob.symm.trans hob')
    rw [hnone] at hm
    cases hm
  unfold FaultVars.nextObject
  cases hshadow : ob.shadow with
  | none =>
    cases top with
    | none => trivial
    | some t =>
      dsimp only
      split_ifs
      all_goals first
        | trivial
        | refine zeroFill_spec (h.zeros hob hno hpager hshadow)
            ⟨fun hm => absurd hm hmis, fun hm => ?_⟩
          exact absurd (htop t rfl) hm.2
  | some next =>
    dsimp only
    split_ifs
    · exact h.move hob hno hpager hshadow
        ((hsame.trans (same_pagingEnd _ _)).trans (same_pagingBegin _ next))
        (fun off hres hin =>
          inCore_pagingBegin _ _ (inCore_pagingEnd _ _ (hcore off next hres hin)))
        htop _ _
    · exact h.move hob hno hpager hshadow (hsame.trans (same_pagingBegin _ next))
        (fun off hres hin => inCore_pagingBegin _ _ (hcore off next hres hin)) htop _ _

theorem noPage_spec (hw : w.Keeps c) (h : s.Inv c) (hob : s.paging.objs s.object = some ob)
    (hnone : ob.pageLookup s.offset = none) : TurnSpec c s (s.noPage w c ob) := by
  have hnone' : ∀ ob', s.paging.objs s.object = some ob' → ob'.pageLookup s.offset = none :=
    fun ob' hob' => by
      obtain rfl := some.inj (hob.symm.trans hob')
      exact hnone
  -- a page that must be resident is further down
  have hcore : c.mustBeResident = true → s.paging.pagerHas ob s.offset = none := fun hres => by
    cases h.descent.resident hres with
    | here hob' hm _ =>
      rw [hnone' _ hob'] at hm
      cases hm
    | deeper hob' _ hpager _ _ =>
      obtain rfl := some.inj (hob.symm.trans hob')
      exact hpager
  have hpager : (ob.pagerCreated && s.paging.existence s.object (add s.offset ob.pagingOffset)) =
      false → s.paging.pagerHas ob s.offset = none := fun hlook => by
    rcases Bool.and_eq_false_iff.mp hlook with hcreated | hex
    · unfold PagingState.pagerHas ObjectStore.pagerPage
      rw [hcreated]
      rfl
    · exact h.sound.existence _ ob _ hob hex
  have hfirst : ∀ t, s.object = c.firstObject → some s.offset = some t → t = c.firstOffset :=
    fun t heq ht => by
      cases ht
      exact h.start heq
  unfold FaultVars.noPage
  dsimp only
  split_ifs with hgrab hpages hlook heq heq
  · trivial
  · exact requestPage_spec hw h hgrab.2 hnone'
  · exact nextObject_spec h hob hnone (hpager (by simpa using hlook)) (same_insert hnone' true)
      (fun _ _ hres => by rw [hgrab.2] at hres; cases hres) fun t ht => hfirst t heq ht
  · exact nextObject_spec h hob hnone (hpager (by simpa using hlook)) (same_insert hnone' true)
      (fun _ _ hres => by rw [hgrab.2] at hres; cases hres) h.top
  all_goals
    have hpager' : s.paging.pagerHas ob s.offset = none := by
      cases hres : c.mustBeResident with
      | true => exact hcore hres
      | false =>
        refine hpager (Bool.eq_false_iff.mpr fun hlook => hgrab ⟨.inl hlook, hres⟩)
  · exact nextObject_spec h hob hnone hpager' (.refl _) (fun _ _ _ => id) fun t ht => by cases ht
  · exact nextObject_spec h hob hnone hpager' (.refl _) (fun _ _ _ => id) h.top

theorem look_spec (hw : w.Keeps c) (hmod : c.firstOffset < modulus) (h : s.Inv c) :
    TurnSpec c s (s.look w c) := by
  unfold FaultVars.look
  cases hob : s.paging.objs s.object with
  | none => trivial
  | some ob =>
    dsimp only
    cases hm : ob.pageLookup s.offset with
    | none => exact noPage_spec hw h hob hm
    | some m =>
      dsimp only
      split_ifs with hbusy herror habsent hlocked
      · exact waitForPage_spec hw h
      · trivial
      · exact absentPage_spec h hmod hob hm (by simpa using hbusy) (by simpa using herror) habsent
      · exact unlockPage_spec hw h
      · -- the page is there
        obtain ⟨v, hv⟩ := isSome_iff_exists.mp (h.sound.filled _ ob _ m hob hm
          (by simpa using hbusy) (by simpa using habsent) (by simpa using herror))
        have hshown : ob.shown s.offset = some v := by
          unfold VmObject.shown
          rw [hm, bind_some, if_neg habsent, hv]
        refine ⟨⟨v, hv, h.descent.shown v (.own (s.paging.view_eq hob) (by simp [hshown]))⟩,
          fun hmis => ?_, fun hmis => ?_⟩
        · obtain ⟨-, ob', m', hob', hm', -, -, habsent', -⟩ := hmis
          obtain rfl := some.inj (hob.symm.trans hob')
          obtain rfl := some.inj (hm.symm.trans hm')
          exact absurd habsent' habsent
        · refine absurd ?_ hmis.2
          exact (VmObject.offset_of_pageLookup hm).trans (h.start hmis.1)

theorem search_spec (hw : w.Keeps c) (hmod : c.firstOffset < modulus) (turns : ℕ) :
    ∀ {s seen s' : FaultVars α} {m : VmPage (Option α)}, s.Inv c →
      FaultVars.search w c turns s = some (.found seen s' m) → TurnSpec c seen (.found s' m) := by
  induction turns with
  | zero =>
    intro s seen s' m _ hr
    cases hr
  | succ turns ih =>
    intro s seen s' m h hr
    have hspec := look_spec hw hmod h
    unfold FaultVars.search at hr
    generalize s.look w c = turn at hr hspec
    cases turn with
    | again s₁ => exact ih hspec hr
    | found s₁ m₁ =>
      cases hr
      exact hspec
    | ret kr paging => cases hr
    | panic => cases hr

/-! ## The page that is returned -/

/-- The page returned holds what was visible at the last lookup, and if it is in the first object,
it is where the fault was. -/
def Placed (c : FaultCall) (seen : FaultVars α) (object : ObjId) (page : VmPage (Option α)) :
    Prop :=
  (∃ v, page.data = some v ∧ Visible seen.paging.view (some c.firstObject) c.firstOffset v) ∧
    (object = c.firstObject → page.offset = c.firstOffset)

omit [Zero α] in
theorem copyUp_page {seen s : FaultVars α} {m : VmPage (Option α)} {prot : VmProt} {turns : ℕ}
    {seen' : FaultVars α} {object : ObjId} {page : VmPage (Option α)} {top : Option ℕ}
    {prot' : VmProt} {paging : PagingState α}
    (hr : s.copyUp w c seen m prot turns = some (.success seen' object page top prot' paging)) :
    seen' = seen ∧ page.data = m.data ∧
      (object = s.object ∧ page = m ∨ object = c.firstObject ∧ page.offset = c.firstOffset) := by
  unfold FaultVars.copyUp at hr
  dsimp only at hr
  split_ifs at hr with hwrite hpages
  · cases hr
  · split at hr
    · cases hr
    · split at hr
      · cases hr
      · cases hr
      · cases hr
        exact ⟨rfl, rfl, .inr ⟨rfl, rfl⟩⟩
  · cases hr
    exact ⟨rfl, rfl, .inl ⟨rfl, rfl⟩⟩

omit [Zero α] in
theorem copyLoop_page {seen : FaultVars α} {m : VmPage (Option α)} {prot : VmProt} (turns : ℕ) :
    ∀ {s : FaultVars α} {seen' : FaultVars α} {object : ObjId} {page : VmPage (Option α)}
      {top : Option ℕ} {prot' : VmProt} {paging : PagingState α},
      FaultVars.copyLoop w c seen m prot turns s =
        some (.success seen' object page top prot' paging) →
      seen' = seen ∧ object = s.object ∧ page = m := by
  induction turns with
  | zero =>
    intro s _ _ _ _ _ _ hr
    cases hr
  | succ turns ih =>
    intro s _ _ _ _ _ _ hr
    unfold FaultVars.copyLoop at hr
    split at hr
    · cases hr
      exact ⟨rfl, rfl, rfl⟩
    · split at hr
      · cases hr
        exact ⟨rfl, rfl, rfl⟩
      · split at hr
        · cases hr
          exact ⟨rfl, rfl, rfl⟩
        · split at hr
          · -- the lock of the copy object is not to be had
            obtain ⟨hseen, hobject, hpage⟩ := ih hr
            exact ⟨hseen, hobject, hpage⟩
          · split at hr
            · cases hr
            · dsimp only at hr
              split at hr
              · split at hr
                · cases hr
                · cases hr
                  exact ⟨rfl, rfl, rfl⟩
              · split at hr
                · cases hr
                · split at hr
                  · cases hr
                    exact ⟨rfl, rfl, rfl⟩
                  · split at hr
                    · cases hr
                    · split at hr
                      · -- the copy object has gone meanwhile
                        obtain ⟨hseen, hobject, hpage⟩ := ih hr
                        exact ⟨hseen, hobject, hpage⟩
                      · cases hr
                        exact ⟨rfl, rfl, rfl⟩

end

/-- No other thread runs, and there is always a page. -/
def alone : FaultMeets ℕ :=
  ⟨fun _ => id, fun _ => id, fun _ => .awakened, fun _ => .success, fun _ => true, fun _ => true,
    fun _ => true, ⟨false, false⟩, fun _ => false⟩

theorem alone_keeps (c : FaultCall) : alone.Keeps c :=
  ⟨fun _ _ _ hp => ⟨hp, fun _ _ => id⟩, fun _ _ hp => ⟨hp, fun _ _ => id⟩⟩

/-- A write fault at the start of object 0. -/
def writeFault : FaultCall := ⟨0, 0, vmProtDefault, false, vmProtDefault, false⟩

/-- An object with one page of memory. -/
def objectOf (page : VmPage (Option ℕ)) : VmObject (Option ℕ) :=
  { (ObjectStore.template : VmObject (Option ℕ)) with memq := [page] }

def pagingOf (objs : List (VmObject (Option ℕ))) : PagingState ℕ where
  kernel := ⟨⟨fun i => objs[i]?, objs.length, fun _ => none, fun _ _ => none⟩, fun _ => false, [],
    0, []⟩
  flags _ _ := ⟨false, false, vmProtNone, vmProtNone⟩
  existence _ _ := true

/-- The top of a chain. -/
def shadowTop : VmObject (Option ℕ) :=
  { (ObjectStore.template : VmObject (Option ℕ)) with shadow := some 1, shadowOffset := 4096 }

/-- The first object shadows the second from offset 4096 on, where that has a page. -/
def shadowing : PagingState ℕ := pagingOf [shadowTop, objectOf ⟨4096, some 7, false, false⟩]

theorem shadowing_sound : shadowing.Sound := by
  have hobjs : ∀ i ob, shadowing.objs i = some ob →
      i = 0 ∧ ob = shadowTop ∨ i = 1 ∧ ob = objectOf ⟨4096, some 7, false, false⟩ := by
    intro i ob hob
    change [shadowTop, objectOf ⟨4096, some 7, false, false⟩][i]? = some ob at hob
    rcases i with _ | _ | i
    · exact .inl ⟨rfl, (some.inj hob).symm⟩
    · exact .inr ⟨rfl, (some.inj hob).symm⟩
    · cases hob
  have hpager : ∀ ob off, shadowing.pagerHas ob off = none := fun ob off => by
    unfold PagingState.pagerHas ObjectStore.pagerPage
    split_ifs
    · cases ob.pager <;> rfl
    · rfl
  have hpage : ∀ i ob off m, shadowing.objs i = some ob → ob.pageLookup off = some m →
      m = ⟨4096, some 7, false, false⟩ := by
    intro i ob off m hob hm
    have hin := List.mem_of_find?_eq_some hm
    rcases hobjs i ob hob with ⟨-, rfl⟩ | ⟨-, rfl⟩
    · cases hin
    · exact List.mem_singleton.mp hin
  refine ⟨Acyclic.of_rank (fun i => 2 - i) fun a b hab => ?_, fun i ob hob => ?_,
    fun i ob off m hob hm _ _ _ => ?_, fun i ob off m hob hm habsent => ?_,
    fun _ ob off _ _ => hpager ob off⟩
  · obtain ⟨ob, hob, hshadow⟩ := bind_eq_some_iff.mp hab
    rcases hobjs a ob hob with ⟨rfl, rfl⟩ | ⟨rfl, rfl⟩
    · cases hshadow
      decide
    · cases hshadow
  · rcases hobjs i ob hob with ⟨-, rfl⟩ | ⟨-, rfl⟩ <;> decide
  · rw [hpage i ob off m hob hm]
    rfl
  · rw [hpage i ob off m hob hm] at habsent
    cases habsent

/-- What a collapse has left: an object with a pager and a shadow offset, but no shadow. Its pager
has said that it does not have the page at offset 0. -/
def collapsedTop : VmObject (Option ℕ) :=
  { objectOf ⟨0, none, false, true⟩ with shadowOffset := 4096, pagerCreated := true }

end MachKernel.Vm
