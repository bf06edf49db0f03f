import MachKernel.Vm.Collapse

/-! Resolving a page fault (`vm_fault_page`). -/

namespace MachKernel.Vm
open Function List Option
open Word32 Links

variable {α : Type*}

/-- Why `vm_fault_page` has not got the page: it met a busy page, the bound on the steps of the
search was reached, or the collapse did not come to its end. -/
inductive FaultStop
  | blocked
  | running
  | collapse

/-- Where the search down the shadow chain ended: at a page, or at the end of the chain. -/
inductive Found (α : Type*)
  | page (object : ObjId) (offset : ℕ) (data : α)
  | zeroFill

/-- The contents of the page found, whether it may be entered for writing, and the pages taken out of
all physical maps. -/
structure FaultResult (α : Type*) where
  store : ObjectStore α
  data : α
  mayWrite : Bool
  flushed : List (ObjId × ℕ)

namespace ObjectStore

/-- The search for a page. Pages held by a pager are brought in; a page that the pager said it
does not have is removed on the way. -/
def faultSearch (st : ObjectStore α) : ℕ → ObjId → ℕ → Except FaultStop (ObjectStore α × Found α)
  | 0, _, _ => .error .running
  | turns + 1, object, offset =>
    match st.objs object with
    | none => .error .running
    | some ob =>
      let next (st' : ObjectStore α) :=
        match ob.shadow with
        | none => .ok (st', .zeroFill)
        | some shadow => st'.faultSearch turns shadow (add offset ob.shadowOffset)
      match ob.pageLookup offset with
      | some m =>
        if m.busy then .error .blocked
        else if m.absent then next (st.modify object fun ob => ob.pageFree offset)
        else .ok (st, .page object offset m.data)
      | none =>
        match st.pagerPage ob offset with
        | some v => .ok (st.modify object fun ob => ob.pageInsert ⟨offset, v, false, false⟩,
            .page object offset v)
        | none => next st

/-- `memory_object_data_initialize`: the default pager keeps a page that it already has. -/
def dataInitialize (st : ObjectStore α) (ob : VmObject α) (offset : ℕ) (v : α) : ObjectStore α :=
  match ob.pager with
  | none => st
  | some port => { st with
      pagerData := update st.pagerData port
        (update (st.pagerData port) (add offset ob.pagingOffset)
          (((st.pagerData port) (add offset ob.pagingOffset)).or (some v))) }

/-- The page at `offset` of `object` is about to be written: `copy_object` gets the old contents,
unless it has the page. With a pager the copy goes there at once. -/
def pushToCopy (st : ObjectStore α) (object copyObject : ObjId) (offset : ℕ) (v : α) :
    Except FaultStop (FaultResult α) :=
  match st.objs copyObject with
  | none => .error .blocked
  | some cob =>
    let copyOffset := sub offset cob.shadowOffset
    match cob.pageLookup copyOffset with
    | some copyM => if copyM.busy then .error .blocked else .ok ⟨st, v, true, []⟩
    | none =>
      if ¬ cob.pagerCreated then
        .ok ⟨st.modify copyObject fun ob => ob.pageInsert ⟨copyOffset, v, false, false⟩, v, true,
          [(object, offset)]⟩
      else .ok ⟨st.dataInitialize cob copyOffset v, v, true, [(object, offset)]⟩

/-- The page has been found in, or put into, the top object: the part of `vm_fault_page` that
looks at the top object's copy object. -/
def faultPush (st : ObjectStore α) (firstObject : ObjId) (firstOffset : ℕ) (v : α) (write : Bool) :
    Except FaultStop (FaultResult α) :=
  match (st.objs firstObject).bind VmObject.copy with
  | none => .ok ⟨st, v, true, []⟩
  | some copyObject =>
    if write then st.pushToCopy firstObject copyObject firstOffset v else .ok ⟨st, v, false, []⟩

/-- The page has been found further down the chain: a write gets a copy of it in the top object,
which is then collapsed. -/
def faultCopyUp (st : ObjectStore α) (g : CollapseGlobals) (lockTry : ℕ → Bool) (turns : ℕ)
    (firstObject : ObjId) (firstOffset : ℕ) (object : ObjId) (offset : ℕ) (v : α) (write : Bool) :
    Except FaultStop (FaultResult α) :=
  if write then
    let st' := st.modify firstObject fun ob => ob.pageInsert ⟨firstOffset, v, false, false⟩
    match st'.vmObjectCollapse g lockTry (some firstObject) turns with
    | .ok st'' => .ok ⟨st'', v, true, [(object, offset)]⟩
    | .error _ => .error .collapse
  else .ok ⟨st, v, false, []⟩

/-- `vm_fault_page`, with memory managers that answer and no other thread running in between. -/
def vmFaultPage [Zero α] (st : ObjectStore α) (g : CollapseGlobals) (lockTry : ℕ → Bool)
    (turns : ℕ) (firstObject : ObjId) (firstOffset : ℕ) (write : Bool) :
    Except FaultStop (FaultResult α) :=
  match st.faultSearch turns firstObject firstOffset with
  | .error e => .error e
  | .ok (st', .zeroFill) =>
    (st'.modify firstObject fun ob => ob.pageInsert ⟨firstOffset, 0, false, false⟩).faultPush
      firstObject firstOffset 0 write
  | .ok (st', .page object offset v) =>
    if object = firstObject then st'.faultPush firstObject firstOffset v write
    else st'.faultCopyUp g lockTry turns firstObject firstOffset object offset v write

end ObjectStore

/-! ## Filling in pages -/

/-- Everything in an object but its pages. -/
def VmObject.frame (ob : VmObject α) : VmObject α := { ob with memq := [] }

/-- The same objects, up to their pages. -/
def SameFrames (st st' : ObjectStore α) : Prop :=
  st'.next = st.next ∧ ∀ i, (st'.objs i).map VmObject.frame = (st.objs i).map VmObject.frame

/-- An object, or its pager, is given a page that it showed already. -/
inductive Fill [Zero α] (st : ObjectStore α) : ObjectStore α → Prop
  | insert {j : ObjId} {ob : VmObject α} {off : ℕ} {v : α} (hob : st.objs j = some ob)
      (hnone : ob.pageLookup off = none) (hoff : off < modulus) (hv : Content st (some j) off v) :
      Fill st (st.modify j fun ob => ob.pageInsert ⟨off, v, false, false⟩)
  | pager {j : ObjId} {ob : VmObject α} {off : ℕ} {v : α} (hob : st.objs j = some ob)
      (hnone : ob.pageLookup off = none) (hoff : off < modulus)
      (hv : Content st (some j) off v) : Fill st (st.dataInitialize ob off v)

section
variable {st st' st'' : ObjectStore α}

theorem SameFrames.refl (st : ObjectStore α) : SameFrames st st := ⟨rfl, fun _ => rfl⟩

theorem SameFrames.trans (h₁ : SameFrames st st') (h₂ : SameFrames st' st'') :
    SameFrames st st'' := ⟨h₂.1.trans h₁.1, fun i => (h₂.2 i).trans (h₁.2 i)⟩

variable {i object : ObjId} {ob ob' : VmObject α} {off o turns : ℕ} {v w : α} {x : Option ObjId}
  {r : FaultResult α} {write : Bool}

theorem SameFrames.objs (h : SameFrames st st')
    (hob : st.objs i = some ob) : ∃ memq, st'.objs i = some { ob with memq := memq } := by
  have hi := h.2 i
  rw [hob, map_some] at hi
  obtain ⟨ob', hob', heq⟩ := map_eq_some_iff.mp hi
  refine ⟨ob'.memq, hob'.trans (congrArg some ?_)⟩
  calc ob' = { ob'.frame with memq := ob'.memq } := rfl
    _ = { ob.frame with memq := ob'.memq } := by rw [heq]

theorem SameFrames.symm (h : SameFrames st st') : SameFrames st' st :=
  ⟨h.1.symm, fun i => (h.2 i).symm⟩

theorem SameFrames.shadowOf (h : SameFrames st st') : st'.shadowOf = st.shadowOf := by
  funext i
  cases hob : st.objs i with
  | none =>
    have hi := h.2 i
    rw [hob, map_none, map_eq_none_iff] at hi
    simp [ObjectStore.shadowOf, hob, hi]
  | some ob =>
    obtain ⟨memq, hob'⟩ := h.objs hob
    rw [st.shadowOf_eq hob, st'.shadowOf_eq hob']

theorem sameFrames_modify (j : ObjId) {f : VmObject α → VmObject α}
    (hf : ∀ ob, (f ob).frame = ob.frame) : SameFrames st (st.modify j f) := by
  refine ⟨rfl, fun i => ?_⟩
  rw [ObjectStore.objs_modify]
  split_ifs
  · rw [Option.map_map]
    cases st.objs i <;> simp [hf]
  · rfl

@[simp] theorem objs_dataInitialize (ob : VmObject α) (off : ℕ) (v : α) :
    (st.dataInitialize ob off v).objs = st.objs := by
  unfold ObjectStore.dataInitialize
  cases ob.pager <;> rfl

@[simp] theorem next_dataInitialize (ob : VmObject α) (off : ℕ) (v : α) :
    (st.dataInitialize ob off v).next = st.next := by
  unfold ObjectStore.dataInitialize
  cases ob.pager <;> rfl

theorem VmObject.resident_pageInsert (ob : VmObject α)
    (hnone : ob.pageLookup off = none) (off' : ℕ) :
    (ob.pageInsert ⟨off, v, false, false⟩).resident off' =
      if off' = off then some v else ob.resident off' := by
  unfold VmObject.resident
  rw [VmObject.pageLookup_pageInsert]
  by_cases h : off' = off
  · simp [h, hnone]
  · have h' : off ≠ off' := fun heq => h heq.symm
    simp only [h, h', if_false, or_none]

theorem pagerPage_dataInitialize (hapart : PagersApart st) {j : ObjId}
    (hob : st.objs j = some ob) (hob' : st.objs i = some ob') {off' : ℕ} (hoff : off < modulus)
    (hoff' : off' < modulus) (v : α) :
    (st.dataInitialize ob off v).pagerPage ob' off' = st.pagerPage ob' off' ∨
      i = j ∧ off' = off ∧ st.pagerPage ob' off' = none ∧
        (st.dataInitialize ob off v).pagerPage ob' off' = some v := by
  unfold ObjectStore.dataInitialize
  cases hp : ob.pager with
  | none => exact .inl rfl
  | some port =>
    by_cases hseen : ob'.pagerCreated = true ∧ ob'.pager = some port ∧
        add off' ob'.pagingOffset = add off ob.pagingOffset
    · obtain ⟨hc, hp', hadd⟩ := hseen
      obtain rfl := hapart i j ob' ob port hob' hob hp' hp
      obtain rfl := some.inj (hob.symm.trans hob')
      obtain rfl := add_right_cancel hoff' hoff hadd
      cases hd : st.pagerData port (add off' ob.pagingOffset) with
      | none => right; simp [ObjectStore.pagerPage, hc, hp, hd]
      | some w => left; simp [ObjectStore.pagerPage, hc, hp, hd]
    · left
      unfold ObjectStore.pagerPage
      cases hc : ob'.pagerCreated with
      | false => rfl
      | true =>
        cases hp' : ob'.pager with
        | none => rfl
        | some port' =>
          rcases eq_or_ne port' port with rfl | hne
          · have hadd : add off' ob'.pagingOffset ≠ add off ob.pagingOffset :=
              fun h => hseen ⟨hc, hp', h⟩
            simp [update_of_ne hadd]
          · simp [update_of_ne hne]

theorem VmObject.shadow_of_frame (h : ob'.frame = ob.frame) : ob'.shadow = ob.shadow := by
  show ob'.frame.shadow = ob.frame.shadow
  rw [h]

theorem VmObject.shadowOffset_of_frame (h : ob'.frame = ob.frame) :
    ob'.shadowOffset = ob.shadowOffset := by
  show ob'.frame.shadowOffset = ob.frame.shadowOffset
  rw [h]

theorem own_eq_pagerPage (h : ob.pageLookup off = none) : st.own ob off = st.pagerPage ob off := by
  rw [ObjectStore.own, VmObject.resident, h]
  rfl

theorem dataInitialize_eq_self (h : st.pagerPage ob off = some w) : st.dataInitialize ob off v = st := by
  unfold ObjectStore.pagerPage at h
  unfold ObjectStore.dataInitialize
  cases hp : ob.pager with
  | none => rfl
  | some port =>
    have hd : st.pagerData port (add off ob.pagingOffset) = some w := by
      simp only [hp, bind_some] at h
      split_ifs at h
      exact h
    simp only [hd, some_or]
    rw [← hd, update_eq_self, update_eq_self]

theorem pagerPage_dataInitialize_self (hcreated : ob.pagerCreated = true)
    (hpager : ob.pager.isSome) (off : ℕ) (v : α) :
    ((st.dataInitialize ob off v).pagerPage ob off).isSome := by
  obtain ⟨port, hp⟩ := isSome_iff_exists.mp hpager
  simp only [ObjectStore.pagerPage, ObjectStore.dataInitialize, hcreated, hp, if_true,
    bind_some, update_self]
  cases st.pagerData port (add off ob.pagingOffset) <;> rfl

theorem SameFrames.pagersApart (h : SameFrames st st') (hapart : PagersApart st) :
    PagersApart st' := by
  intro i j ob ob' port hob hob' hp hp'
  obtain ⟨_, h₁⟩ := h.symm.objs hob
  obtain ⟨_, h₂⟩ := h.symm.objs hob'
  exact hapart i j _ _ port h₁ h₂ hp hp'

/-- The object has a page in memory at the offset. -/
def InMemory (st : ObjectStore α) (i : ObjId) (off : ℕ) : Prop :=
  ∃ ob, st.objs i = some ob ∧ (ob.pageLookup off).isSome

theorem InMemory.of_resident (hob : st.objs i = some ob) (hr : ob.resident off = some v) : InMemory
    st i off := by
  refine ⟨ob, hob, ?_⟩
  cases hl : ob.pageLookup off with
  | none => simp [VmObject.resident, hl] at hr
  | some p => rfl

/-- A copy object shadows the object whose changes it gets, at the same offsets. -/
def CopyLinked (st : ObjectStore α) (object copyObject : ObjId) : Prop :=
  ∃ cob, st.objs copyObject = some cob ∧ cob.shadow = some object ∧ cob.shadowOffset = 0 ∧
    (cob.pagerCreated → cob.pager.isSome)

theorem SameFrames.copyLinked (h : SameFrames st st') {c : ObjId}
    (hc : CopyLinked st object c) : CopyLinked st' object c := by
  obtain ⟨cob, hcob, hlink⟩ := hc
  obtain ⟨memq, hcob'⟩ := h.objs hcob
  exact ⟨_, hcob', hlink⟩

variable [Zero α]

theorem Fill.own (h : Fill st st') (hapart : PagersApart st)
    (hob : st.objs i = some ob) : ∃ ob', st'.objs i = some ob' ∧ ob'.frame = ob.frame ∧
      ∀ off < modulus, st'.own ob' off = st.own ob off ∨
        ∃ v, Content st (some i) off v ∧ st'.own ob' off = some v := by
  cases h with
  | @insert j ob₁ off v hob₁ hnone _ hv =>
    rw [ObjectStore.objs_modify]
    split_ifs with hij
    · subst hij
      obtain rfl := some.inj (hob.symm.trans hob₁)
      refine ⟨ob.pageInsert ⟨off, v, false, false⟩, by rw [hob, map_some], rfl, fun o _ => ?_⟩
      unfold ObjectStore.own
      rw [ob.resident_pageInsert hnone]
      split_ifs with ho
      · exact .inr ⟨v, ho ▸ hv, rfl⟩
      · exact .inl rfl
    · exact ⟨ob, hob, rfl, fun o _ => .inl rfl⟩
  | @pager j ob₁ off v hob₁ hnone hoff hv =>
    rw [objs_dataInitialize]
    refine ⟨ob, hob, rfl, fun o ho => ?_⟩
    unfold ObjectStore.own
    rcases pagerPage_dataInitialize hapart hob₁ hob hoff ho v with heq | ⟨rfl, rfl, -, heq⟩
    · exact .inl (by rw [heq])
    · obtain rfl := some.inj (hob.symm.trans hob₁)
      have hr : ob.resident o = none := by simp [VmObject.resident, hnone]
      exact .inr ⟨v, hv, by rw [heq, hr]; rfl⟩

theorem Fill.content (h : Fill st st') (hapart : PagersApart st)
    (hw : Content st x o w) (ho : o < modulus) : Content st' x o w := by
  refine content_mono ?_ hw ho
  intro i ob hob
  obtain ⟨ob', hob', hframe, hown⟩ := h.own hapart hob
  refine ⟨ob', hob', fun off _ v hv => ?_, hown⟩
  rwa [VmObject.shadow_of_frame hframe, VmObject.shadowOffset_of_frame hframe]

theorem Fill.sameFrames (h : Fill st st') : SameFrames st st' := by
  cases h with
  | insert => exact sameFrames_modify _ fun _ => rfl
  | pager => exact ⟨next_dataInitialize _ _ _, fun i => by rw [objs_dataInitialize]⟩

/-! ## The search -/

/-- What the search down the chain finds when no page is busy or absent. -/
inductive FoundSpec (st : ObjectStore α) (object : ObjId) (offset : ℕ) :
    ObjectStore α × Found α → Prop
  | zeroFill (hv : Content st (some object) offset 0)
      (hnone : ∀ ob, st.objs object = some ob → st.own ob offset = none) :
      FoundSpec st object offset (st, .zeroFill)
  | page {st' : ObjectStore α} {o : ObjId} {off : ℕ} {v : α} {ob' : VmObject α}
      (hv : Content st (some object) offset v) (hfill : st' = st ∨ Fill st st')
      (hob' : st'.objs o = some ob') (hr : ob'.resident off = some v)
      (hpath : Relation.ReflTransGen (fun a b => st.shadowOf a = some b) object o)
      (hself : o = object → off = offset)
      (hother : o ≠ object → ∀ ob, st.objs object = some ob → st.own ob offset = none)
      (hsame : ∀ i ≠ o, st'.objs i = st.objs i) :
      FoundSpec st object offset (st', .page o off v)

theorem faultSearch_spec (hq : Quiet st) (hac : Acyclic st.shadowOf)
    {offset : ℕ} {r : ObjectStore α × Found α} (hoff : offset < modulus)
    (h : st.faultSearch turns object offset = .ok r) : FoundSpec st object offset r := by
  induction turns generalizing object offset with
  | zero => cases h
  | succ turns ih =>
    unfold ObjectStore.faultSearch at h
    cases hob : st.objs object with
    | none => simp [hob] at h
    | some ob =>
      simp only [hob] at h
      cases hl : ob.pageLookup offset with
      | some m =>
        obtain ⟨hbusy, habsent⟩ := hq object ob hob m (mem_of_find?_eq_some hl)
        simp only [hl, hbusy, habsent, if_false, Bool.false_eq_true] at h
        cases h
        have hr : ob.resident offset = some m.data := by simp [VmObject.resident, hl, habsent]
        exact .page (.resident hob hr) (.inl rfl) hob hr .refl (fun _ => rfl)
          (fun hne => absurd rfl hne) (fun _ _ => rfl)
      | none =>
        have hr : ob.resident offset = none := by simp [VmObject.resident, hl]
        simp only [hl] at h
        cases hp : st.pagerPage ob offset with
        | some v =>
          simp only [hp] at h
          cases h
          have hv := Content.pager hob hr hp
          have hob' : (st.modify object fun ob => ob.pageInsert ⟨offset, v, false, false⟩).objs
              object = some (ob.pageInsert ⟨offset, v, false, false⟩) := by
            rw [ObjectStore.objs_modify, if_pos rfl, hob, map_some]
          exact .page hv (.inr (.insert hob hl hoff hv)) hob'
            (by rw [ob.resident_pageInsert hl, if_pos rfl]) .refl (fun _ => rfl)
            (fun hne => absurd rfl hne)
            (fun i hi => by rw [ObjectStore.objs_modify, if_neg hi])
        | none =>
          have hown : st.own ob offset = none := by rw [ObjectStore.own, hr, hp]; rfl
          have hown' : ∀ ob₁, st.objs object = some ob₁ → st.own ob₁ offset = none := by
            intro ob₁ hob₁
            obtain rfl := some.inj (hob.symm.trans hob₁)
            exact hown
          simp only [hp] at h
          cases hsh : ob.shadow with
          | none =>
            simp only [hsh] at h
            cases h
            exact .zeroFill (content_of_shadow hob hown (hsh ▸ .zeroFill _)) hown'
          | some shadow =>
            have hlink : st.shadowOf object = some shadow := (st.shadowOf_eq hob).trans hsh
            simp only [hsh] at h
            cases ih (add_lt _ _) h with
            | zeroFill hv _ => exact .zeroFill (content_of_shadow hob hown (hsh ▸ hv)) hown'
            | page hv hfill hob' hr' hpath _ _ hsame =>
              refine .page (content_of_shadow hob hown (hsh ▸ hv)) hfill hob' hr'
                (.head hlink hpath) (fun heq => ?_) (fun _ => hown') hsame
              subst heq
              exact absurd hpath (Links.Acyclic.not_path_back hac hlink)

/-! ## The copy object -/

/-- The copy object has its own page at the offset: a write below it does not show. -/
def Holds (st : ObjectStore α) (i : ObjId) (off : ℕ) : Prop :=
  ∃ ob, st.objs i = some ob ∧ (st.own ob off).isSome

theorem Fill.holds (h : Fill st st') (hapart : PagersApart st)
    (hoff : off < modulus) (hi : Holds st i off) : Holds st' i off := by
  obtain ⟨ob, hob, hown⟩ := hi
  obtain ⟨ob', hob', -, hsame⟩ := h.own hapart hob
  refine ⟨ob', hob', ?_⟩
  rcases hsame off hoff with heq | ⟨v, -, heq⟩
  · rwa [heq]
  · rw [heq]
    rfl

theorem pushToCopy_spec {copyObject : ObjId}
    (hlink : CopyLinked st object copyObject) (hoff : off < modulus) (hq : Quiet st)
    (hv : Content st (some object) off v) (h : st.pushToCopy object copyObject off v = .ok r) :
    (r.store = st ∨ Fill st r.store) ∧ Holds r.store copyObject off := by
  obtain ⟨cob, hcob, hsh, hso, hpager⟩ := hlink
  have hsub : sub off 0 = off := by rw [sub_of_le hoff (Nat.zero_le _), Nat.sub_zero]
  have hadd : add off 0 = off := add_of_lt hoff
  simp only [ObjectStore.pushToCopy, hcob, hso, hsub] at h
  cases hl : cob.pageLookup off with
  | some m =>
    obtain ⟨hbusy, habsent⟩ := hq copyObject cob hcob m (mem_of_find?_eq_some hl)
    simp only [hl, hbusy, Bool.false_eq_true, if_false] at h
    cases h
    refine ⟨.inl rfl, cob, hcob, ?_⟩
    simp [ObjectStore.own, VmObject.resident, hl, habsent]
  | none =>
    have hown : st.own cob off = st.pagerPage cob off := own_eq_pagerPage hl
    have hcv : st.own cob off = none → Content st (some copyObject) off v := fun hn =>
      content_of_shadow hcob hn (by rw [hsh, hso, hadd]; exact hv)
    simp only [hl] at h
    cases hc : cob.pagerCreated with
    | false =>
      have hn : st.own cob off = none := by rw [hown]; simp [ObjectStore.pagerPage, hc]
      simp only [hc, Bool.false_eq_true, not_false_eq_true, if_true] at h
      cases h
      refine ⟨.inr (.insert hcob hl hoff (hcv hn)), cob.pageInsert ⟨off, v, false, false⟩, ?_, ?_⟩
      · rw [ObjectStore.objs_modify, if_pos rfl, hcob, map_some]
      · rw [ObjectStore.own, cob.resident_pageInsert hl, if_pos rfl]
        rfl
    | true =>
      simp only [hc, not_true_eq_false, if_false] at h
      cases h
      constructor
      · cases hp : st.pagerPage cob off with
        | none => exact .inr (.pager hcob hl hoff (hcv (hown.trans hp)))
        | some w => exact .inl (dataInitialize_eq_self hp)
      · refine ⟨cob, by rw [objs_dataInitialize]; exact hcob, ?_⟩
        rw [own_eq_pagerPage hl]
        exact pagerPage_dataInitialize_self hc (hpager hc) off v

theorem faultPush_spec (hob : st.objs object = some ob)
    (hlink : ∀ c, ob.copy = some c → CopyLinked st object c) (hoff : off < modulus)
    (hq : Quiet st) (hv : Content st (some object) off v)
    (h : st.faultPush object off v write = .ok r) : (r.store = st ∨ Fill st r.store) ∧
      (r.mayWrite = true → ∀ c, ob.copy = some c → Holds r.store c off) := by
  simp only [ObjectStore.faultPush, hob, bind_some] at h
  cases hc : ob.copy with
  | none =>
    simp only [hc] at h
    cases h
    exact ⟨.inl rfl, fun _ c hc' => by cases hc'⟩
  | some copyObject =>
    simp only [hc] at h
    cases write with
    | false =>
      cases h
      exact ⟨.inl rfl, fun hw => by cases hw⟩
    | true =>
      obtain ⟨hfill, hholds⟩ := pushToCopy_spec (hlink copyObject hc) hoff hq hv h
      refine ⟨hfill, fun _ c hc' => ?_⟩
      cases hc'
      exact hholds

/-! ## Faults on an object without a shadow -/

theorem Fill.quiet (h : Fill st st') (hq : Quiet st) : Quiet st' := by
  intro i ob hob p hp
  cases h with
  | @insert j ob₁ off v hob₁ hnone _ hv =>
    rw [ObjectStore.objs_modify] at hob
    split_ifs at hob with hij
    · obtain ⟨ob₂, hob₂, rfl⟩ := map_eq_some_iff.mp hob
      rcases mem_append.mp hp with hp | hp
      · exact hq i ob₂ hob₂ p hp
      · rw [mem_singleton.mp hp]
        exact ⟨rfl, rfl⟩
    · exact hq i ob hob p hp
  | pager =>
    rw [objs_dataInitialize] at hob
    exact hq i ob hob p hp

/-- Pages filled in one after another. -/
abbrev Fills (st st' : ObjectStore α) : Prop := Relation.ReflTransGen Fill st st'

theorem Fills.sameFrames (h : Fills st st') : SameFrames st st' := by
  induction h with
  | refl => exact .refl st
  | tail _ h ih => exact ih.trans h.sameFrames

theorem Fills.quiet (h : Fills st st') (hq : Quiet st) : Quiet st' := by
  induction h with
  | refl => exact hq
  | tail _ h ih => exact h.quiet ih

theorem Fills.content (h : Fills st st') (hapart : PagersApart st)
    (hw : Content st x o w) (ho : o < modulus) : Content st' x o w := by
  induction h with
  | refl => exact hw
  | tail h h' ih => exact h'.content ((Fills.sameFrames h).pagersApart hapart) ih ho

theorem Fills.holds (h : Fills st st') (hapart : PagersApart st)
    (hoff : off < modulus) (hi : Holds st i off) : Holds st' i off := by
  induction h with
  | refl => exact hi
  | tail h h' ih => exact h'.holds ((Fills.sameFrames h).pagersApart hapart) hoff ih

theorem fills_of_fill (h : st' = st ∨ Fill st st') : Fills st st' := by
  rcases h with rfl | h
  · exact .refl
  · exact .single h

theorem Fill.inMemory (h : Fill st st') (hi : InMemory st i off) : InMemory st' i off := by
  obtain ⟨ob, hob, hl⟩ := hi
  cases h with
  | @insert j ob₁ off v hob₁ hnone _ hv =>
    unfold InMemory
    rw [ObjectStore.objs_modify]
    split_ifs
    · refine ⟨_, by rw [hob, map_some], ?_⟩
      rw [VmObject.pageLookup_pageInsert]
      obtain ⟨p, hp⟩ := isSome_iff_exists.mp hl
      rw [hp]
      rfl
    · exact ⟨ob, hob, hl⟩
  | pager => exact ⟨ob, by rw [objs_dataInitialize]; exact hob, hl⟩

theorem Fills.inMemory (h : Fills st st') (hi : InMemory st i off) : InMemory st' i off := by
  induction h with
  | refl => exact hi
  | tail _ h ih => exact h.inMemory ih

theorem vmFaultPage_spec {g : CollapseGlobals} {lockTry : ℕ → Bool} (hob : st.objs object = some ob)
    (hshadow : ob.shadow = none) (hlink : ∀ c, ob.copy = some c → CopyLinked st object c)
    (hoff : off < modulus) (hq : Quiet st) (hac : Acyclic st.shadowOf) (hapart : PagersApart st)
    (h : st.vmFaultPage g lockTry turns object off write = .ok r) :
    Fills st r.store ∧ InMemory r.store object off ∧
      (r.mayWrite = true → ∀ c, ob.copy = some c → Holds r.store c off) := by
  -- once the page is in the top object, only the push to the copy object is left
  have hpush : ∀ st₁ v, Fills st st₁ → InMemory st₁ object off → Content st (some object) off v →
      st₁.faultPush object off v write = .ok r → Fills st r.store ∧ InMemory r.store object off ∧
        (r.mayWrite = true → ∀ c, ob.copy = some c → Holds r.store c off) := by
    intro st₁ v hfills hin hv hr
    have hframes := Fills.sameFrames hfills
    obtain ⟨memq, hob₁⟩ := hframes.objs hob
    obtain ⟨hfill, hholds⟩ := faultPush_spec hob₁
      (fun c hc => hframes.copyLinked (hlink c hc)) hoff (Fills.quiet hfills hq)
      (Fills.content hfills hapart hv hoff) hr
    have hfills' := fills_of_fill hfill
    exact ⟨hfills.trans hfills', Fills.inMemory hfills' hin, hholds⟩
  unfold ObjectStore.vmFaultPage at h
  cases hs : st.faultSearch turns object off with
  | error e => simp [hs] at h
  | ok found =>
    simp only [hs] at h
    cases faultSearch_spec hq hac hoff hs with
    | zeroFill hv hnone =>
      have hown := hnone ob hob
      have hl : ob.pageLookup off = none := by
        cases hl : ob.pageLookup off with
        | none => rfl
        | some p =>
          have hp := hq object ob hob p (mem_of_find?_eq_some hl)
          simp [ObjectStore.own, VmObject.resident, hl, hp.2] at hown
      refine hpush _ 0 (.single (.insert hob hl hoff hv)) ?_ hv h
      refine .of_resident (by rw [ObjectStore.objs_modify, if_pos rfl, hob, map_some])
        (by rw [ob.resident_pageInsert hl, if_pos rfl])
    | @page st₁ o off' v ob' hv hfill hob' hr hpath hself hother hsame =>
      have ho : o = object := by
        rcases Relation.ReflTransGen.cases_head hpath with rfl | ⟨b, hb, -⟩
        · rfl
        · rw [st.shadowOf_eq hob, hshadow] at hb
          cases hb
      obtain rfl := hself ho
      subst ho
      simp only [if_true] at h
      exact hpush st₁ v (fills_of_fill hfill) (.of_resident hob' hr) hv h

/-! ## Faults on an object that has not been copied -/

variable {ext : ObjId → ℕ}

omit [Zero α] in
theorem VmObject.Ok.pageInsert (h : ob.Ok)
    (hnone : ob.pageLookup off = none) (hoff : off < modulus) :
    (ob.pageInsert ⟨off, v, false, false⟩).Ok where
  nodup := by
    have hnot : off ∉ ob.memq.map VmPage.offset := by
      intro hin
      obtain ⟨p, hp, heq⟩ := mem_map.mp hin
      have hne := find?_eq_none.mp hnone p hp
      simp only [decide_eq_true_eq] at hne
      exact hne heq
    simp only [VmObject.pageInsert, map_append, map_cons, map_nil]
    refine nodup_append.mpr ⟨h.nodup, nodup_singleton _, ?_⟩
    intro x hx y hy heq
    rw [mem_singleton.mp hy] at heq
    exact hnot (heq ▸ hx)
  offset_lt p hp := by
    rcases mem_append.mp hp with hp | hp
    · exact h.offset_lt p hp
    · rw [mem_singleton.mp hp]
      exact hoff
  size_lt := h.size_lt
  absent p hp habs := by
    rcases mem_append.mp hp with hp | hp
    · exact h.absent p hp habs
    · rw [mem_singleton.mp hp] at habs
      cases habs
  external := h.external

theorem Fill.objs (h : Fill st st') (hob' : st'.objs i = some ob') :
    ∃ ob, st.objs i = some ob ∧ ob'.frame = ob.frame ∧ ob.memq <+: ob'.memq ∧ (ob.Ok → ob'.Ok) := by
  cases h with
  | @insert j ob₁ off v hob₁ hnone hoff hv =>
    rw [ObjectStore.objs_modify] at hob'
    split_ifs at hob' with hij
    · obtain ⟨ob, hob, rfl⟩ := map_eq_some_iff.mp hob'
      rw [hij] at hob
      obtain rfl := some.inj (hob.symm.trans hob₁)
      exact ⟨ob, hij ▸ hob, rfl, prefix_append _ _, fun hok => hok.pageInsert hnone hoff⟩
    · exact ⟨ob', hob', rfl, prefix_rfl, id⟩
  | pager =>
    rw [objs_dataInitialize] at hob'
    exact ⟨ob', hob', rfl, prefix_rfl, id⟩

omit [Zero α] in
theorem VmObject.grows_of_frame {ob ob' : VmObject α} (h : ob'.frame = ob.frame)
    (hm : ob.memq <+: ob'.memq) : ob.Grows ob' where
  size := show ob'.frame.size = ob.frame.size by rw [h]
  internal := show ob'.frame.internal = ob.frame.internal by rw [h]
  temporary := show ob'.frame.temporary = ob.frame.temporary by rw [h]
  copy := show ob'.frame.copy = ob.frame.copy by rw [h]
  memq := hm

omit [Zero α] in
theorem VmObject.covers_of_frame {ob ob' : VmObject α} (h : ob'.frame = ob.frame) {off : ℕ} :
    ob'.Covers off ↔ ob.Covers off := by
  have hsize : ob'.size = ob.size := show ob'.frame.size = ob.frame.size by rw [h]
  have hint : ob'.internal = ob.internal := show ob'.frame.internal = ob.frame.internal by rw [h]
  unfold VmObject.Covers
  rw [hsize, hint]

theorem Fill.keeps (h : Fill st st') (hok : StoreOk st ext) (hapart : PagersApart st) :
    Keeps st st' ext := by
  have hframes := h.sameFrames
  have hsome : ∀ i, (st'.objs i).isSome = (st.objs i).isSome := fun i => by
    have := congrArg Option.isSome (hframes.2 i)
    simpa only [isSome_map] using this
  refine
    { storeOk :=
        { bound := fun i hi => ?_, live := fun i j hij => ?_, acyclic := ?_
          refCount := fun i ob' hob' => ?_, ok := fun i ob' hob' => ?_
          window := fun i ob' j shadow' hob' hj hsh' hint off hc => ?_ }
      content := fun i off v hc _ hv => ?_, kept := fun i hi => .inl (by rwa [hsome])
      old := fun i hi => by rwa [hsome] at hi, covers := fun i off _ hc j hj => ?_
      next := hframes.1, grows := fun i ob ob' hob hob' => ?_, quiet := h.quiet
      pagersApart := hframes.pagersApart, shows := fun x off o off' _ hs => ?_ }
  · rw [hframes.1]
    exact hok.bound i (by rwa [hsome] at hi)
  · rw [hframes.shadowOf] at hij
    rw [hsome]
    exact hok.live i j hij
  · rw [hframes.shadowOf]
    exact hok.acyclic
  · obtain ⟨ob, hob, hf, -, -⟩ := h.objs hob'
    have hr : ob'.refCount = ob.refCount := show ob'.frame.refCount = ob.frame.refCount by rw [hf]
    rw [hframes.1, hframes.shadowOf, hr]
    exact hok.refCount i ob hob
  · obtain ⟨ob, hob, -, -, hobOk⟩ := h.objs hob'
    exact hobOk (hok.ok i ob hob)
  · obtain ⟨ob, hob, hf, -, -⟩ := h.objs hob'
    obtain ⟨shadow, hsh, hfsh, -, -⟩ := h.objs hsh'
    have hsize : shadow'.size = shadow.size :=
      show shadow'.frame.size = shadow.frame.size by rw [hfsh]
    have hint' : shadow'.internal = shadow.internal :=
      show shadow'.frame.internal = shadow.frame.internal by rw [hfsh]
    rw [VmObject.shadowOffset_of_frame hf, hsize]
    exact hok.window i ob j shadow hob (VmObject.shadow_of_frame hf ▸ hj) hsh (hint' ▸ hint) off
      ((VmObject.covers_of_frame hf).mp hc)
  · obtain ⟨ob, hob, hcov⟩ := hc i rfl
    exact h.content hapart hv hcov.1
  · obtain ⟨ob, hob, hcov⟩ := hc j hj
    obtain ⟨memq, hob'⟩ := hframes.objs hob
    exact ⟨_, hob', hcov⟩
  · obtain ⟨ob₁, hob₁, hf, hm, -⟩ := h.objs hob'
    obtain rfl := some.inj (hob.symm.trans hob₁)
    exact VmObject.grows_of_frame hf hm
  · induction hs with
    | here o off => exact .here o off
    | @shadow i o ob' off off' hob' _ ih =>
      obtain ⟨ob, hob, hf, -, -⟩ := h.objs hob'
      rw [VmObject.shadow_of_frame hf, VmObject.shadowOffset_of_frame hf] at ih
      exact .shadow hob (ih fun j hj => by
        rw [hsome]
        exact hok.live.shadow hob j hj)

theorem InMemory.keeps (h : Keeps st st' ext) (hi : InMemory st i off)
    (hlive : (st'.objs i).isSome) : InMemory st' i off := by
  obtain ⟨ob, hob, hl⟩ := hi
  obtain ⟨ob', hob'⟩ := isSome_iff_exists.mp hlive
  obtain ⟨ps, hps⟩ := (h.grows i ob ob' hob hob').memq
  refine ⟨ob', hob', ?_⟩
  unfold VmObject.pageLookup at hl ⊢
  rw [← hps, find?_append]
  obtain ⟨p, hp⟩ := isSome_iff_exists.mp hl
  rw [hp]
  rfl

end

end MachKernel.Vm
