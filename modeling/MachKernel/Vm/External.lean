import MachKernel.Vm.Collapse

/-! Hints about the pages that are on external storage (`vm/vm_external.c`), from the page-outs that
set them to the faults that ask for them. -/

namespace MachKernel.Vm
open Function Option List
open Word32
variable [PageSize] {α : Type*}

/-- `vm_external_state_t`. -/
inductive VmExternalState
  | exist
  | unknown
  | absent
deriving DecidableEq

/-- `struct vm_external`: a bitmap of pages, as bytes, and its size in bytes. -/
structure VmExternal where
  existenceSize : ℕ
  existenceMap : Option (ℕ → ℕ)

def smallSize : ℕ := 128 / 8

def largeSize : ℕ := 8192 / 8

/-- `vm_external_create`. The zones give memory as it was left: `zone` for the structure, `map`
for the bitmap. -/
def vmExternalCreate (size : ℕ) (zone : VmExternal) (map : ℕ → ℕ) : VmExternal :=
  let bytes := (atop size + 7) >>> 3
  if bytes ≤ smallSize then ⟨smallSize, some map⟩
  else if bytes ≤ largeSize then ⟨largeSize, some map⟩
  else { zone with existenceMap := none }

/-- `vm_external_state_get`, with the flag `vm_external_unsafe`. -/
def vmExternalStateGet (externalUnsafe : Bool) (e : Option VmExternal) (offset : ℕ) : VmExternalState :=
  match e with
  | none => .unknown
  | some e =>
    match e.existenceMap with
    | none => .unknown
    | some map =>
      let bit := atop offset
      let byte := bit >>> 3
      if externalUnsafe = true ∨ e.existenceSize ≤ byte then .unknown
      else if map byte &&& 1 <<< (bit &&& 7) ≠ 0 then .exist
      else .absent

def vmExternalStateSet (e : Option VmExternal) (offset : ℕ) (state : VmExternalState) :
    Option VmExternal :=
  e.map fun e =>
    match e.existenceMap with
    | none => e
    | some map =>
      if state ≠ .exist then e
      else
        let bit := atop offset
        let byte := bit >>> 3
        if e.existenceSize ≤ byte then e
        else
          let map := update map byte (map byte ||| 1 <<< (bit &&& 7))
          { e with existenceMap := some map }

theorem vmExternalStateGet_set {externalUnsafe : Bool} {e : Option VmExternal} {offset x : ℕ}
    (h : x = offset ∨ vmExternalStateGet externalUnsafe e x ≠ .absent) :
    vmExternalStateGet externalUnsafe (vmExternalStateSet e offset .exist) x ≠ .absent := by
  obtain _ | ⟨size, _ | map⟩ := e
  · exact fun hc => by cases hc
  · exact fun hc => by cases hc
  simp only [vmExternalStateSet, vmExternalStateGet, map_some, ne_eq, not_true, if_false] at h ⊢
  by_cases hsize : size ≤ atop offset >>> 3
  · rw [if_pos hsize]
    rcases h with rfl | h
    · simp [hsize]
    · exact h
  · rw [if_neg hsize]
    dsimp only
    by_cases hx : externalUnsafe = true ∨ size ≤ atop x >>> 3
    · simp [hx]
    · rw [if_neg hx] at h ⊢
      suffices hbit : (update map (atop offset >>> 3)
          (map (atop offset >>> 3) ||| 1 <<< (atop offset &&& 7)) (atop x >>> 3)).testBit
          (atop x &&& 7) = true by
        rw [if_pos ((and_shift_ne_zero _ _).mpr hbit)]
        exact fun hc => by cases hc
      rcases h with rfl | h
      · rw [update_self, Nat.testBit_or, Nat.one_shiftLeft, Nat.testBit_two_pow_self, Bool.or_true]
      · have hold : (map (atop x >>> 3)).testBit (atop x &&& 7) = true := by
          rw [← and_shift_ne_zero]
          by_contra hz
          exact h (if_neg (not_not_intro hz))
        rcases eq_or_ne (atop x >>> 3) (atop offset >>> 3) with heq | hne
        · rw [heq] at hold ⊢
          rw [update_self, Nat.testBit_or, hold, Bool.true_or]
        · rw [update_of_ne hne]
          exact hold

/-! ## Page-outs and collapses -/

/-- A page-out between the start of `vm_pageout_page` and `vm_pageout_setup`. -/
structure Pageout where
  object : ObjId
  offset : ℕ
  pagingOffset : ℕ
deriving DecidableEq

/-- The objects with their existence maps, the page-outs that were begun, and the offsets of the
pagers that were written to. -/
structure HintStore (α : Type*) where
  store : ObjectStore α
  existenceInfo : ObjId → Option VmExternal
  begun : List Pageout
  written : List (PortId × ℕ)

namespace HintStore

/-- `vm_object_pager_create`, with the ports and the memory that it allocates. -/
def vmObjectPagerCreate (s : HintStore α) (o : ObjId) (object : VmObject α) (pager request : PortId)
    (zone : VmExternal) (map : ℕ → ℕ) : HintStore α :=
  let info := vmExternalCreate (add object.size object.pagingOffset) zone map
  { s with
    store := s.store.set o { object with
      pagerCreated := true
      pager := some pager
      pagerRequest := some request
      internal := true
      pagerReady := true
      pagerInitialized := true }
    existenceInfo := update s.existenceInfo o (some info) }

/-- The first half of `vm_pageout_page`: the paging offset is computed and a paging reference taken,
then the object is unlocked. -/
def vmPageoutPage (s : HintStore α) (o : ObjId) (object : VmObject α) (offset : ℕ) : HintStore α :=
  { s with
    store := s.store.set o { object with pagingInProgress := object.pagingInProgress + 1 }
    begun := ⟨o, offset, add offset object.pagingOffset⟩ :: s.begun }

/-- `vm_pageout_setup` records that the page is written out; the data goes to the pager. -/
def vmPageoutSetup (s : HintStore α) (p : Pageout) (pager : Option PortId) : HintStore α :=
  { s with
    existenceInfo := update s.existenceInfo p.object
      (vmExternalStateSet (s.existenceInfo p.object) p.pagingOffset .exist)
    begun := s.begun.erase p
    written := (pager.map fun q => (q, p.pagingOffset)).toList ++ s.written }

/-- The existence map goes up together with the pager. -/
def handUp (s : HintStore α) (o : ObjId) : ObjId → Option VmExternal :=
  match s.store.shadowOf o with
  | none => s.existenceInfo
  | some b =>
    if (s.store.objs b).map VmObject.refCount = some 1 then
      update (update s.existenceInfo o (s.existenceInfo b)) b none
    else s.existenceInfo

/-- The question of `vm_fault_page`: may the pager have the page? -/
def lookForPage (s : HintStore α) (externalUnsafe : Bool) (o : ObjId) (object : VmObject α)
    (offset : ℕ) : Bool :=
  object.pagerCreated &&
    vmExternalStateGet externalUnsafe (s.existenceInfo o) (add offset object.pagingOffset) ≠ .absent

/-- The object's pager was given the page at the offset. -/
def PagedOut (s : HintStore α) (o : ObjId) (offset : ℕ) : Prop :=
  ∃ ob pager, s.store.objs o = some ob ∧ ob.pager = some pager ∧
    (pager, add offset ob.pagingOffset) ∈ s.written

/-- How many page-outs of the object have not been recorded. -/
def pageouts (s : HintStore α) (o : ObjId) : ℕ := s.begun.countP fun p => p.object = o

/-- Anything else that happens to the objects: pages come and go, objects are allocated, shadowed
and terminated, pagers die. Paging references stay as long as a page-out needs them. -/
structure Elsewhere (s s' : HintStore α) : Prop where
  begun : s'.begun = s.begun
  written : s'.written = s.written
  objects : ∀ o ob', s'.store.objs o = some ob' →
    (∃ ob, s.store.objs o = some ob ∧ (ob'.pager = ob.pager ∨ ob'.pager = none) ∧
      ob'.pagingOffset = ob.pagingOffset ∧ ob'.pagerCreated = ob.pagerCreated ∧
      s'.existenceInfo o = s.existenceInfo o) ∨
    ob'.pager = none ∧ ob'.pagerCreated = false
  paging : ∀ p ∈ s.begun, ∃ ob ob', s.store.objs p.object = some ob ∧
    s'.store.objs p.object = some ob' ∧ ob'.pagingOffset = ob.pagingOffset ∧
    s.pageouts p.object ≤ ob'.pagingInProgress

/-- The steps of the objects. -/
inductive Step (g : CollapseGlobals) : HintStore α → HintStore α → Prop
  | pagerCreate {s : HintStore α} {o : ObjId} {object : VmObject α} {pager : PortId}
      (request : PortId) (zone : VmExternal) (map : ℕ → ℕ) (hobject : s.store.objs o = some object)
      (hpager : object.pagerCreated = false) (hnew : ∀ x, (pager, x) ∉ s.written)
      (hfree : ∀ i ob, s.store.objs i = some ob → ob.pager ≠ some pager) :
      Step g s (s.vmObjectPagerCreate o object pager request zone map)
  | pageout {s : HintStore α} {o : ObjId} {object : VmObject α} (offset : ℕ)
      (hobject : s.store.objs o = some object) : Step g s (s.vmPageoutPage o object offset)
  | setup {s : HintStore α} {p : Pageout} {object : VmObject α} (hbegun : p ∈ s.begun)
      (hobject : s.store.objs p.object = some object) : Step g s (s.vmPageoutSetup p object.pager)
  | collapse {s : HintStore α} {o : ObjId} {st' : ObjectStore α} (lockTry : Bool)
      (h : s.store.collapsePass g lockTry o = .again st') :
      Step g s { s with store := st', existenceInfo := s.handUp o }
  | elsewhere {s s' : HintStore α} (h : s.Elsewhere s') : Step g s s'

/-- No objects yet. -/
def initial : HintStore α where
  store := ⟨fun _ => none, 0, fun _ => none, fun _ _ => none⟩
  existenceInfo _ := none
  begun := []
  written := []

/-- Every page that was written to the pager of an object may be there, for all that the existence
map says; pagers are not shared; paging offsets stay while a page-out is under way. -/
structure Hinted (externalUnsafe : Bool) (s : HintStore α) : Prop where
  exist : ∀ o ob pager x, s.store.objs o = some ob → ob.pager = some pager →
    (pager, x) ∈ s.written → vmExternalStateGet externalUnsafe (s.existenceInfo o) x ≠ .absent
  pager : ∀ o ob, s.store.objs o = some ob → ob.pagerCreated = false → ob.pager = none
  apart : ∀ i j ob ob' pager, s.store.objs i = some ob → s.store.objs j = some ob' →
    ob.pager = some pager → ob'.pager = some pager → i = j
  paging : ∀ p ∈ s.begun, ∃ ob, s.store.objs p.object = some ob ∧
    p.pagingOffset = add p.offset ob.pagingOffset ∧ s.pageouts p.object ≤ ob.pagingInProgress

variable {s s' : HintStore α} {g : CollapseGlobals} {externalUnsafe : Bool}

variable {object : VmObject α}

theorem Hinted.pagerCreate (h : Hinted externalUnsafe s) {o : ObjId}
    {pager : PortId} (request : PortId) (zone : VmExternal) (map : ℕ → ℕ)
    (hobject : s.store.objs o = some object) (hnew : ∀ x, (pager, x) ∉ s.written)
    (hfree : ∀ i ob, s.store.objs i = some ob → ob.pager ≠ some pager) :
    Hinted externalUnsafe (s.vmObjectPagerCreate o object pager request zone map) := by
  have hother : ∀ i, i ≠ o →
      (s.vmObjectPagerCreate o object pager request zone map).store.objs i = s.store.objs i :=
    fun i hi => s.store.objs_set_of_ne hi _
  have hself : (s.vmObjectPagerCreate o object pager request zone map).store.objs o = some _ :=
    s.store.objs_set_self o _
  refine ⟨?_, ?_, ?_, ?_⟩
  · intro i ob q x hi hq hx
    rcases eq_or_ne i o with rfl | hne
    · rw [hself] at hi
      obtain rfl := some.inj hi
      cases hq
      exact absurd hx (hnew x)
    · rw [hother i hne] at hi
      have := h.exist i ob q x hi hq hx
      rwa [show (s.vmObjectPagerCreate o object pager request zone map).existenceInfo i =
        s.existenceInfo i from update_of_ne hne _ _]
  · intro i ob hi hc
    rcases eq_or_ne i o with rfl | hne
    · rw [hself] at hi
      obtain rfl := some.inj hi
      cases hc
    · rw [hother i hne] at hi
      exact h.pager i ob hi hc
  · intro i j ob ob' q hi hj hq hq'
    by_cases hi' : i = o <;> by_cases hj' : j = o
    · rw [hi', hj']
    · rw [hi', hself] at hi
      obtain rfl := some.inj hi
      cases hq
      rw [hother j hj'] at hj
      exact absurd hq' (hfree j ob' hj)
    · rw [hj', hself] at hj
      obtain rfl := some.inj hj
      cases hq'
      rw [hother i hi'] at hi
      exact absurd hq (hfree i ob hi)
    · rw [hother i hi'] at hi
      rw [hother j hj'] at hj
      exact h.apart i j ob ob' q hi hj hq hq'
  · intro p hp
    obtain ⟨ob, hob, hoff, hcount⟩ := h.paging p hp
    rcases eq_or_ne p.object o with heq | hne
    · rw [heq, hobject] at hob
      obtain rfl := some.inj hob
      rw [heq] at hcount ⊢
      exact ⟨_, hself, hoff, hcount⟩
    · exact ⟨ob, (hother _ hne).trans hob, hoff, hcount⟩

theorem Hinted.pageout (h : Hinted externalUnsafe s) {o : ObjId} (offset : ℕ)
    (hobject : s.store.objs o = some object) :
    Hinted externalUnsafe (s.vmPageoutPage o object offset) := by
  -- the objects have the same pagers and paging offsets as before
  have hsame : ∀ i ob', (s.vmPageoutPage o object offset).store.objs i = some ob' →
      ∃ ob, s.store.objs i = some ob ∧ ob'.pager = ob.pager ∧ ob'.pagerCreated = ob.pagerCreated := by
    intro i ob' hi
    rcases eq_or_ne i o with rfl | hne
    · rw [show (s.vmPageoutPage i object offset).store.objs i = some _ from
        s.store.objs_set_self i _] at hi
      obtain rfl := some.inj hi
      exact ⟨object, hobject, rfl, rfl⟩
    · rw [show (s.vmPageoutPage o object offset).store.objs i = s.store.objs i from
        s.store.objs_set_of_ne hne _] at hi
      exact ⟨ob', hi, rfl, rfl⟩
  refine ⟨?_, ?_, ?_, ?_⟩
  · intro i ob' q x hi hq hx
    obtain ⟨ob, hob, hpager, -⟩ := hsame i ob' hi
    exact h.exist i ob q x hob (hpager ▸ hq) hx
  · intro i ob' hi hc
    obtain ⟨ob, hob, hpager, hcreated⟩ := hsame i ob' hi
    rw [hpager]
    exact h.pager i ob hob (hcreated ▸ hc)
  · intro i j ob₁ ob₂ q hi hj hq hq'
    obtain ⟨ob, hob, hpager, -⟩ := hsame i ob₁ hi
    obtain ⟨ob', hob', hpager', -⟩ := hsame j ob₂ hj
    exact h.apart i j ob ob' q hob hob' (hpager ▸ hq) (hpager' ▸ hq')
  · have hself : (s.vmPageoutPage o object offset).store.objs o = some _ :=
      s.store.objs_set_self o _
    have hcount : ∀ i, (s.vmPageoutPage o object offset).pageouts i =
        s.pageouts i + if o = i then 1 else 0 := by
      intro i
      unfold pageouts vmPageoutPage
      rw [countP_cons]
      simp
    intro p hp
    rw [hcount]
    rcases mem_cons.mp hp with rfl | hp
    · refine ⟨_, hself, rfl, ?_⟩
      rw [if_pos rfl]
      by_cases hmem : ∃ p ∈ s.begun, p.object = o
      · obtain ⟨p', hp', heq⟩ := hmem
        obtain ⟨ob, hob, -, hle⟩ := h.paging p' hp'
        rw [heq, hobject] at hob
        obtain rfl := some.inj hob
        rw [heq] at hle
        exact Nat.succ_le_succ hle
      · have hzero : s.pageouts o = 0 := countP_eq_zero.mpr fun p hp => by
          simpa using fun heq => hmem ⟨p, hp, heq⟩
        rw [hzero]
        exact Nat.succ_le_succ (Nat.zero_le _)
    · obtain ⟨ob, hob, hoff, hle⟩ := h.paging p hp
      rcases eq_or_ne o p.object with rfl | hne
      · rw [hobject] at hob
        obtain rfl := some.inj hob
        rw [if_pos rfl]
        exact ⟨_, hself, hoff, Nat.succ_le_succ hle⟩
      · rw [if_neg hne]
        exact ⟨ob, (s.store.objs_set_of_ne hne.symm _).trans hob, hoff, hle⟩

theorem Hinted.setup (h : Hinted externalUnsafe s) {p : Pageout}
    (hobject : s.store.objs p.object = some object) :
    Hinted externalUnsafe (s.vmPageoutSetup p object.pager) := by
  refine ⟨?_, h.pager, h.apart, ?_⟩
  · intro i ob q x hi hq hx
    have hmem : (object.pager = some q ∧ x = p.pagingOffset) ∨ (q, x) ∈ s.written := by
      rcases mem_append.mp hx with hx | hx
      · obtain ⟨r, hr, heq⟩ := map_eq_some_iff.mp (Option.mem_toList.mp hx)
        obtain ⟨rfl, rfl⟩ := Prod.mk.inj heq
        exact .inl ⟨hr, rfl⟩
      · exact .inr hx
    rcases eq_or_ne i p.object with rfl | hne
    · rw [show (s.vmPageoutSetup p object.pager).existenceInfo p.object = _ from
        update_self _ _ _]
      refine vmExternalStateGet_set ?_
      rcases hmem with ⟨-, rfl⟩ | hmem
      · exact .inl rfl
      · exact .inr (h.exist p.object ob q x hi hq hmem)
    · rw [show (s.vmPageoutSetup p object.pager).existenceInfo i = s.existenceInfo i from
        update_of_ne hne _ _]
      rcases hmem with ⟨hpager, -⟩ | hmem
      · exact absurd (h.apart i p.object ob object q hi hobject hq hpager) hne
      · exact h.exist i ob q x hi hq hmem
  · intro p' hp'
    obtain ⟨ob, hob, hoff, hle⟩ := h.paging p' (mem_of_mem_erase hp')
    refine ⟨ob, hob, hoff, le_trans ?_ hle⟩
    exact (erase_sublist).countP_le

theorem Hinted.elsewhere (h : Hinted externalUnsafe s) (he : s.Elsewhere s') :
    Hinted externalUnsafe s' := by
  have hpager : ∀ i ob' q, s'.store.objs i = some ob' → ob'.pager = some q →
      ∃ ob, s.store.objs i = some ob ∧ ob.pager = some q ∧ s'.existenceInfo i = s.existenceInfo i := by
    intro i ob' q hi hq
    rcases he.objects i ob' hi with ⟨ob, hob, heq | hnone, -, -, hinfo⟩ | ⟨hnone, -⟩
    · exact ⟨ob, hob, heq ▸ hq, hinfo⟩
    · rw [hnone] at hq
      cases hq
    · rw [hnone] at hq
      cases hq
  refine ⟨?_, ?_, ?_, ?_⟩
  · intro i ob' q x hi hq hx
    obtain ⟨ob, hob, hq', hinfo⟩ := hpager i ob' q hi hq
    rw [hinfo]
    exact h.exist i ob q x hob hq' (he.written ▸ hx)
  · intro i ob' hi hc
    rcases he.objects i ob' hi with ⟨ob, hob, heq | hnone, -, hcreated, -⟩ | ⟨hnone, -⟩
    · rw [heq]
      exact h.pager i ob hob (hcreated ▸ hc)
    · exact hnone
    · exact hnone
  · intro i j ob₁ ob₂ q hi hj hq hq'
    obtain ⟨ob, hob, hpq, -⟩ := hpager i ob₁ q hi hq
    obtain ⟨ob', hob', hpq', -⟩ := hpager j ob₂ q hj hq'
    exact h.apart i j ob ob' q hob hob' hpq hpq'
  · intro p hp
    rw [he.begun] at hp
    obtain ⟨ob, ob', hob, hob', hoff, hle⟩ := he.paging p hp
    obtain ⟨ob₁, hob₁, hoff₁, -⟩ := h.paging p hp
    rw [hob] at hob₁
    obtain rfl := some.inj hob₁
    refine ⟨ob', hob', hoff ▸ hoff₁, ?_⟩
    unfold pageouts
    rw [he.begun]
    exact hle

/-! ## Collapses -/

end HintStore

omit [PageSize] in
theorem absorbPages_memq {backingOffset size : ℕ} {ps : List (VmPage α)} {object object' : VmObject α}
    (h : ps.foldlM (absorbPage backingOffset size) object = some object') :
    object' = { object with memq := object'.memq } := by
  induction ps generalizing object with
  | nil =>
    cases h
    rfl
  | cons p ps ih =>
    rw [foldlM_cons] at h
    obtain ⟨object₁, hp, hps⟩ := bind_eq_some_iff.mp h
    have hstep : object₁ = { object with memq := object₁.memq } := by
      unfold absorbPage at hp
      dsimp only at hp
      split_ifs at hp
      · cases hp
        rfl
      · cases hl : object.pageLookup (sub p.offset backingOffset) with
        | none =>
          rw [hl] at hp
          cases hp
          rfl
        | some pp =>
          rw [hl] at hp
          dsimp only at hp
          split_ifs at hp
          cases hp
          rfl
    rw [ih hps, hstep]

omit [PageSize] in
/-- What one turn of the loop of `vm_object_collapse` can do. -/
theorem collapsePass_cases {st st' : ObjectStore α} {g : CollapseGlobals} {lockTry : Bool} {o : ObjId}
    (h : st.collapsePass g lockTry o = .again st') : ∃ object b backing,
      st.objs o = some object ∧ object.pagerCreated = false ∧ object.pagingInProgress = 0 ∧
      object.shadow = some b ∧ st.objs b = some backing ∧ backing.pagingInProgress = 0 ∧
      ((backing.refCount = 1 ∧ ∃ memq,
          st' = (st.handOver o { object with memq := memq } backing).free b) ∨
        backing.refCount ≠ 1 ∧ st' = st.bypass o b object backing) := by
  unfold ObjectStore.collapsePass at h
  cases hobject : st.objs o with
  | none =>
    rw [hobject] at h
    cases h
  | some object =>
    rw [hobject] at h
    dsimp only at h
    split_ifs at h with hidle
    cases hshadow : object.shadow with
    | none =>
      rw [hshadow] at h
      cases h
    | some b =>
      rw [hshadow] at h
      dsimp only at h
      cases hbacking : st.objs b with
      | none =>
        rw [hbacking] at h
        cases h
      | some backing =>
        rw [hbacking] at h
        dsimp only at h
        simp only [not_or, Bool.not_eq_true, not_not] at hidle
        unfold ObjectStore.collapseBacking at h
        split_ifs at h with hb hcopy href hlock hbypass hpager hneeded
        · refine ⟨object, b, backing, rfl, hidle.1, hidle.2.1, hshadow, hbacking, ?_, .inl ⟨href, ?_⟩⟩
          · by_contra hne
            exact hb (.inr hne)
          · unfold ObjectStore.absorb at h
            cases hfold : backing.memq.foldlM (absorbPage object.shadowOffset object.size) object with
            | none =>
              rw [hfold] at h
              cases h
            | some object' =>
              rw [hfold] at h
              dsimp only at h
              split_ifs at h
              cases h
              rw [absorbPages_memq hfold]
              exact ⟨object'.memq, rfl⟩
        · cases h
          refine ⟨object, b, backing, rfl, hidle.1, hidle.2.1, hshadow, hbacking, ?_,
            .inr ⟨href, rfl⟩⟩
          by_contra hne
          exact hb (.inr hne)

namespace HintStore
variable {s s' : HintStore α} {g : CollapseGlobals} {externalUnsafe : Bool}

theorem pageouts_pos {p : Pageout} (hp : p ∈ s.begun) : 0 < s.pageouts p.object :=
  countP_pos_iff.mpr ⟨p, hp, by simp⟩

variable {o b : ObjId} {object backing : VmObject α} {lockTry : Bool} {st' : ObjectStore α}

omit [PageSize] in
theorem objs_bypass_pager {st : ObjectStore α} {i : ObjId} (b : ObjId)
    (backing : VmObject α) (hobject : st.objs o = some object) {ob : VmObject α}
      (hi : st.objs i = some ob) :
    ∃ ob', (st.bypass o b object backing).objs i = some ob' ∧ ob'.pager = ob.pager ∧
      ob'.pagingOffset = ob.pagingOffset ∧ ob'.pagerCreated = ob.pagerCreated ∧
      ob'.pagingInProgress = ob.pagingInProgress := by
  rw [objs_bypass]
  rcases eq_or_ne i o with rfl | hne
  · rw [hobject] at hi
    obtain rfl := some.inj hi
    rw [st.objs_set_self]
    exact ⟨_, rfl, rfl, rfl, rfl, rfl⟩
  · rw [st.objs_set_of_ne hne, hi]
    exact ⟨_, rfl, rfl, rfl, rfl, rfl⟩

omit [PageSize] in
theorem objs_absorbed {st : ObjectStore α} {o b : ObjId} (object backing : VmObject α) (i : ObjId) :
    ((st.handOver o object backing).free b).objs i =
      if i = b then none else if i = o then some (object.takeOver backing) else st.objs i := by
  rcases eq_or_ne i b with rfl | hne
  · rw [ObjectStore.objs_free_self, if_pos rfl]
  · rw [ObjectStore.objs_free_of_ne _ hne, if_neg hne, objs_handOver]

theorem handUp_of_shadow (hshadow : s.store.shadowOf o = some b)
    (hbacking : s.store.objs b = some backing) : s.handUp o = if backing.refCount = 1 then
        update (update s.existenceInfo o (s.existenceInfo b)) b none
      else s.existenceInfo := by
  unfold handUp
  rw [hshadow]
  dsimp only
  rw [hbacking, map_some]
  simp only [Option.some.injEq]

theorem Hinted.bypass (h : Hinted externalUnsafe s) (hobject : s.store.objs o = some object) :
    Hinted externalUnsafe { s with store := s.store.bypass o b object backing } := by
  refine h.elsewhere ⟨rfl, rfl, fun i ob' hi => .inl ?_, fun p hp => ?_⟩
  · cases hob : s.store.objs i with
    | none =>
      dsimp only at hi
      rw [objs_bypass] at hi
      rcases eq_or_ne i o with rfl | hne
      · rw [hobject] at hob
        cases hob
      · rw [s.store.objs_set_of_ne hne, hob] at hi
        cases hi
    | some ob =>
      obtain ⟨ob₁, hob₁, hpager, hoff, hcreated, -⟩ := objs_bypass_pager b backing hobject hob
      dsimp only at hi
      rw [hob₁] at hi
      obtain rfl := some.inj hi
      exact ⟨ob, rfl, .inl hpager, hoff, hcreated, rfl⟩
  · obtain ⟨ob, hob, -, hle⟩ := h.paging p hp
    obtain ⟨ob', hob', -, hoff, -, hpaging⟩ := objs_bypass_pager b backing hobject hob
    exact ⟨ob, ob', hob, hob', hoff, by rw [hpaging]; exact hle⟩

theorem Hinted.absorb (h : Hinted externalUnsafe s)
    (memq : List (VmPage α)) (hobject : s.store.objs o = some object)
      (hidle : object.pagingInProgress = 0)
    (hbacking : s.store.objs b = some backing) (hidle' : backing.pagingInProgress = 0) :
    Hinted externalUnsafe { s with
      store := (s.store.handOver o { object with memq := memq } backing).free b
      existenceInfo := update (update s.existenceInfo o (s.existenceInfo b)) b none } := by
  generalize hobject' : ({ object with memq := memq } : VmObject α) = object'
  have hobjs : ∀ i, ((s.store.handOver o object' backing).free b).objs i =
      if i = b then none else if i = o then some (object'.takeOver backing) else s.store.objs i :=
    objs_absorbed object' backing
  -- the object whose pager and map an object now has
  have hfrom : ∀ i ob', ((s.store.handOver o object' backing).free b).objs i = some ob' →
      ∃ j ob, s.store.objs j = some ob ∧ ob'.pager = ob.pager ∧ ob'.pagerCreated = ob.pagerCreated ∧
        update (update s.existenceInfo o (s.existenceInfo b)) b none i =
          s.existenceInfo j ∧ i = if j = b then o else j := by
    intro i ob' hi
    rw [hobjs] at hi
    split_ifs at hi with hib hio
    · obtain rfl := some.inj hi
      refine ⟨b, backing, hbacking, rfl, rfl, ?_, by rw [if_pos rfl, hio]⟩
      rw [update_of_ne hib, hio, update_self]
    · refine ⟨i, ob', hi, rfl, rfl, ?_, by rw [if_neg hib]⟩
      rw [update_of_ne hib, update_of_ne hio]
  refine ⟨?_, ?_, ?_, ?_⟩
  · intro i ob' q x hi hq hx
    obtain ⟨j, ob, hob, hpager, -, hinfo, -⟩ := hfrom i ob' hi
    dsimp only
    rw [hinfo]
    exact h.exist j ob q x hob (hpager ▸ hq) hx
  · intro i ob' hi hc
    obtain ⟨j, ob, hob, hpager, hcreated, -, -⟩ := hfrom i ob' hi
    rw [hpager]
    exact h.pager j ob hob (hcreated ▸ hc)
  · intro i i' ob₁ ob₂ q hi hi' hq hq'
    obtain ⟨j, ob, hob, hpager, -, -, hij⟩ := hfrom i ob₁ hi
    obtain ⟨j', ob', hob', hpager', -, -, hij'⟩ := hfrom i' ob₂ hi'
    rw [hij, hij', h.apart j j' ob ob' q hob hob' (hpager ▸ hq) (hpager' ▸ hq')]
  · intro p hp
    obtain ⟨ob, hob, hoff, hle⟩ := h.paging p hp
    have hpos : 0 < ob.pagingInProgress := (pageouts_pos hp).trans_le hle
    refine ⟨ob, ?_, hoff, hle⟩
    dsimp only
    rw [hobjs, if_neg, if_neg, hob]
    · intro heq
      rw [heq, hobject] at hob
      obtain rfl := some.inj hob
      omega
    · intro heq
      rw [heq, hbacking] at hob
      obtain rfl := some.inj hob
      omega

theorem Hinted.collapse (h : Hinted externalUnsafe s)
    (hc : s.store.collapsePass g lockTry o = .again st') :
    Hinted externalUnsafe { s with store := st', existenceInfo := s.handUp o } := by
  obtain ⟨object, b, backing, hobject, -, hidle, hshadow, hbacking, hidle', hcase⟩ :=
    collapsePass_cases hc
  have hshadowOf : s.store.shadowOf o = some b := (s.store.shadowOf_eq hobject).trans hshadow
  rw [handUp_of_shadow hshadowOf hbacking]
  rcases hcase with ⟨href, memq, rfl⟩ | ⟨href, rfl⟩
  · rw [if_pos href]
    exact h.absorb memq hobject hidle hbacking hidle'
  · rw [if_neg href]
    exact h.bypass hobject

/-! ## Runs -/

theorem Hinted.step (h : Hinted externalUnsafe s) (hs : Step g s s') : Hinted externalUnsafe s' := by
  cases hs with
  | pagerCreate request zone map hobject _ hnew hfree =>
    exact h.pagerCreate request zone map hobject hnew hfree
  | pageout offset hobject => exact h.pageout offset hobject
  | setup _ hobject => exact h.setup hobject
  | collapse lockTry hc => exact h.collapse hc
  | elsewhere he => exact h.elsewhere he

theorem Hinted.run (hr : Relation.ReflTransGen (Step g) (initial : HintStore α) s) :
    Hinted externalUnsafe s := by
  induction hr with
  | refl =>
    refine ⟨?_, ?_, ?_, ?_⟩
    · intro o ob q x ho
      cases ho
    · intro o ob ho
      cases ho
    · intro i j ob ob' q ho
      cases ho
    · intro p hp
      cases hp
  | tail _ hs ih => exact ih.step hs

/-- A fault looks for every page that was written to the object's pager, and the page that a
page-out records is one of them. -/
theorem vmExternalStateGet_sound (externalUnsafe : Bool)
    (hr : Relation.ReflTransGen (Step g) (initial : HintStore α) s) :
    (∀ o ob offset, s.store.objs o = some ob → s.PagedOut o offset →
      s.lookForPage externalUnsafe o ob offset = true) ∧
    ∀ p ∈ s.begun, ∃ ob, s.store.objs p.object = some ob ∧
      (ob.pager ≠ none → (s.vmPageoutSetup p ob.pager).PagedOut p.object p.offset) := by
  have h : Hinted externalUnsafe s := Hinted.run hr
  constructor
  · rintro o ob offset hob ⟨ob', q, hob', hq, hmem⟩
    rw [hob] at hob'
    obtain rfl := some.inj hob'
    have hcreated : ob.pagerCreated = true := by
      by_contra hc
      rw [h.pager o ob hob (by simpa using hc)] at hq
      cases hq
    have hne := h.exist o ob q _ hob hq hmem
    unfold lookForPage
    simp [hcreated, hne]
  · intro p hp
    obtain ⟨ob, hob, hoff, -⟩ := h.paging p hp
    refine ⟨ob, hob, fun hne => ?_⟩
    obtain ⟨q, hq⟩ := ne_none_iff_exists'.mp hne
    refine ⟨ob, q, hob, hq, ?_⟩
    unfold vmPageoutSetup
    dsimp only
    rw [hq, ← hoff]
    exact mem_append_left _ (mem_singleton.mpr rfl)

def pageObject : VmObject ℕ := { ObjectStore.template with size := 4096 }

/-- An object of one page, alone in the store. -/
def onePage : HintStore ℕ :=
  { (initial : HintStore ℕ) with store := (initial : HintStore ℕ).store.set 0 pageObject }

/-- The object when it has a pager. -/
def pagedObject : VmObject ℕ :=
  { pageObject with
    pager := some 0
    pagerRequest := some 1
    pagerCreated := true
    pagerInitialized := true
    pagerReady := true }

omit [PageSize] in
/-- After an object got a pager and its first page was written out, faults look for that page. -/
theorem vmExternalStateGet_sound_first : ∃ (s : HintStore ℕ) (ob : VmObject ℕ),
    Relation.ReflTransGen (@Step pages4096 ℕ ⟨true, true⟩) initial s ∧ s.store.objs 0 = some ob ∧
    s.PagedOut 0 0 ∧ @lookForPage pages4096 ℕ s false 0 ob 0 = true := by
  letI := pages4096
  have hobjs : ∀ i, onePage.store.objs i = if i = 0 then some pageObject else none := fun i =>
    update_apply _ _ _ _
  have h₁ : Step ⟨true, true⟩ initial onePage := by
    refine .elsewhere ⟨rfl, rfl, fun i ob hi => .inr ?_, fun p hp => by cases hp⟩
    rw [hobjs] at hi
    split_ifs at hi
    cases hi
    exact ⟨rfl, rfl⟩
  have h₂ : Step ⟨true, true⟩ onePage
      (onePage.vmObjectPagerCreate 0 pageObject 0 1 ⟨0, none⟩ fun _ => 0) := by
    refine .pagerCreate 1 _ _ (hobjs 0) rfl (fun x hx => by cases hx) fun i ob hi => ?_
    rw [hobjs] at hi
    split_ifs at hi
    cases hi
    exact fun hc => by cases hc
  have h₃ := Step.pageout (g := ⟨true, true⟩) 0 (show (onePage.vmObjectPagerCreate 0 pageObject 0 1
    ⟨0, none⟩ fun _ => 0).store.objs 0 = some pagedObject from rfl)
  have hrun := ((Relation.ReflTransGen.single h₁).tail h₂).tail h₃
  obtain ⟨ob, hob, hpaged⟩ := (vmExternalStateGet_sound false hrun).2 _ (mem_cons_self ..)
  have h₄ := Step.setup (g := ⟨true, true⟩) (mem_cons_self ..) hob
  have hpager : ob.pager ≠ none := by
    cases hob
    exact fun hc => by cases hc
  exact ⟨_, ob, hrun.tail h₄, hob, hpaged hpager,
    (vmExternalStateGet_sound false (hrun.tail h₄)).1 0 ob 0 hob (hpaged hpager)⟩

end HintStore

end MachKernel.Vm
