import MachKernel.Vm.Object

/-! Collapsing an object with the object backing it (`vm_object_collapse`). -/

namespace MachKernel.Vm
open Function List ObjectStore Option
open Word32 Links

variable {α : Type*}

/-- `vm_object_collapse_allowed` and `vm_object_collapse_bypass_allowed`. -/
structure CollapseGlobals where
  collapseAllowed : Bool
  bypassAllowed : Bool

/-- How one turn of the loop of `vm_object_collapse` ends. -/
inductive Pass (α : Type*)
  | leave
  | again (st : ObjectStore α)
  | panic

/-- What the loop has not come to after some number of turns. -/
inductive Unfinished
  | running
  | panic

/-- One page of the backing object; `none` is the panic on an absent page of the parent. -/
def absorbPage (backingOffset size : ℕ) (object : VmObject α) (p : VmPage α) :
    Option (VmObject α) :=
  let newOffset := sub p.offset backingOffset
  if p.offset < backingOffset ∨ size ≤ newOffset then some object
  else
    match object.pageLookup newOffset with
    | some pp => if pp.absent then none else some object
    | none => some (object.pageInsert { p with offset := newOffset })

/-- The test of the bypass scan: the parent has no page here. -/
def pageNeeded (backingOffset size : ℕ) (object : VmObject α) (p : VmPage α) : Bool :=
  let newOffset := sub p.offset backingOffset
  backingOffset ≤ p.offset ∧ newOffset ≤ size ∧ (object.pageLookup newOffset).isNone

/-- `object` after it has taken over the pager and the shadow of `backing`. -/
def VmObject.takeOver (object backing : VmObject α) : VmObject α :=
  { object with
    pager := backing.pager
    pagerInitialized := backing.pagerInitialized
    pagerReady := backing.pagerReady
    pagerCreated := backing.pagerCreated
    pagerRequest := backing.pagerRequest
    pagerName := backing.pagerName
    -- without a pager the paging offset is left alone
    pagingOffset := if backing.pager.isSome then add backing.pagingOffset object.shadowOffset
      else object.pagingOffset
    shadow := backing.shadow
    shadowOffset := add object.shadowOffset backing.shadowOffset }

namespace ObjectStore

/-- `object->shadow->copy != VM_OBJECT_NULL`. -/
def hasCopy (st : ObjectStore α) (shadow : Option ObjId) : Bool :=
  (shadow.bind fun j => (st.objs j).bind VmObject.copy).isSome

def ipcKobjectSet (st : ObjectStore α) (port : Option PortId) (o : ObjId) : ObjectStore α :=
  match port with
  | none => st
  | some p => { st with kobject := update st.kobject p (some o) }

@[simp] theorem objs_ipcKobjectSet (st : ObjectStore α) (port : Option PortId) (o : ObjId) :
    (st.ipcKobjectSet port o).objs = st.objs := by cases port <;> rfl

@[simp] theorem next_ipcKobjectSet (st : ObjectStore α) (port : Option PortId) (o : ObjId) :
    (st.ipcKobjectSet port o).next = st.next := by cases port <;> rfl

@[simp] theorem pagerData_ipcKobjectSet (st : ObjectStore α) (port : Option PortId) (o : ObjId) :
    (st.ipcKobjectSet port o).pagerData = st.pagerData := by cases port <;> rfl

def handOver (st : ObjectStore α) (o : ObjId) (object' backing : VmObject α) : ObjectStore α :=
  ((st.set o (object'.takeOver backing)).ipcKobjectSet backing.pagerRequest o).ipcKobjectSet
    backing.pager o

/-- The parent holds the only reference: it absorbs the backing object. -/
def absorb (st : ObjectStore α) (o b : ObjId) (object backing : VmObject α) : Pass α :=
  match backing.memq.foldlM (absorbPage object.shadowOffset object.size) object with
  | none => .panic
  | some object' =>
    let st' := st.handOver o object' backing
    if st'.hasCopy backing.shadow then .panic else .again (st'.free b)

/-- The parent shadows the next object instead of the backing object. -/
def bypass (st : ObjectStore α) (o b : ObjId) (object backing : VmObject α) : ObjectStore α :=
  ((st.set o { object with
      shadow := backing.shadow
      shadowOffset := add object.shadowOffset backing.shadowOffset }).vmObjectReference
    backing.shadow).modify b fun ob => { ob with refCount := ob.refCount - 1 }

/-- A turn of the loop that has found a backing object; `lockTry` is the answer of
`vm_object_cache_lock_try`. -/
def collapseBacking (st : ObjectStore α) (g : CollapseGlobals) (lockTry : Bool) (o b : ObjId)
    (object backing : VmObject α) : Pass α :=
  if ¬ backing.internal ∨ backing.pagingInProgress ≠ 0 then .leave
  -- the shadow offset of a copy object has to stay 0
  else if st.hasCopy backing.shadow then .leave
  else if backing.refCount = 1 then
    if lockTry then st.absorb o b object backing else .leave
  else if ¬ g.bypassAllowed then .leave
  else if backing.pagerCreated then .leave
  else if backing.memq.any (pageNeeded object.shadowOffset object.size object) then .leave
  else .again (st.bypass o b object backing)

/-- One turn of the loop. -/
def collapsePass (st : ObjectStore α) (g : CollapseGlobals) (lockTry : Bool) (o : ObjId) : Pass α :=
  match st.objs o with
  | none => .leave
  | some object =>
    if object.pagerCreated ∨ object.pagingInProgress ≠ 0 ∨ object.absentCount ≠ 0 then .leave
    else
      match object.shadow with
      | none => .leave
      | some b =>
        match st.objs b with
        | none => .leave
        | some backing => st.collapseBacking g lockTry o b object backing

def collapseLoop (st : ObjectStore α) (g : CollapseGlobals) (o : ObjId) :
    ℕ → (ℕ → Bool) → Except Unfinished (ObjectStore α)
  | 0, _ => .error .running
  | turns + 1, lockTry =>
    match st.collapsePass g (lockTry 0) o with
    | .leave => .ok st
    | .again st' => collapseLoop st' g o turns fun n => lockTry (n + 1)
    | .panic => .error .panic

/-- `vm_object_collapse`, cut off after a number of turns of its loop. -/
def vmObjectCollapse (st : ObjectStore α) (g : CollapseGlobals) (lockTry : ℕ → Bool)
    (object : Option ObjId) (turns : ℕ) : Except Unfinished (ObjectStore α) :=
  if ¬ g.collapseAllowed then .ok st
  else
    match object with
    | none => .ok st
    | some o => st.collapseLoop g o turns lockTry

end ObjectStore

/-! ## The pages of the backing object -/

theorem VmObject.pageLookup_pageInsert (ob : VmObject α) (p : VmPage α) (off : ℕ) :
    (ob.pageInsert p).pageLookup off =
      (ob.pageLookup off).or (if p.offset = off then some p else none) := by
  by_cases h : p.offset = off <;> simp [VmObject.pageInsert, VmObject.pageLookup, find?_append, h]

def VmPage.moved (backingOffset : ℕ) (p : VmPage α) : VmPage α :=
  { p with offset := sub p.offset backingOffset }

@[simp] theorem VmPage.moved_offset (bo : ℕ) (p : VmPage α) :
    (p.moved bo).offset = sub p.offset bo := rfl

@[simp] theorem VmPage.moved_data (bo : ℕ) (p : VmPage α) : (p.moved bo).data = p.data := rfl

@[simp] theorem VmPage.moved_absent (bo : ℕ) (p : VmPage α) : (p.moved bo).absent = p.absent := rfl

/-- The pages that move up: inside the parent, which has no page there. -/
def movesUp (backingOffset size : ℕ) (object : VmObject α) (p : VmPage α) : Bool :=
  backingOffset ≤ p.offset ∧ sub p.offset backingOffset < size ∧
    (object.pageLookup (sub p.offset backingOffset)).isNone

variable {bo size : ℕ} {object : VmObject α}

variable {ps : List (VmPage α)}

theorem absorbPages_eq (hnodup : (ps.map VmPage.offset).Nodup) (hlt : ∀ p ∈ ps, p.offset < modulus)
    (habs : ∀ p ∈ ps, bo ≤ p.offset → ∀ pp, object.pageLookup (sub p.offset bo) = some pp →
      pp.absent = false) :
    ps.foldlM (absorbPage bo size) object = some { object with
      memq := object.memq ++ (ps.filter (movesUp bo size object)).map (VmPage.moved bo) } := by
  induction ps generalizing object with
  | nil => simp
  | cons p ps ih =>
    obtain ⟨hp, hnodup⟩ := nodup_cons.mp hnodup
    have hlt' : ∀ q ∈ ps, q.offset < modulus := fun q hq => hlt q (mem_cons_of_mem _ hq)
    have habs' := fun q hq => habs q (mem_cons_of_mem _ hq)
    rw [List.foldlM_cons]
    by_cases hout : p.offset < bo ∨ size ≤ sub p.offset bo
    · have hm : movesUp bo size object p = false := by
        simp only [movesUp, decide_eq_false_iff_not]
        omega
      simp only [absorbPage, if_pos hout, bind_eq_bind, bind_some,
        List.filter_cons, hm]
      exact ih hnodup hlt' habs'
    · cases hl : object.pageLookup (sub p.offset bo) with
      | some pp =>
        have hpp := habs p mem_cons_self (by omega) pp hl
        have hm : movesUp bo size object p = false := by simp [movesUp, hl]
        simp only [absorbPage, if_neg hout, hl, hpp, bind_eq_bind, List.filter_cons, hm]
        exact ih hnodup hlt' habs'
      | none =>
        have hm : movesUp bo size object p = true := by
          simp only [movesUp, hl, isNone_none, and_true, decide_eq_true_eq]
          omega
        -- the page just moved up is at the place of no later page
        have hsame : ∀ q ∈ ps, bo ≤ q.offset →
            (object.pageInsert (p.moved bo)).pageLookup (sub q.offset bo) =
              object.pageLookup (sub q.offset bo) := by
          intro q hq hbo
          have hne : p.offset ≠ q.offset := fun h => hp (h ▸ mem_map_of_mem hq)
          have hpb := hlt p mem_cons_self
          have hqb := hlt' q hq
          rw [VmObject.pageLookup_pageInsert, if_neg, or_none]
          simp only [VmPage.moved]
          rw [sub_of_le hpb (by omega), sub_of_le hqb hbo]
          omega
        have hfilter : ps.filter (movesUp bo size (object.pageInsert (p.moved bo))) =
            ps.filter (movesUp bo size object) := by
          apply List.filter_congr
          intro q hq
          by_cases hbo : bo ≤ q.offset
          · simp only [movesUp, hsame q hq hbo]
          · simp [movesUp, hbo]
        have hstep : absorbPage bo size object p = some (object.pageInsert (p.moved bo)) := by
          simp only [absorbPage, if_neg hout, hl, VmPage.moved]
        rw [hstep, bind_eq_bind, bind_some, ih hnodup hlt' fun q hq hbo pp h =>
          habs' q hq hbo pp (by rwa [hsame q hq hbo] at h), hfilter, List.filter_cons, hm]
        simp [VmObject.pageInsert]

theorem pageLookup_movesUp (hlt : ∀ p ∈ ps, p.offset < modulus) {off : ℕ}
    (hoff : off < size) (hnone : object.pageLookup off = none) :
    (((ps.filter (movesUp bo size object)).map (VmPage.moved bo)).find? fun p => p.offset = off) =
      (ps.find? fun p => p.offset = off + bo).map (VmPage.moved bo) := by
  rw [List.find?_map, List.find?_filter]
  congr 1
  apply List.find?_congr
  intro p hp
  have hpl := hlt p hp
  rw [Bool.eq_iff_iff]
  simp only [comp_apply, VmPage.moved_offset, movesUp, decide_eq_true_eq]
  constructor
  · rintro ⟨⟨hle, -, -⟩, hd⟩
    have hs : sub p.offset bo = off := of_decide_eq_true hd
    rw [sub_of_le hpl hle] at hs
    omega
  · intro h
    have hs : sub p.offset bo = off := by
      rw [sub_of_le hpl (by omega)]
      omega
    have hn : (object.pageLookup (sub p.offset bo)).isNone := by rw [hs, hnone]; rfl
    exact ⟨⟨by omega, hs ▸ hoff, hn⟩, decide_eq_true hs⟩

/-! ## Well-formed stores -/

/-- The offsets that an object has: those below its size if it is internal, else all. -/
def VmObject.Covers (ob : VmObject α) (off : ℕ) : Prop :=
  off < modulus ∧ (ob.internal → off < ob.size)

structure VmObject.Ok (ob : VmObject α) : Prop where
  nodup : (ob.memq.map VmPage.offset).Nodup
  offset_lt : ∀ p ∈ ob.memq, p.offset < modulus
  size_lt : ob.size < modulus
  /-- Only a memory manager can be asked for a page, and leave it absent meanwhile. -/
  absent : ∀ p ∈ ob.memq, p.absent → ob.pagerCreated
  external : ¬ ob.internal → ob.pagerCreated

/-- Acyclic chains with right reference counts, `ext i` being the references to object `i` from
outside. -/
structure ChainsOk (st : ObjectStore α) (ext : ObjId → ℕ) : Prop where
  bound : ∀ i, (st.objs i).isSome → i < st.next
  live : ShadowsLive st
  acyclic : Acyclic st.shadowOf
  refCount : ∀ i ob, st.objs i = some ob → ob.refCount = refs st.next st.shadowOf i + ext i

structure StoreOk (st : ObjectStore α) (ext : ObjId → ℕ) : Prop extends ChainsOk st ext where
  ok : ∀ i ob, st.objs i = some ob → ob.Ok
  /-- An object shows a part of its shadow. -/
  window : ∀ i ob j shadow, st.objs i = some ob → ob.shadow = some j → st.objs j = some shadow →
    shadow.internal → ∀ off, ob.Covers off → off + ob.shadowOffset < shadow.size

/-! ## Splicing the backing object out of a chain -/

/-- What both branches do: `object` at `o` no longer shadows `backing` at `b` but its shadow,
and where it had no page it now shows what `backing` had there. -/
structure Spliced (st st' : ObjectStore α) (o b : ObjId) (object backing object' : VmObject α) :
    Prop where
  hobject : st.objs o = some object
  hbacking : st.objs b = some backing
  hshadow : object.shadow = some b
  object_internal : object.internal = true
  object_pager : object.pagerCreated = false
  backing_internal : backing.internal = true
  hobject' : st'.objs o = some object'
  shadow' : object'.shadow = backing.shadow
  shadowOffset' : object'.shadowOffset = add object.shadowOffset backing.shadowOffset
  size' : object'.size = object.size
  internal' : object'.internal = object.internal
  temporary' : object'.temporary = object.temporary
  copy' : object'.copy = object.copy
  memq' : ∃ ps, object'.memq = object.memq ++ ps ∧
    ∀ p ∈ ps, ∃ q ∈ backing.memq, p.busy = q.busy ∧ p.absent = q.absent
  pagerFrom' : object'.pager = object.pager ∨ object'.pager = backing.pager ∧ st'.objs b = none
  pagerData' : st'.pagerData = st.pagerData
  next' : st'.next = st.next
  others : ∀ i ≠ o, ∀ ob', st'.objs i = some ob' →
    ∃ ob, st.objs i = some ob ∧ ob' = { ob with refCount := ob'.refCount }
  resident' : ∀ off < object.size, object'.resident off =
    (object.resident off).or (backing.resident (off + object.shadowOffset))
  pager' : ∀ off < object.size, object.resident off = none →
    backing.resident (off + object.shadowOffset) = none →
    st'.pagerPage object' off = st.pagerPage backing (off + object.shadowOffset)

section
variable {st st' : ObjectStore α} {ext : ObjId → ℕ} {o b : ObjId}
  {object backing object' : VmObject α}

variable {ob : VmObject α} {off : ℕ}

theorem VmObject.covers_iff_of_internal (hs : ob.size < modulus)
    (hi : ob.internal = true) (off : ℕ) : ob.Covers off ↔ off < ob.size := by
  unfold VmObject.Covers
  simp only [hi, true_implies]
  omega

/-- An offset of an object in the store, or past the end of a chain. -/
def ObjectStore.Covers (st : ObjectStore α) (x : Option ObjId) (off : ℕ) : Prop :=
  ∀ i, x = some i → ∃ ob, st.objs i = some ob ∧ ob.Covers off

def ObjectStore.Live (st : ObjectStore α) (x : Option ObjId) : Prop :=
  ∀ i, x = some i → (st.objs i).isSome

theorem ShadowsLive.shadow (hl : ShadowsLive st) {i : ObjId}
    (hob : st.objs i = some ob) : st.Live ob.shadow :=
  fun j hj => hl i j ((st.shadowOf_eq hob).trans hj)

theorem StoreOk.covers_shadow (hok : StoreOk st ext) {i : ObjId}
    (hob : st.objs i = some ob) (hc : ob.Covers off) :
    st.Covers ob.shadow (add off ob.shadowOffset) := by
  intro j hj
  obtain ⟨shadow, hsh⟩ := isSome_iff_exists.mp (hok.live.shadow hob j hj)
  refine ⟨shadow, hsh, add_lt _ _, fun hint => ?_⟩
  have hw := hok.window i ob j shadow hob hj hsh hint off hc
  have := (hok.ok j shadow hsh).size_lt
  rwa [add_of_lt (by omega)]

theorem Spliced.offset_lt (hs : Spliced st st' o b object backing object') (hok : StoreOk st ext)
    (hoff : off < object.size) : off + object.shadowOffset < backing.size :=
  hok.window o object b backing hs.hobject hs.hshadow hs.hbacking hs.backing_internal off
    ((object.covers_iff_of_internal (hok.ok o object hs.hobject).size_lt
      hs.object_internal off).mpr hoff)

variable [Zero α]

theorem Spliced.content (hs : Spliced st st' o b object backing object') (hok : StoreOk st ext)
    (hlive' : ShadowsLive st') {x : Option ObjId} {v : α} (hv : Content st x off v) :
    (st.Covers x off → st'.Live x → Content st' x off v) ∧
    (x = some b → ∀ off' < object.size, off = off' + object.shadowOffset →
      object.resident off' = none → Content st' (some o) off' v) := by
  have hsize := (hok.ok o object hs.hobject).size_lt
  have hbsize := (hok.ok b backing hs.hbacking).size_lt
  induction hv with
  | zeroFill off => exact ⟨fun _ _ => .zeroFill off, fun h => by cases h⟩
  | @resident i ob off v hob hr =>
    constructor
    · intro hc hl
      obtain ⟨ob₁, hob₁, hcov⟩ := hc i rfl
      obtain rfl : ob = ob₁ := some.inj (hob.symm.trans hob₁)
      rcases eq_or_ne i o with rfl | hne
      · obtain rfl := some.inj (hob.symm.trans hs.hobject)
        have hoff := (ob.covers_iff_of_internal hsize hs.object_internal off).mp hcov
        exact .resident hs.hobject' (by rw [hs.resident' off hoff, hr]; rfl)
      · obtain ⟨ob', hob'⟩ := isSome_iff_exists.mp (hl i rfl)
        obtain ⟨ob₂, hob₂, heq⟩ := hs.others i hne ob' hob'
        obtain rfl := some.inj (hob.symm.trans hob₂)
        exact .resident hob' (by rw [heq]; exact hr)
    · rintro hib off' hoff' rfl hnone
      cases hib
      obtain rfl := some.inj (hob.symm.trans hs.hbacking)
      exact .resident hs.hobject' (by rw [hs.resident' off' hoff', hnone]; exact hr)
  | @pager i ob off v hob hr hp =>
    constructor
    · intro hc hl
      rcases eq_or_ne i o with rfl | hne
      · obtain rfl := some.inj (hob.symm.trans hs.hobject)
        simp [pagerPage, hs.object_pager] at hp
      · obtain ⟨ob', hob'⟩ := isSome_iff_exists.mp (hl i rfl)
        obtain ⟨ob₂, hob₂, heq⟩ := hs.others i hne ob' hob'
        obtain rfl := some.inj (hob.symm.trans hob₂)
        refine .pager hob' (by rw [heq]; exact hr) ?_
        rw [heq]
        simpa only [pagerPage, hs.pagerData'] using hp
    · rintro hib off' hoff' rfl hnone
      cases hib
      obtain rfl := some.inj (hob.symm.trans hs.hbacking)
      exact .pager hs.hobject' (by rw [hs.resident' off' hoff', hnone]; exact hr)
        (by rw [hs.pager' off' hoff' hnone hr]; exact hp)
  | @shadow i ob off v hob hr hp _ ih =>
    constructor
    · intro hc hl
      obtain ⟨ob₁, hob₁, hcov⟩ := hc i rfl
      obtain rfl : ob = ob₁ := some.inj (hob.symm.trans hob₁)
      rcases eq_or_ne i o with rfl | hne
      · obtain rfl := some.inj (hob.symm.trans hs.hobject)
        have hoff := (ob.covers_iff_of_internal hsize hs.object_internal off).mp hcov
        have hlt := hs.offset_lt hok hoff
        exact ih.2 hs.hshadow off hoff (add_of_lt (by omega)) hr
      · obtain ⟨ob', hob'⟩ := isSome_iff_exists.mp (hl i rfl)
        obtain ⟨ob₂, hob₂, heq⟩ := hs.others i hne ob' hob'
        obtain rfl := some.inj (hob.symm.trans hob₂)
        have hlive := hlive'.shadow hob'
        rw [heq] at hlive
        refine .shadow hob' (by rw [heq]; exact hr) ?_ ?_
        · rw [heq]
          simpa only [pagerPage, hs.pagerData'] using hp
        · rw [heq]
          exact ih.1 (hok.covers_shadow hob hcov) hlive
    · rintro hib off' hoff' rfl hnone
      cases hib
      obtain rfl := some.inj (hob.symm.trans hs.hbacking)
      have hlt := hs.offset_lt hok hoff'
      have hcov := (ob.covers_iff_of_internal hbsize hs.backing_internal _).mpr hlt
      have hlive := hlive'.shadow hs.hobject'
      refine .shadow hs.hobject' (by rw [hs.resident' off' hoff', hnone]; exact hr)
        (by rw [hs.pager' off' hoff' hnone hr]; exact hp) ?_
      rw [hs.shadow'] at hlive ⊢
      rw [hs.shadowOffset', ← Word32.add_assoc, add_of_lt (a := off') (by omega)]
      exact ih.1 (hok.covers_shadow hob hcov) hlive

end

section
variable {st st' : ObjectStore α} {ext : ObjId → ℕ} {o b : ObjId}
  {object backing object' : VmObject α}

theorem Spliced.shadowOf_self (hs : Spliced st st' o b object backing object') :
    st'.shadowOf o = st.shadowOf b := by
  rw [st'.shadowOf_eq hs.hobject', st.shadowOf_eq hs.hbacking, hs.shadow']

theorem Spliced.storeOk (hs : Spliced st st' o b object backing object') (hok : StoreOk st ext)
    (hobject' : object'.Ok) (hlive' : ShadowsLive st') (hacyclic' : Acyclic st'.shadowOf)
    (hrefs' : ∀ i ob, st'.objs i = some ob → ob.refCount = refs st'.next st'.shadowOf i + ext i) :
    StoreOk st' ext where
  bound i hi := by
    rw [hs.next']
    rcases eq_or_ne i o with rfl | hne
    · exact hok.bound i (by rw [hs.hobject]; rfl)
    · obtain ⟨ob', hob'⟩ := isSome_iff_exists.mp hi
      obtain ⟨ob, hob, -⟩ := hs.others i hne ob' hob'
      exact hok.bound i (by rw [hob]; rfl)
  ok i ob' hob' := by
    rcases eq_or_ne i o with rfl | hne
    · obtain rfl := some.inj (hs.hobject'.symm.trans hob')
      exact hobject'
    · obtain ⟨ob, hob, heq⟩ := hs.others i hne ob' hob'
      have h := hok.ok i ob hob
      rw [heq]
      exact ⟨h.nodup, h.offset_lt, h.size_lt, h.absent, h.external⟩
  live := hlive'
  acyclic := hacyclic'
  refCount := hrefs'
  window i ob' j shadow' hob' hj hsh' hint off hc := by
    -- the shadow has the size it had before
    obtain ⟨shadow, hsh, hint', hsize⟩ : ∃ shadow, st.objs j = some shadow ∧
        shadow.internal = true ∧ shadow'.size = shadow.size := by
      rcases eq_or_ne j o with rfl | hne
      · obtain rfl := some.inj (hs.hobject'.symm.trans hsh')
        exact ⟨object, hs.hobject, hs.object_internal, hs.size'⟩
      · obtain ⟨shadow, hsh, heq⟩ := hs.others j hne shadow' hsh'
        rw [heq] at hint ⊢
        exact ⟨shadow, hsh, hint, rfl⟩
    rw [hsize]
    rcases eq_or_ne i o with rfl | hne
    · obtain rfl := some.inj (hs.hobject'.symm.trans hob')
      have hint₀ : object'.internal = true := by rw [hs.internal', hs.object_internal]
      have hoff : off < object.size := by
        rw [← hs.size']
        exact (object'.covers_iff_of_internal hobject'.size_lt hint₀ off).mp hc
      have hcov := (backing.covers_iff_of_internal (hok.ok b backing hs.hbacking).size_lt
        hs.backing_internal _).mpr (hs.offset_lt hok hoff)
      have hw := hok.window b backing j shadow hs.hbacking (hs.shadow' ▸ hj) hsh hint' _ hcov
      have := (hok.ok j shadow hsh).size_lt
      rw [hs.shadowOffset', add_of_lt (by omega)]
      omega
    · obtain ⟨ob, hob, heq⟩ := hs.others i hne ob' hob'
      rw [heq] at hj hc ⊢
      exact hok.window i ob j shadow hob hj hsh hint' off hc

theorem ChainsOk.only_parent (hok : ChainsOk st ext) (hbacking : st.objs b = some backing)
    (href : backing.refCount = 1) (hob : st.shadowOf o = some b) :
    ext b = 0 ∧ ∀ i, st.shadowOf i = some b → i = o := by
  have hlt : ∀ i, st.shadowOf i = some b → i < st.next := by
    intro i hi
    apply hok.bound
    unfold shadowOf at hi
    cases h : st.objs i with
    | none => simp [h] at hi
    | some _ => rfl
  have hpos := refs_pos (hlt o hob) hob
  have hcount := hok.refCount b backing hbacking
  refine ⟨by omega, fun i hi => ?_⟩
  exact eq_of_refs_eq_one (by omega) (hlt i hi) (hlt o hob) hi hob

variable {ob : VmObject α}

theorem VmObject.Ok.not_absent (h : ob.Ok) (hp : ob.pagerCreated = false)
    {off : ℕ} {p : VmPage α} (hl : ob.pageLookup off = some p) : p.absent = false := by
  by_contra habs
  have := h.absent p (mem_of_find?_eq_some hl) (by simpa using habs)
  simp [hp] at this

theorem VmObject.Ok.pageLookup_of_resident (h : ob.Ok)
    (hp : ob.pagerCreated = false) {off : ℕ} (hr : ob.resident off = none) :
    ob.pageLookup off = none := by
  cases hl : ob.pageLookup off with
  | none => rfl
  | some p =>
    have := h.not_absent hp hl
    simp [VmObject.resident, hl, this] at hr

end

/-- The store stays well formed and shows the same through every object that is left. -/
structure Keeps [Zero α] (st st' : ObjectStore α) (ext : ObjId → ℕ) : Prop where
  storeOk : StoreOk st' ext
  content : ∀ i off v, st.Covers (some i) off → (st'.objs i).isSome →
    Content st (some i) off v → Content st' (some i) off v
  /-- Only an object without a reference from outside goes away. -/
  kept : ∀ i, (st.objs i).isSome → (st'.objs i).isSome ∨ ext i = 0
  old : ∀ i, (st'.objs i).isSome → (st.objs i).isSome
  covers : ∀ i off, (st'.objs i).isSome → st.Covers (some i) off → st'.Covers (some i) off
  next : st'.next = st.next
  grows : ∀ i ob ob', st.objs i = some ob → st'.objs i = some ob' → ob.Grows ob'
  quiet : Quiet st → Quiet st'
  pagersApart : PagersApart st → PagersApart st'
  /-- Chains get shorter. -/
  shows : ∀ x off o off', st'.Live x → Shows st' x off o off' → Shows st x off o off'

/-- What one turn that goes on does to a well-formed store. -/
structure PassSpec [Zero α] (st st' : ObjectStore α) (ext : ObjId → ℕ) (o b : ObjId) : Prop
    extends Keeps st st' ext where
  hshadow : st.shadowOf o = some b
  shadow_self : st'.shadowOf o = st.shadowOf b
  shadow_other : ∀ i ≠ o, st'.shadowOf i = st.shadowOf i ∨ st'.shadowOf i = none

section
variable [Zero α] {st st' : ObjectStore α} {ext : ObjId → ℕ} {o b : ObjId}
  {object backing object' : VmObject α}

section
omit [Zero α]

theorem Spliced.quiet (hs : Spliced st st' o b object backing object') (hq : Quiet st) :
    Quiet st' := by
  intro i ob' hob' p hp
  rcases eq_or_ne i o with rfl | hne
  · obtain rfl := some.inj (hs.hobject'.symm.trans hob')
    obtain ⟨ps, hps, hfrom⟩ := hs.memq'
    rw [hps] at hp
    rcases mem_append.mp hp with hp | hp
    · exact hq i object hs.hobject p hp
    · obtain ⟨q, hqm, hbusy, habsent⟩ := hfrom p hp
      rw [hbusy, habsent]
      exact hq b backing hs.hbacking q hqm
  · obtain ⟨ob, hob, heq⟩ := hs.others i hne ob' hob'
    rw [heq] at hp
    exact hq i ob hob p hp

theorem Spliced.pagersApart (hs : Spliced st st' o b object backing object')
    (hapart : PagersApart st) : PagersApart st' := by
  -- the pager of an object that is left comes from an object that is that one or gone
  have hfrom : ∀ i ob', st'.objs i = some ob' → ∃ j ob, st.objs j = some ob ∧
      ob.pager = ob'.pager ∧ (j = i ∨ i = o ∧ j = b ∧ st'.objs b = none) := by
    intro i ob' hob'
    rcases eq_or_ne i o with rfl | hne
    · obtain rfl := some.inj (hs.hobject'.symm.trans hob')
      rcases hs.pagerFrom' with h | ⟨h, hgone⟩
      · exact ⟨i, object, hs.hobject, h.symm, .inl rfl⟩
      · exact ⟨b, backing, hs.hbacking, h.symm, .inr ⟨rfl, rfl, hgone⟩⟩
    · obtain ⟨ob, hob, heq⟩ := hs.others i hne ob' hob'
      exact ⟨i, ob, hob, by rw [heq], .inl rfl⟩
  intro i j ob₁ ob₂ port h₁ h₂ hp₁ hp₂
  obtain ⟨i', ob₁', h₁', hp₁', hi⟩ := hfrom i ob₁ h₁
  obtain ⟨j', ob₂', h₂', hp₂', hj⟩ := hfrom j ob₂ h₂
  have heq := hapart i' j' ob₁' ob₂' port h₁' h₂' (hp₁'.trans hp₁) (hp₂'.trans hp₂)
  rcases hi with rfl | ⟨rfl, rfl, hgone⟩
  · rcases hj with rfl | ⟨rfl, rfl, hgone⟩
    · exact heq
    · rw [heq, hgone] at h₁
      cases h₁
  · rcases hj with rfl | ⟨rfl, -, -⟩
    · rw [← heq, hgone] at h₂
      cases h₂
    · rfl

theorem Spliced.shows (hs : Spliced st st' o b object backing object') (hlive' : ShadowsLive st')
    {x : Option ObjId} {off off' : ℕ} {p : ObjId} (hl : st'.Live x)
    (h : Shows st' x off p off') : Shows st x off p off' := by
  induction h with
  | here p off => exact .here p off
  | @shadow i p ob' off off' hob' _ ih =>
    have ih := ih (hlive'.shadow hob')
    rcases eq_or_ne i o with rfl | hne
    · obtain rfl := some.inj (hs.hobject'.symm.trans hob')
      rw [hs.shadow', hs.shadowOffset', ← Word32.add_assoc] at ih
      have hb := Shows.shadow hs.hbacking ih
      rw [← hs.hshadow] at hb
      exact .shadow hs.hobject hb
    · obtain ⟨ob, hob, heq⟩ := hs.others i hne ob' hob'
      rw [heq] at ih
      exact .shadow hob ih

end

theorem Spliced.passSpec (hs : Spliced st st' o b object backing object') (hok : StoreOk st ext)
    (hok' : StoreOk st' ext) (hkept : ∀ i, (st.objs i).isSome → (st'.objs i).isSome ∨ ext i = 0)
    (hother : ∀ i ≠ o, st'.shadowOf i = st.shadowOf i ∨ st'.shadowOf i = none) :
    PassSpec st st' ext o b where
  storeOk := hok'
  hshadow := (st.shadowOf_eq hs.hobject).trans hs.hshadow
  content i off v hc hl hv := by
    refine (hs.content hok hok'.live hv).1 hc ?_
    intro j hj
    cases hj
    exact hl
  kept := hkept
  old i hi := by
    rcases eq_or_ne i o with rfl | hne
    · rw [hs.hobject]
      rfl
    · obtain ⟨ob', hob'⟩ := isSome_iff_exists.mp hi
      obtain ⟨ob, hob, -⟩ := hs.others i hne ob' hob'
      rw [hob]
      rfl
  shadow_self := hs.shadowOf_self
  shadow_other := hother
  covers i off hi hc j hj := by
    cases hj
    obtain ⟨ob', hob'⟩ := isSome_iff_exists.mp hi
    obtain ⟨ob, hob, hcov⟩ := hc i rfl
    refine ⟨ob', hob', ?_⟩
    rcases eq_or_ne i o with rfl | hne
    · obtain rfl := some.inj (hs.hobject'.symm.trans hob')
      obtain rfl := some.inj (hs.hobject.symm.trans hob)
      unfold VmObject.Covers
      rw [hs.size', hs.internal']
      exact hcov
    · obtain ⟨ob₂, hob₂, heq⟩ := hs.others i hne ob' hob'
      obtain rfl := some.inj (hob.symm.trans hob₂)
      rw [heq]
      exact hcov
  next := hs.next'
  grows i ob ob' hob hob' := by
    rcases eq_or_ne i o with rfl | hne
    · obtain rfl := some.inj (hs.hobject'.symm.trans hob')
      obtain rfl := some.inj (hs.hobject.symm.trans hob)
      obtain ⟨ps, hps, -⟩ := hs.memq'
      exact ⟨hs.size', hs.internal', hs.temporary', hs.copy', hps ▸ List.prefix_append _ _⟩
    · obtain ⟨ob₂, hob₂, heq⟩ := hs.others i hne ob' hob'
      obtain rfl := some.inj (hob.symm.trans hob₂)
      rw [heq]
      exact ⟨rfl, rfl, rfl, rfl, List.prefix_rfl⟩
  quiet := hs.quiet
  pagersApart := hs.pagersApart
  shows x off p off' hl h := hs.shows hok'.live hl h

end

/-! ## The collapse branch -/

section
variable {st : ObjectStore α} {ext : ObjId → ℕ} {o b : ObjId} {object backing : VmObject α}

theorem objs_handOver (object' : VmObject α) (i : ObjId) : (st.handOver o object' backing).objs i =
      if i = o then some (object'.takeOver backing) else st.objs i := by
  simp only [handOver, objs_ipcKobjectSet]
  split_ifs with h
  · rw [h, objs_set_self]
  · exact st.objs_set_of_ne h _

theorem shadowOf_handOver_free (object' : VmObject α) :
    ((st.handOver o object' backing).free b).shadowOf =
      update (update st.shadowOf o backing.shadow) b none := by
  have h : (st.handOver o object' backing).shadowOf = (st.set o (object'.takeOver backing)).shadowOf := by
    funext i
    simp only [shadowOf, handOver, objs_ipcKobjectSet]
  rw [shadowOf_free, h, shadowOf_set]
  rfl

/-- The parent with the pages that have moved up. -/
def withPages (object backing : VmObject α) : VmObject α :=
  { object with
    memq := object.memq ++ (backing.memq.filter
      (movesUp object.shadowOffset object.size object)).map (VmPage.moved object.shadowOffset) }

theorem withPages_eq (hobject : object.Ok) (hbacking : backing.Ok)
    (hp : object.pagerCreated = false) :
    backing.memq.foldlM (absorbPage object.shadowOffset object.size) object =
      some (withPages object backing) :=
  absorbPages_eq hbacking.nodup hbacking.offset_lt fun _ _ _ _ h => hobject.not_absent hp h

variable {off : ℕ}

theorem pageLookup_withPages (hbacking : backing.Ok) (hoff : off < object.size) :
    (withPages object backing).pageLookup off = (object.pageLookup off).or
      ((backing.pageLookup (off + object.shadowOffset)).map (VmPage.moved object.shadowOffset)) := by
  have h : (withPages object backing).pageLookup off = (object.pageLookup off).or
      (((backing.memq.filter (movesUp object.shadowOffset object.size object)).map
        (VmPage.moved object.shadowOffset)).find? fun p => p.offset = off) := by
    simp only [VmObject.pageLookup, withPages, find?_append]
  cases hl : object.pageLookup off with
  | some p => rw [h, hl, some_or, some_or]
  | none =>
    rw [h, hl, none_or, none_or, pageLookup_movesUp hbacking.offset_lt hoff hl]
    rfl

theorem resident_withPages (hobject : object.Ok) (hbacking : backing.Ok)
    (hp : object.pagerCreated = false) (hoff : off < object.size) :
    (withPages object backing).resident off =
      (object.resident off).or (backing.resident (off + object.shadowOffset)) := by
  unfold VmObject.resident
  rw [pageLookup_withPages hbacking hoff]
  cases hl : object.pageLookup off with
  | some p => simp [hobject.not_absent hp hl]
  | none =>
    cases backing.pageLookup (off + object.shadowOffset) <;> rfl

theorem mem_movesUp (hbacking : backing.Ok) {p : VmPage α}
    (hp : p ∈ backing.memq.filter (movesUp object.shadowOffset object.size object)) :
    p ∈ backing.memq ∧ object.shadowOffset ≤ p.offset ∧
      sub p.offset object.shadowOffset = p.offset - object.shadowOffset ∧
      object.pageLookup (sub p.offset object.shadowOffset) = none := by
  obtain ⟨hm, hu⟩ := mem_filter.mp hp
  simp only [movesUp, decide_eq_true_eq] at hu
  exact ⟨hm, hu.1, sub_of_le (hbacking.offset_lt p hm) hu.1, isNone_iff_eq_none.mp hu.2.2⟩

theorem withPages_takeOver_ok (hobject : object.Ok) (hbacking : backing.Ok)
    (hp : object.pagerCreated = false) : ((withPages object backing).takeOver backing).Ok where
  nodup := by
    simp only [VmObject.takeOver, withPages, map_append, List.map_map]
    refine nodup_append.mpr ⟨hobject.nodup, ?_, ?_⟩
    · refine List.Nodup.map_on ?_ (hbacking.nodup.of_map.filter _)
      intro p hpm q hqm heq
      obtain ⟨hpb, hple, hps, -⟩ := mem_movesUp hbacking hpm
      obtain ⟨hqb, hqle, hqs, -⟩ := mem_movesUp hbacking hqm
      simp only [comp_apply, VmPage.moved_offset, hps, hqs] at heq
      exact List.inj_on_of_nodup_map hbacking.nodup hpb hqb (by omega)
    · intro x hx y hy hxy
      obtain ⟨q, hq, rfl⟩ := mem_map.mp hx
      obtain ⟨p, hpm, hpy⟩ := mem_map.mp hy
      have hnone := (mem_movesUp hbacking hpm).2.2.2
      have hne := find?_eq_none.mp hnone q hq
      simp only [decide_eq_true_eq] at hne
      exact hne (hxy.trans hpy.symm)
  offset_lt p hpm := by
    simp only [VmObject.takeOver, withPages, mem_append] at hpm
    rcases hpm with hpm | hpm
    · exact hobject.offset_lt p hpm
    · obtain ⟨q, -, rfl⟩ := mem_map.mp hpm
      exact sub_lt _ _
  size_lt := hobject.size_lt
  absent p hpm habs := by
    simp only [VmObject.takeOver, withPages, mem_append] at hpm ⊢
    rcases hpm with hpm | hpm
    · simp [hobject.absent p hpm habs] at hp
    · obtain ⟨q, hq, rfl⟩ := mem_map.mp hpm
      exact hbacking.absent q (mem_movesUp hbacking hq).1 habs
  external h := by
    have := hobject.external h
    simp [hp] at this

theorem pagerPage_withPages (st st' : ObjectStore α) (hdata : st'.pagerData = st.pagerData) :
    st'.pagerPage ((withPages object backing).takeOver backing) off =
      st.pagerPage backing (add off object.shadowOffset) := by
  unfold pagerPage
  rw [hdata]
  cases hpg : backing.pager with
  | none => simp [VmObject.takeOver, hpg]
  | some port =>
    have hoff : add off (add backing.pagingOffset object.shadowOffset) =
        add (add off object.shadowOffset) backing.pagingOffset := by
      rw [Word32.add_assoc, Word32.add_comm object.shadowOffset]
    simp [VmObject.takeOver, withPages, hpg, hoff]

theorem objs_absorb (object' : VmObject α) {i : ObjId} (hib : i ≠ b) :
    ((st.handOver o object' backing).free b).objs i =
      if i = o then some (object'.takeOver backing) else st.objs i := by
  rw [objs_free_of_ne _ hib, objs_handOver]

theorem ChainsOk.absorb (hok : ChainsOk st ext) (hobject : st.objs o = some object)
    (hshadow : object.shadow = some b) (hbacking : st.objs b = some backing)
    (href : backing.refCount = 1) {object' : VmObject α}
    (hcount : object'.refCount = object.refCount) :
    ChainsOk ((st.handOver o object' backing).free b) ext ∧ ∀ i ≠ b, (st.objs i).isSome →
        (((st.handOver o object' backing).free b).objs i).isSome := by
  have hsob : st.shadowOf o = some b := (st.shadowOf_eq hobject).trans hshadow
  have hne : o ≠ b := hok.acyclic.ne hsob
  obtain ⟨-, honly⟩ := hok.only_parent hbacking href hsob
  have hshadow' : ((st.handOver o object' backing).free b).shadowOf =
      update (update st.shadowOf o (st.shadowOf b)) b none := by
    rw [shadowOf_handOver_free, st.shadowOf_eq hbacking]
  have hnext : ((st.handOver o object' backing).free b).next = st.next := by
    simp [handOver]
  have hkept : ∀ i ≠ b, (st.objs i).isSome →
      (((st.handOver o object' backing).free b).objs i).isSome := by
    intro i hib hi
    rw [objs_absorb _ hib]
    split_ifs
    · rfl
    · exact hi
  refine ⟨⟨fun i hi => ?_, fun i j hij => ?_, ?_, fun i ob hob => ?_⟩, hkept⟩
  · rw [hnext]
    by_cases hib : i = b
    · exact hib ▸ hok.bound b (by rw [hbacking]; rfl)
    rw [objs_absorb _ hib] at hi
    split_ifs at hi with hio
    · exact hio ▸ hok.bound o (by rw [hobject]; rfl)
    · exact hok.bound i hi
  · rw [hshadow'] at hij
    by_cases hib : i = b
    · simp [hib] at hij
    · rw [update_of_ne hib] at hij
      by_cases hio : i = o
      · rw [hio, update_self] at hij
        exact hkept j (hok.acyclic.ne hij).symm (hok.live b j hij)
      · rw [update_of_ne hio] at hij
        exact hkept j (fun hjb => hio (honly i (hjb ▸ hij))) (hok.live i j hij)
  · rw [hshadow']
    exact (hok.acyclic.update_skip hsob).update_none b
  · have hib : i ≠ b := by
      rintro rfl
      simp at hob
    rw [hnext, hshadow', refs_splice (hok.bound o (by rw [hobject]; rfl))
      (hok.bound b (by rw [hbacking]; rfl)) hne hsob hib]
    rw [objs_absorb _ hib] at hob
    split_ifs at hob with hio
    · cases hob
      rw [hio]
      exact hcount.trans (hok.refCount o object hobject)
    · exact hok.refCount i ob hob

variable [Zero α]

theorem absorb_spec (hok : StoreOk st ext) (hobject : st.objs o = some object)
    (hpager : object.pagerCreated = false) (hshadow : object.shadow = some b)
    (hbacking : st.objs b = some backing) (hint : backing.internal = true)
    (hcopy : st.hasCopy backing.shadow = false) (href : backing.refCount = 1) :
    ∃ st', st.absorb o b object backing = .again st' ∧ PassSpec st st' ext o b := by
  have hoOk := hok.ok o object hobject
  have hbOk := hok.ok b backing hbacking
  have hsob : st.shadowOf o = some b := (st.shadowOf_eq hobject).trans hshadow
  have hsb : st.shadowOf b = backing.shadow := st.shadowOf_eq hbacking
  have hne : o ≠ b := hok.acyclic.ne hsob
  obtain ⟨hext, -⟩ := hok.only_parent hbacking href hsob
  have hobjint : object.internal = true := by
    by_contra h
    simp [hoOk.external h] at hpager
  set st₁ := st.handOver o (withPages object backing) backing with hst₁
  have hcopy₁ : st₁.hasCopy backing.shadow = false := by
    cases hbs : backing.shadow with
    | none => rfl
    | some j =>
      have hjo : j ≠ o := (hok.acyclic.ne_two hsob (hsb.trans hbs)).symm
      rw [hbs] at hcopy
      simpa only [hasCopy, hst₁, objs_handOver, if_neg hjo, bind_some]
        using hcopy
  have habs : st.absorb o b object backing = .again (st₁.free b) := by
    simp only [absorb, withPages_eq hoOk hbOk hpager, ← hst₁, hcopy₁]
    rfl
  have hshadow' : (st₁.free b).shadowOf = update (update st.shadowOf o (st.shadowOf b)) b none := by
    rw [hst₁, shadowOf_handOver_free, hsb]
  have hobjs' : ∀ i ≠ b, (st₁.free b).objs i =
      if i = o then some ((withPages object backing).takeOver backing) else st.objs i := by
    intro i hib
    rw [hst₁, objs_absorb _ hib]
  have hdata : (st₁.free b).pagerData = st.pagerData := by simp [hst₁, handOver]
  have hnext : (st₁.free b).next = st.next := by simp [hst₁, handOver]
  have hspliced : Spliced st (st₁.free b) o b object backing
      ((withPages object backing).takeOver backing) :=
    { hobject := hobject, hbacking := hbacking, hshadow := hshadow, object_internal := hobjint
      object_pager := hpager, backing_internal := hint
      hobject' := by rw [hobjs' o hne, if_pos rfl]
      shadow' := rfl, shadowOffset' := rfl, size' := rfl, internal' := rfl
      temporary' := rfl, copy' := rfl
      memq' := by
        refine ⟨_, rfl, fun p hp => ?_⟩
        obtain ⟨q, hq, rfl⟩ := mem_map.mp hp
        exact ⟨q, (mem_filter.mp hq).1, rfl, rfl⟩
      pagerFrom' := .inr ⟨rfl, by simp⟩
      pagerData' := hdata, next' := hnext
      others := by
        intro i hio ob' hob'
        have hib : i ≠ b := by
          rintro rfl
          simp at hob'
        rw [hobjs' i hib, if_neg hio] at hob'
        exact ⟨ob', hob', rfl⟩
      resident' := fun off hoff => resident_withPages hoOk hbOk hpager hoff
      pager' := by
        intro off hoff _ _
        have hw := hok.window o object b backing hobject hshadow hbacking hint off
          ((object.covers_iff_of_internal hoOk.size_lt hobjint off).mpr hoff)
        have := hbOk.size_lt
        rw [pagerPage_withPages st _ hdata, add_of_lt (by omega)] }
  obtain ⟨hchains, hkept⟩ := hok.absorb hobject hshadow hbacking href
    (show (withPages object backing).refCount = object.refCount from rfl)
  refine ⟨_, habs, hspliced.passSpec hok (hspliced.storeOk hok
    (withPages_takeOver_ok hoOk hbOk hpager) hchains.live hchains.acyclic hchains.refCount) ?_ ?_⟩
  · intro i hi
    by_cases hib : i = b
    · exact .inr (hib ▸ hext)
    · exact .inl (hkept i hib hi)
  · intro i hio
    rw [hshadow']
    by_cases hib : i = b
    · right
      rw [hib, update_self]
    · left
      rw [update_of_ne hib, update_of_ne hio]

end

/-! ## The bypass branch -/

section
variable {st : ObjectStore α} {ext : ObjId → ℕ} {o b : ObjId} {object backing : VmObject α}

theorem objs_bypass (i : ObjId) : (st.bypass o b object backing).objs i = ((st.set o { object with
      shadow := backing.shadow
      shadowOffset := add object.shadowOffset backing.shadowOffset }).objs i).map fun ob =>
        { ob with refCount := ob.refCount + (if backing.shadow = some i then 1 else 0) -
          (if i = b then 1 else 0) } := by
  unfold bypass
  rw [objs_modify, objs_vmObjectReference]
  split_ifs with hib <;> simp [Option.map_map, comp_def]

theorem shadowOf_bypass : (st.bypass o b object backing).shadowOf =
    update st.shadowOf o backing.shadow := by
  unfold bypass
  rw [shadowOf_modify, shadowOf_vmObjectReference, shadowOf_set]
  exact fun _ => rfl

variable {off : ℕ}

theorem pageLookup_of_scan (hlt : ∀ p ∈ backing.memq, p.offset < modulus)
    (hscan : backing.memq.any (pageNeeded object.shadowOffset object.size object) = false)
    (hoff : off < object.size) (hnone : object.pageLookup off = none) :
    backing.pageLookup (off + object.shadowOffset) = none := by
  apply find?_eq_none.mpr
  intro p hpm hpo
  simp only [decide_eq_true_eq] at hpo
  have hs : sub p.offset object.shadowOffset = off := by
    rw [sub_of_le (hlt p hpm) (by omega)]
    omega
  have hnot := List.any_eq_false.mp hscan p hpm
  simp only [pageNeeded, hs, hnone, decide_eq_true_eq, isNone_none, and_true] at hnot
  omega

theorem resident_of_scan (hobject : object.Ok) (hbacking : backing.Ok)
    (hp : object.pagerCreated = false)
    (hscan : backing.memq.any (pageNeeded object.shadowOffset object.size object) = false)
    (hoff : off < object.size) (hr : object.resident off = none) :
    backing.resident (off + object.shadowOffset) = none := by
  have hl := pageLookup_of_scan hbacking.offset_lt hscan hoff (hobject.pageLookup_of_resident hp hr)
  simp [VmObject.resident, hl]

theorem objs_bypass_self (hacyclic : Acyclic st.shadowOf) (hobject : st.objs o = some object)
    (hshadow : object.shadow = some b) (hbacking : st.objs b = some backing) :
    (st.bypass o b object backing).objs o = some { object with
      shadow := backing.shadow
      shadowOffset := add object.shadowOffset backing.shadowOffset } := by
  have hsob : st.shadowOf o = some b := (st.shadowOf_eq hobject).trans hshadow
  have hself : backing.shadow ≠ some o := fun h =>
    hacyclic.ne_two hsob ((st.shadowOf_eq hbacking).trans h) rfl
  rw [objs_bypass]
  simp [hself, hacyclic.ne hsob]

theorem objs_bypass_of_ne {i : ObjId} (hio : i ≠ o) :
    (st.bypass o b object backing).objs i = (st.objs i).map fun ob =>
      { ob with refCount := ob.refCount + (if backing.shadow = some i then 1 else 0) -
          (if i = b then 1 else 0) } := by
  rw [objs_bypass, objs_set_of_ne st hio]

theorem ChainsOk.bypass (hok : ChainsOk st ext) (hobject : st.objs o = some object)
    (hshadow : object.shadow = some b) (hbacking : st.objs b = some backing) :
    ChainsOk (st.bypass o b object backing) ext ∧
      ∀ i, (st.objs i).isSome → ((st.bypass o b object backing).objs i).isSome := by
  have hsob : st.shadowOf o = some b := (st.shadowOf_eq hobject).trans hshadow
  have hsb : st.shadowOf b = backing.shadow := st.shadowOf_eq hbacking
  have hne : o ≠ b := hok.acyclic.ne hsob
  have hself : backing.shadow ≠ some o := fun h => hok.acyclic.ne_two hsob (hsb.trans h) rfl
  have hobject' := objs_bypass_self hok.acyclic hobject hshadow hbacking
  have hshadow' : (st.bypass o b object backing).shadowOf =
      update st.shadowOf o (st.shadowOf b) := by rw [shadowOf_bypass, hsb]
  have hnext : (st.bypass o b object backing).next = st.next := by simp [ObjectStore.bypass]
  have hkept : ∀ i, (st.objs i).isSome → ((st.bypass o b object backing).objs i).isSome := by
    intro i hi
    rcases eq_or_ne i o with rfl | hio
    · rw [hobject']
      rfl
    · rw [objs_bypass_of_ne hio, isSome_map]
      exact hi
  refine ⟨⟨fun i hi => ?_, fun i j hij => ?_, ?_, fun i ob' hob' => ?_⟩, hkept⟩
  · rw [hnext]
    rcases eq_or_ne i o with rfl | hio
    · exact hok.bound i (by rw [hobject]; rfl)
    · rw [objs_bypass_of_ne hio, isSome_map] at hi
      exact hok.bound i hi
  · rw [hshadow'] at hij
    rcases eq_or_ne i o with rfl | hio
    · rw [update_self] at hij
      exact hkept j (hok.live b j hij)
    · rw [update_of_ne hio] at hij
      exact hkept j (hok.live i j hij)
  · rw [hshadow']
    exact hok.acyclic.update_skip hsob
  · -- the link moved from the backing object to its shadow
    have hmoved := refs_update (hok.bound o (by rw [hobject]; rfl)) (f := st.shadowOf)
      (st.shadowOf b) i
    rw [hsob, hsb] at hmoved
    rw [hnext, hshadow', hsb]
    rcases eq_or_ne i o with rfl | hio
    · rw [hobject'] at hob'
      cases hob'
      have hcount := hok.refCount i object hobject
      rw [if_neg hself, if_neg (by simpa using hne.symm)] at hmoved
      simp only at hcount ⊢
      omega
    · rw [objs_bypass_of_ne hio] at hob'
      obtain ⟨ob, hob, rfl⟩ := map_eq_some_iff.mp hob'
      have hcount := hok.refCount i ob hob
      simp only [some.injEq] at hmoved ⊢
      rcases eq_or_ne i b with rfl | hib
      · rw [if_pos rfl] at hmoved ⊢
        omega
      · rw [if_neg hib.symm] at hmoved
        rw [if_neg hib]
        omega

variable [Zero α]

theorem bypass_spec (hok : StoreOk st ext) (hobject : st.objs o = some object)
    (hpager : object.pagerCreated = false) (hshadow : object.shadow = some b)
    (hbacking : st.objs b = some backing) (hint : backing.internal = true)
    (hbpager : backing.pagerCreated = false)
    (hscan : backing.memq.any (pageNeeded object.shadowOffset object.size object) = false) :
    PassSpec st (st.bypass o b object backing) ext o b := by
  have hoOk := hok.ok o object hobject
  have hbOk := hok.ok b backing hbacking
  have hsob : st.shadowOf o = some b := (st.shadowOf_eq hobject).trans hshadow
  have hsb : st.shadowOf b = backing.shadow := st.shadowOf_eq hbacking
  have hobjint : object.internal = true := by
    by_contra h
    simp [hoOk.external h] at hpager
  set st' := st.bypass o b object backing with hst'
  have hshadow' : st'.shadowOf = update st.shadowOf o (st.shadowOf b) := by
    rw [hst', shadowOf_bypass, hsb]
  have hobject' := objs_bypass_self hok.acyclic hobject hshadow hbacking
  have hspliced : Spliced st st' o b object backing { object with
      shadow := backing.shadow
      shadowOffset := add object.shadowOffset backing.shadowOffset } :=
    { hobject := hobject, hbacking := hbacking, hshadow := hshadow, object_internal := hobjint
      object_pager := hpager, backing_internal := hint, hobject' := hobject'
      shadow' := rfl, shadowOffset' := rfl, size' := rfl, internal' := rfl
      temporary' := rfl, copy' := rfl
      memq' := ⟨[], (append_nil _).symm, fun p hp => by cases hp⟩
      pagerFrom' := .inl rfl
      pagerData' := by simp [hst', bypass]
      next' := by simp [hst', bypass]
      others := by
        intro i hio ob' hob'
        rw [hst', objs_bypass_of_ne hio] at hob'
        obtain ⟨ob, hob, rfl⟩ := map_eq_some_iff.mp hob'
        exact ⟨ob, hob, rfl⟩
      resident' := by
        intro off hoff
        cases hr : object.resident off with
        | some v => exact hr
        | none =>
          rw [resident_of_scan hoOk hbOk hpager hscan hoff hr]
          exact hr
      pager' := by
        intro off _ _ _
        simp [pagerPage, hpager, hbpager] }
  obtain ⟨hchains, hkept⟩ := hok.bypass hobject hshadow hbacking
  have hobject'Ok : VmObject.Ok { object with
      shadow := backing.shadow
      shadowOffset := add object.shadowOffset backing.shadowOffset } :=
    ⟨hoOk.nodup, hoOk.offset_lt, hoOk.size_lt, hoOk.absent, hoOk.external⟩
  refine hspliced.passSpec hok (hspliced.storeOk hok hobject'Ok hchains.live hchains.acyclic
    hchains.refCount) (fun i hi => .inl (hkept i hi)) fun i hio => .inl ?_
  rw [hshadow', update_of_ne hio]

/-! ## The loop -/

theorem collapseBacking_spec (hok : StoreOk st ext) (g : CollapseGlobals) (lockTry : Bool)
    (hobject : st.objs o = some object) (hpager : object.pagerCreated = false)
    (hshadow : object.shadow = some b) (hbacking : st.objs b = some backing) :
    st.collapseBacking g lockTry o b object backing = .leave ∨
      ∃ st', st.collapseBacking g lockTry o b object backing = .again st' ∧
        PassSpec st st' ext o b := by
  unfold collapseBacking
  split_ifs with hpaging hcopy href hlock hallowed hbpager hscan
  · exact .inl rfl
  · exact .inl rfl
  · exact .inr (absorb_spec hok hobject hpager hshadow hbacking (by simpa using (not_or.mp hpaging).1)
      (by simpa using hcopy) href)
  · exact .inl rfl
  · exact .inl rfl
  · exact .inl rfl
  · exact .inr ⟨_, rfl, bypass_spec hok hobject hpager hshadow hbacking
      (by simpa using (not_or.mp hpaging).1) (by simpa using hbpager) (by simpa using hscan)⟩
  · exact .inl rfl

theorem collapsePass_spec (hok : StoreOk st ext) (g : CollapseGlobals) (lockTry : Bool)
    (o : ObjId) : st.collapsePass g lockTry o = .leave ∨
      ∃ st' b, st.collapsePass g lockTry o = .again st' ∧ PassSpec st st' ext o b := by
  unfold collapsePass
  cases hobject : st.objs o with
  | none => exact .inl rfl
  | some object =>
    dsimp only
    split_ifs with hpaging
    · exact .inl rfl
    have hpager : object.pagerCreated = false := by simpa using (not_or.mp hpaging).1
    cases hshadow : object.shadow with
    | none => exact .inl rfl
    | some b =>
      dsimp only
      cases hbacking : st.objs b with
      | none => exact .inl rfl
      | some backing =>
        rcases collapseBacking_spec hok g lockTry hobject hpager hshadow hbacking with h | h
        · exact .inl h
        · obtain ⟨st', hst', hspec⟩ := h
          exact .inr ⟨st', b, hst', hspec⟩

theorem Keeps.refl (hok : StoreOk st ext) : Keeps st st ext where
  storeOk := hok
  content _ _ _ _ _ h := h
  kept _ h := .inl h
  old _ h := h
  covers _ _ _ h := h
  next := rfl
  grows i ob ob' hob hob' := by
    obtain rfl := some.inj (hob.symm.trans hob')
    exact .refl ob
  quiet h := h
  pagersApart h := h
  shows _ _ _ _ _ h := h

theorem Keeps.trans {st₁ st₂ : ObjectStore α} (h₁ : Keeps st st₁ ext) (h₂ : Keeps st₁ st₂ ext) :
    Keeps st st₂ ext where
  storeOk := h₂.storeOk
  content i off v hc hi hv := by
    have hi₁ := h₂.old i hi
    exact h₂.content i off v (h₁.covers i off hi₁ hc) hi (h₁.content i off v hc hi₁ hv)
  kept i hi := (h₁.kept i hi).elim (h₂.kept i) .inr
  old i hi := h₁.old i (h₂.old i hi)
  covers i off hi hc := h₂.covers i off hi (h₁.covers i off (h₂.old i hi) hc)
  next := h₂.next.trans h₁.next
  grows i ob ob' hob hob' := by
    obtain ⟨ob₁, hob₁⟩ := isSome_iff_exists.mp (h₂.old i (by rw [hob']; rfl))
    exact (h₁.grows i ob ob₁ hob hob₁).trans (h₂.grows i ob₁ ob' hob₁ hob')
  quiet h := h₂.quiet (h₁.quiet h)
  pagersApart h := h₂.pagersApart (h₁.pagersApart h)
  shows x off o off' hl h :=
    h₁.shows x off o off' (fun i hi => h₂.old i (hl i hi)) (h₂.shows x off o off' hl h)

theorem Keeps.content_iff (h : Keeps st st' ext) (hok : StoreOk st ext) {i : ObjId}
    (hi : (st'.objs i).isSome) (hc : st.Covers (some i) off) (v : α) :
    Content st' (some i) off v ↔ Content st (some i) off v := by
  constructor
  · intro hv
    obtain ⟨w, hw⟩ := Content.exists hok.acyclic hok.live i (h.old i hi) off
    rwa [hv.unique (h.content i off w hc hi hw)]
  · exact h.content i off v hc hi

end

section
variable {st st' : ObjectStore α} {o : ObjId}

/-- A loop that has come to its end, whatever number of turns more it is given. -/
def EndsIn (run : ℕ → Except Unfinished (ObjectStore α)) (st : ObjectStore α) : Prop :=
  ∃ n, ∀ k, run (n + k) = .ok st

variable {g : CollapseGlobals} {lockTry : ℕ → Bool}

theorem endsIn_of_leave (h : st.collapsePass g (lockTry 0) o = .leave) :
    EndsIn (fun n => st.collapseLoop g o n lockTry) st := by
  refine ⟨1, fun k => ?_⟩
  rw [Nat.add_comm]
  simp only [collapseLoop, h]

theorem endsIn_of_again {st₁ : ObjectStore α} (h : st.collapsePass g (lockTry 0) o = .again st₁)
    (h₁ : EndsIn (fun n => st₁.collapseLoop g o n fun m => lockTry (m + 1)) st') :
    EndsIn (fun n => st.collapseLoop g o n lockTry) st' := by
  obtain ⟨n, hn⟩ := h₁
  refine ⟨n + 1, fun k => ?_⟩
  rw [show n + 1 + k = (n + k) + 1 by omega]
  simp only [collapseLoop, h]
  exact hn k

end

section
variable [Zero α] {ext : ObjId → ℕ} {o : ObjId}

theorem collapseLoop_spec {f : ℕ → Option ℕ} (hf : Acyclic f) (g : CollapseGlobals) (x : ObjId) :
    ∀ (lockTry : ℕ → Bool) (st : ObjectStore α), StoreOk st ext →
      (∀ i ≠ o, st.shadowOf i = f i ∨ st.shadowOf i = none) → st.shadowOf o = some x →
      ∃ st', EndsIn (fun n => st.collapseLoop g o n lockTry) st' ∧ Keeps st st' ext := by
  induction x using WellFounded.induction hf with
  | _ x ih =>
    intro lockTry st hok hlinks hx
    rcases collapsePass_spec hok g (lockTry 0) o with h | ⟨st₁, b, h, hspec⟩
    · exact ⟨st, endsIn_of_leave h, .refl hok⟩
    obtain rfl : x = b := some.inj (hx.symm.trans hspec.hshadow)
    have hlinks₁ : ∀ i ≠ o, st₁.shadowOf i = f i ∨ st₁.shadowOf i = none := by
      intro i hio
      rcases hspec.shadow_other i hio with h' | h'
      · rw [h']
        exact hlinks i hio
      · exact .inr h'
    cases hy : st₁.shadowOf o with
    | none =>
      refine ⟨st₁, endsIn_of_again h ?_, hspec.toKeeps⟩
      rcases collapsePass_spec hspec.storeOk g (lockTry 1) o with h₁ | ⟨st₂, c, -, hspec₂⟩
      · exact endsIn_of_leave h₁
      · rw [hspec₂.hshadow] at hy
        cases hy
    | some y =>
      have hxy : f x = some y := by
        rw [hspec.shadow_self] at hy
        rcases hlinks x (hok.acyclic.ne hx).symm with h' | h'
        · rwa [← h']
        · rw [h'] at hy
          cases hy
      obtain ⟨st', hend, hkeeps⟩ := ih y hxy (fun m => lockTry (m + 1)) st₁ hspec.storeOk hlinks₁ hy
      exact ⟨st', endsIn_of_again h hend, hspec.toKeeps.trans hkeeps⟩

theorem vmObjectCollapse_keeps {st : ObjectStore α} (hok : StoreOk st ext) (g : CollapseGlobals)
    (lockTry : ℕ → Bool) (object : Option ObjId) :
    ∃ st', EndsIn (st.vmObjectCollapse g lockTry object) st' ∧ Keeps st st' ext := by
  unfold vmObjectCollapse
  split_ifs
  · cases object with
    | none => exact ⟨st, ⟨0, fun _ => rfl⟩, .refl hok⟩
    | some o =>
      cases hx : st.shadowOf o with
      | some x => exact collapseLoop_spec hok.acyclic g x lockTry st hok (fun _ _ => .inl rfl) hx
      | none =>
        refine ⟨st, ?_, .refl hok⟩
        rcases collapsePass_spec hok g (lockTry 0) o with h | ⟨st₁, b, -, hspec⟩
        · exact endsIn_of_leave h
        · rw [hspec.hshadow] at hx
          cases hx
  · exact ⟨st, ⟨0, fun _ => rfl⟩, .refl hok⟩

/-- `vm_object_collapse` comes to an end, keeps the store well formed, its chains acyclic and its
reference counts right, and every object that is left shows what it showed before. -/
theorem vmObjectCollapse_content {st : ObjectStore α} (hok : StoreOk st ext) (g : CollapseGlobals)
    (lockTry : ℕ → Bool) (object : Option ObjId) :
    ∃ st', EndsIn (st.vmObjectCollapse g lockTry object) st' ∧ StoreOk st' ext ∧
      (∀ i, (st.objs i).isSome → (st'.objs i).isSome ∨ ext i = 0) ∧
      ∀ i off v, (st'.objs i).isSome → st.Covers (some i) off →
        (Content st' (some i) off v ↔ Content st (some i) off v) := by
  obtain ⟨st', hend, hkeeps⟩ := vmObjectCollapse_keeps hok g lockTry object
  exact ⟨st', hend, hkeeps.storeOk, hkeeps.kept, fun i off v hi hc => hkeeps.content_iff hok hi hc v⟩

end

/-! ## Chains that lose contents -/

/-- Object 0 shows two pages of object 1, which has the given size; the second comes from
object 2. -/
def threeChain (size : ℕ) : ObjectStore ℕ where
  objs
    | 0 => some { (template : VmObject ℕ) with size := 8192, shadow := some 1 }
    | 1 => some { (template : VmObject ℕ) with size := size, shadow := some 2 }
    | 2 => some { (template : VmObject ℕ) with
        size := 8192, memq := [⟨4096, 7, false, false⟩] }
    | _ => none
  next := 3
  kobject _ := none
  pagerData _ _ := none

/-- Object 1 has an absent page but no pager; the page is found in object 2. -/
def absentChain : ObjectStore ℕ where
  objs
    | 0 => some { (template : VmObject ℕ) with size := 4096, shadow := some 1 }
    | 1 => some { (template : VmObject ℕ) with
        size := 4096, shadow := some 2, memq := [⟨0, 0, true, true⟩], absentCount := 1 }
    | 2 => some { (template : VmObject ℕ) with
        size := 4096, refCount := 2, memq := [⟨0, 7, false, false⟩] }
    | _ => none
  next := 3
  kobject _ := none
  pagerData _ _ := none

theorem threeChain_chainsOk (size : ℕ) :
    ChainsOk (threeChain size) fun i => if i = 0 then 1 else 0 where
  bound
    | 0, _ | 1, _ | 2, _ => by simp [threeChain]
    | i + 3, h => by simp [threeChain] at h
  live
    | 0, j, h | 1, j, h => by cases h; rfl
    | 2, j, h | i + 3, j, h => by cases h
  acyclic := by
    refine .of_rank (fun a => 2 - a) ?_
    rintro (_ | _ | _ | a) b h <;> cases h <;> decide
  refCount := by
    rintro (_ | _ | _ | i) ob h <;> cases h <;> rfl

theorem absentChain_chainsOk : ChainsOk absentChain fun i => if i = 0 ∨ i = 2 then 1 else 0 where
  bound
    | 0, _ | 1, _ | 2, _ => by decide
    | i + 3, h => by simp [absentChain] at h
  live
    | 0, j, h | 1, j, h => by cases h; rfl
    | 2, j, h | i + 3, j, h => by cases h
  acyclic := by
    refine .of_rank (fun a => 2 - a) ?_
    rintro (_ | _ | _ | a) b h <;> cases h <;> decide
  refCount := by
    rintro (_ | _ | _ | i) ob h <;> cases h <;> rfl

/-- Contents are lost where an object shows more of its shadow than the shadow has, and where an
absent page has no memory manager behind it. -/
theorem vmObjectCollapse_loses : (ChainsOk (threeChain 4096) (fun i => if i = 0 then 1 else 0) ∧
      (threeChain 4096).Covers (some 0) 4096 ∧
      ∃ st', EndsIn ((threeChain 4096).vmObjectCollapse ⟨true, true⟩ (fun _ => true) (some 1)) st' ∧
        Content (threeChain 4096) (some 0) 4096 7 ∧ ¬ Content st' (some 0) 4096 7) ∧
    ChainsOk absentChain (fun i => if i = 0 ∨ i = 2 then 1 else 0) ∧ absentChain.Covers (some 0) 0 ∧
      ∃ st', EndsIn (absentChain.vmObjectCollapse ⟨true, true⟩ (fun _ => true) (some 0)) st' ∧
        Content absentChain (some 0) 0 7 ∧ ¬ Content st' (some 0) 0 7 := by
  refine ⟨⟨threeChain_chainsOk 4096, ?_, _, endsIn_of_again rfl (endsIn_of_leave rfl), ?_, ?_⟩,
    absentChain_chainsOk, ?_, _,
    endsIn_of_again rfl (endsIn_of_again rfl (endsIn_of_leave rfl)), ?_, ?_⟩
  · rintro i ⟨⟩
    exact ⟨_, rfl, by decide, fun _ => by decide⟩
  · exact .shadow rfl rfl rfl (.shadow rfl rfl rfl (.resident rfl rfl))
  · intro h
    have h₀ := h.unique (.shadow rfl rfl rfl (.shadow rfl rfl rfl (.zeroFill _)))
    cases h₀
  · rintro i ⟨⟩
    exact ⟨_, rfl, by decide, fun _ => by decide⟩
  · exact .shadow rfl rfl rfl (.shadow rfl rfl rfl (.resident rfl rfl))
  · intro h
    have h₀ := h.unique (.shadow rfl rfl rfl (.zeroFill _))
    cases h₀

theorem threeChain_storeOk : StoreOk (threeChain 8192) fun i => if i = 0 then 1 else 0 where
  toChainsOk := threeChain_chainsOk 8192
  ok := by
    rintro (_ | _ | _ | i) ob h <;> cases h <;>
      exact ⟨by decide, by decide, by decide, by decide, fun h => absurd rfl h⟩
  window := by
    rintro (_ | _ | _ | i) ob j shadow h hj hs _ off hc <;> cases h <;> cases hj <;> cases hs <;>
      exact hc.2 rfl

theorem vmObjectCollapse_content_threeChain :
    ∃ st', EndsIn ((threeChain 8192).vmObjectCollapse ⟨true, true⟩ (fun _ => true) (some 1)) st' ∧
      ((st'.objs 0).isSome → Content st' (some 0) 4096 7) := by
  obtain ⟨st', hend, -, -, hcontent⟩ :=
    vmObjectCollapse_content threeChain_storeOk ⟨true, true⟩ (fun _ => true) (some 1)
  refine ⟨st', hend, fun h => (hcontent 0 4096 7 h ?_).mpr
    (.shadow rfl rfl rfl (.shadow rfl rfl rfl (.resident rfl rfl)))⟩
  rintro i ⟨⟩
  exact ⟨_, rfl, by decide, fun _ => by decide⟩

end MachKernel.Vm
