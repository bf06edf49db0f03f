import MachKernel.Lib.Links
import MachKernel.Vm.Page

/-! Virtual memory objects: resident pages, pagers and shadow chains (`vm/vm_object.c`). -/

namespace MachKernel.Vm
open Function Option List
open Word32 Links

abbrev ObjId := ℕ
abbrev PortId := ℕ

/-- A resident page of an object. -/
structure VmPage (α : Type*) where
  offset : ℕ
  data : α
  busy : Bool
  absent : Bool

structure VmObject (α : Type*) where
  memq : List (VmPage α)
  size : ℕ
  refCount : ℕ
  copy : Option ObjId
  shadow : Option ObjId
  shadowOffset : ℕ
  pager : Option PortId
  pagingOffset : ℕ
  pagerRequest : Option PortId
  pagerName : Option PortId
  absentCount : ℕ
  pagingInProgress : ℕ
  pagerCreated : Bool
  pagerInitialized : Bool
  pagerReady : Bool
  internal : Bool
  temporary : Bool

/-- The objects in existence, the objects that ports stand for, and the pages held by pagers. -/
structure ObjectStore (α : Type*) where
  objs : ObjId → Option (VmObject α)
  next : ObjId
  kobject : PortId → Option ObjId
  pagerData : PortId → ℕ → Option α

open ObjectStore

variable {α : Type*}

/-- `vm_page_lookup`. -/
def VmObject.pageLookup (ob : VmObject α) (offset : ℕ) : Option (VmPage α) :=
  ob.memq.find? fun p => p.offset = offset

/-- The data resident at an offset; an absent page holds none. -/
def VmObject.resident (ob : VmObject α) (offset : ℕ) : Option α :=
  (ob.pageLookup offset).bind fun p => if p.absent then none else some p.data

/-- `vm_page_free` of the page at `offset`. -/
def VmObject.pageFree (ob : VmObject α) (offset : ℕ) : VmObject α :=
  { ob with
    memq := ob.memq.filter fun p => p.offset ≠ offset
    absentCount := ob.absentCount - ob.memq.countP fun p => p.offset = offset ∧ p.absent }

/-- `vm_page_insert`: the page goes to the tail of the object's list of pages. -/
def VmObject.pageInsert (ob : VmObject α) (p : VmPage α) : VmObject α :=
  { ob with memq := ob.memq ++ [p] }

namespace ObjectStore
variable (st : ObjectStore α)

def set (i : ObjId) (ob : VmObject α) : ObjectStore α :=
  { st with objs := update st.objs i (some ob) }

/-- `zfree` of an object. -/
def free (i : ObjId) : ObjectStore α := { st with objs := update st.objs i none }

def shadowOf (i : ObjId) : Option ObjId := (st.objs i).bind VmObject.shadow

/-- The page that the object's pager holds for an offset of the object. -/
def pagerPage (ob : VmObject α) (offset : ℕ) : Option α :=
  if ob.pagerCreated then
    ob.pager.bind fun port => st.pagerData port (add offset ob.pagingOffset)
  else none

/-- What an object has at an offset itself, without its shadow. -/
def own  (ob : VmObject α) (off : ℕ) : Option α :=
  (ob.resident off).or (st.pagerPage ob off)

/-- `vm_object_template`. -/
def template : VmObject α where
  memq := []
  size := 0
  refCount := 1
  copy := none
  shadow := none
  shadowOffset := 0
  pager := none
  pagingOffset := 0
  pagerRequest := none
  pagerName := none
  absentCount := 0
  pagingInProgress := 0
  pagerCreated := false
  pagerInitialized := false
  pagerReady := false
  internal := true
  temporary := true

def vmObjectAllocate (size : ℕ) : ObjId × ObjectStore α :=
  (st.next, { st with
    objs := update st.objs st.next (some { template with size := size })
    next := st.next + 1 })

def modify (i : ObjId) (f : VmObject α → VmObject α) : ObjectStore α :=
  { st with objs := update st.objs i ((st.objs i).map f) }

def vmObjectReference : Option ObjId → ObjectStore α
  | none => st
  | some i => st.modify i fun ob => { ob with refCount := ob.refCount + 1 }

@[simp] theorem objs_set_self (i : ObjId) (ob : VmObject α) : (st.set i ob).objs i = some ob := by
  simp [set]

variable {i j : ObjId}

theorem objs_set_of_ne (h : j ≠ i) (ob : VmObject α) :
    (st.set i ob).objs j = st.objs j := by simp [set, h]

@[simp] theorem next_set (i : ObjId) (ob : VmObject α) : (st.set i ob).next = st.next := rfl

@[simp] theorem pagerData_set (i : ObjId) (ob : VmObject α) :
    (st.set i ob).pagerData = st.pagerData := rfl

@[simp] theorem objs_free_self (i : ObjId) : (st.free i).objs i = none := by simp [free]

theorem objs_free_of_ne (h : j ≠ i) : (st.free i).objs j = st.objs j := by
  simp [free, h]

@[simp] theorem next_free (i : ObjId) : (st.free i).next = st.next := rfl

@[simp] theorem pagerData_free (i : ObjId) : (st.free i).pagerData = st.pagerData := rfl

theorem shadowOf_set (i : ObjId) (ob : VmObject α) :
    (st.set i ob).shadowOf = update st.shadowOf i ob.shadow := by
  funext j
  rcases eq_or_ne j i with rfl | h
  · simp [shadowOf]
  · simp [shadowOf, objs_set_of_ne st h, h]

theorem shadowOf_free (i : ObjId) : (st.free i).shadowOf = update st.shadowOf i none := by
  funext j
  rcases eq_or_ne j i with rfl | h
  · simp [shadowOf]
  · simp [shadowOf, objs_free_of_ne st h, h]

theorem shadowOf_eq {ob : VmObject α} (h : st.objs i = some ob) :
    st.shadowOf i = ob.shadow := by simp [shadowOf, h]

theorem objs_modify (i j : ObjId) (f : VmObject α → VmObject α) :
    (st.modify i f).objs j = if j = i then (st.objs j).map f else st.objs j := by
  rcases eq_or_ne j i with rfl | h
  · simp [modify]
  · simp [modify, h]

theorem objs_modify_map (i j : ObjId) (f : VmObject α → VmObject α) :
    (st.modify i f).objs j = (st.objs j).map fun ob => if j = i then f ob else ob := by
  rw [objs_modify]
  split_ifs
  · rfl
  · rw [Option.map_id']

@[simp] theorem next_modify (i : ObjId) (f : VmObject α → VmObject α) :
    (st.modify i f).next = st.next := rfl

@[simp] theorem pagerData_modify (i : ObjId) (f : VmObject α → VmObject α) :
    (st.modify i f).pagerData = st.pagerData := rfl

theorem shadowOf_modify (i : ObjId) {f : VmObject α → VmObject α}
    (hf : ∀ ob, (f ob).shadow = ob.shadow) : (st.modify i f).shadowOf = st.shadowOf := by
  funext j
  simp only [shadowOf, objs_modify]
  split_ifs
  · cases st.objs j <;> simp [hf]
  · rfl

theorem objs_vmObjectReference (o : Option ObjId) (i : ObjId) :
    (st.vmObjectReference o).objs i = (st.objs i).map fun ob =>
      { ob with refCount := ob.refCount + if o = some i then 1 else 0 } := by
  rcases o with _ | j
  · simp [vmObjectReference]
  · rcases eq_or_ne i j with rfl | h
    · simp [vmObjectReference, objs_modify]
    · simp [vmObjectReference, objs_modify, h, h.symm]

@[simp] theorem next_vmObjectReference (o : Option ObjId) :
    (st.vmObjectReference o).next = st.next := by cases o <;> rfl

@[simp] theorem pagerData_vmObjectReference (o : Option ObjId) :
    (st.vmObjectReference o).pagerData = st.pagerData := by cases o <;> rfl

theorem shadowOf_vmObjectReference (o : Option ObjId) :
    (st.vmObjectReference o).shadowOf = st.shadowOf := by
  cases o
  · rfl
  · exact st.shadowOf_modify _ fun _ => rfl

end ObjectStore

variable {ob : VmObject α} {off : ℕ} {v : α} {i : ObjId} {x : Option ObjId}

theorem VmObject.offset_of_pageLookup {o : ℕ} {p : VmPage α}
    (h : ob.pageLookup o = some p) : p.offset = o := by
  simpa using find?_some h

theorem VmObject.pageLookup_pageFree (ob : VmObject α) (off o : ℕ) :
    (ob.pageFree off).pageLookup o = if o = off then none else ob.pageLookup o := by
  unfold VmObject.pageLookup VmObject.pageFree
  rw [find?_filter]
  split_ifs with h
  · rw [find?_eq_none]
    intro p _ hp
    simp only [h, decide_eq_true_eq] at hp
    exact hp.1 hp.2
  · apply find?_congr
    intro p _
    rw [Bool.eq_iff_iff]
    simp only [decide_eq_true_eq]
    constructor
    · exact fun hp => hp.2
    · exact fun hp => ⟨hp ▸ h, hp⟩

theorem VmObject.resident_pageFree (ob : VmObject α) (off o : ℕ) :
    (ob.pageFree off).resident o = if o = off then none else ob.resident o := by
  unfold VmObject.resident
  rw [VmObject.pageLookup_pageFree]
  split_ifs <;> rfl

/-- No fault is under way: no page is busy or absent. -/
def Quiet (st : ObjectStore α) : Prop :=
  ∀ i ob, st.objs i = some ob → ∀ p ∈ ob.memq, p.busy = false ∧ p.absent = false

/-- No two objects have the same pager. -/
def PagersApart (st : ObjectStore α) : Prop :=
  ∀ i j ob ob' port, st.objs i = some ob → st.objs j = some ob' → ob.pager = some port →
    ob'.pager = some port → i = j

/-- `Shows st x off o off'`: the chain from `x` at `off` passes the object `o` at `off'`. -/
inductive Shows (st : ObjectStore α) : Option ObjId → ℕ → ObjId → ℕ → Prop
  | here (o : ObjId) (off : ℕ) : Shows st (some o) off o off
  | shadow {i o : ObjId} {ob : VmObject α} {off off' : ℕ} (hob : st.objs i = some ob)
      (h : Shows st ob.shadow (add off ob.shadowOffset) o off') : Shows st (some i) off o off'

/-- An object is the same one, with more pages and another place in its chain. -/
structure VmObject.Grows (ob ob' : VmObject α) : Prop where
  size : ob'.size = ob.size
  internal : ob'.internal = ob.internal
  temporary : ob'.temporary = ob.temporary
  copy : ob'.copy = ob.copy
  memq : ob.memq <+: ob'.memq

theorem VmObject.Grows.refl (ob : VmObject α) : ob.Grows ob :=
  ⟨rfl, rfl, rfl, rfl, prefix_rfl⟩

theorem VmObject.Grows.trans {ob' ob'' : VmObject α} (h : ob.Grows ob') (h' : ob'.Grows ob'') :
    ob.Grows ob'' :=
  ⟨h'.size.trans h.size, h'.internal.trans h.internal, h'.temporary.trans h.temporary,
    h'.copy.trans h.copy, h.memq.trans h'.memq⟩

/-! ## What is read through a chain -/

/-- `Content st o off v`: reading offset `off` of the object `o` yields the page `v`. At each
object `vm_fault_page` takes the resident page, else the pager's page, else goes on to the shadow;
past the end of the chain the page is zero-filled. -/
inductive Content [Zero α] (st : ObjectStore α) : Option ObjId → ℕ → α → Prop
  | zeroFill (off : ℕ) : Content st none off 0
  | resident {i : ObjId} {ob : VmObject α} {off : ℕ} {v : α} (hob : st.objs i = some ob)
      (hv : ob.resident off = some v) : Content st (some i) off v
  | pager {i : ObjId} {ob : VmObject α} {off : ℕ} {v : α} (hob : st.objs i = some ob)
      (hr : ob.resident off = none) (hv : st.pagerPage ob off = some v) : Content st (some i) off v
  | shadow {i : ObjId} {ob : VmObject α} {off : ℕ} {v : α} (hob : st.objs i = some ob)
      (hr : ob.resident off = none) (hp : st.pagerPage ob off = none)
      (hv : Content st ob.shadow (add off ob.shadowOffset) v) : Content st (some i) off v

variable [Zero α] {st : ObjectStore α}

theorem Content.unique {o : Option ObjId} {w : α} (hv : Content st o off v)
    (hw : Content st o off w) : v = w := by
  induction hv with
  | zeroFill off => cases hw; rfl
  | resident hob hv =>
    cases hw with
    | resident hob' hw => simp_all
    | pager hob' hr _ => simp_all
    | shadow hob' hr _ _ => simp_all
  | pager hob hr hv =>
    cases hw with
    | resident hob' hw => simp_all
    | pager hob' _ hw => simp_all
    | shadow hob' _ hp _ => simp_all
  | shadow hob hr hp _ ih =>
    cases hw with
    | resident hob' hw => simp_all
    | pager hob' _ hw => simp_all
    | shadow hob' _ _ hw =>
      obtain rfl := some.inj (hob.symm.trans hob')
      exact ih hw

theorem content_of_own (hob : st.objs i = some ob)
    (h : st.own ob off = some v) : Content st (some i) off v := by
  unfold own at h
  cases hr : ob.resident off with
  | some w =>
    rw [hr, some_or] at h
    exact .resident hob (hr.trans h)
  | none =>
    rw [hr, none_or] at h
    exact .pager hob hr h

theorem content_of_shadow (hob : st.objs i = some ob) (h : st.own ob off = none)
    (hv : Content st ob.shadow (add off ob.shadowOffset) v) : Content st (some i) off v := by
  obtain ⟨hr, hp⟩ := or_eq_none_iff.mp h
  exact .shadow hob hr hp hv

theorem content_cases (h : Content st (some i) off v) :
    ∃ ob, st.objs i = some ob ∧ (st.own ob off = some v ∨
      st.own ob off = none ∧ Content st ob.shadow (add off ob.shadowOffset) v) := by
  cases h with
  | resident hob hr => exact ⟨_, hob, .inl (by rw [own, hr]; rfl)⟩
  | pager hob hr hp => exact ⟨_, hob, .inl (by rw [own, hr, hp]; rfl)⟩
  | shadow hob hr hp hv => exact ⟨_, hob, .inr ⟨by rw [own, hr, hp]; rfl, hv⟩⟩

theorem content_induction {P : Option ObjId → ℕ → α → Prop} (hzero : ∀ off, P none off 0)
    (hown : ∀ i ob off v, st.objs i = some ob → st.own ob off = some v → P (some i) off v)
    (hshadow : ∀ i ob off v, st.objs i = some ob → st.own ob off = none →
      Content st ob.shadow (add off ob.shadowOffset) v →
      P ob.shadow (add off ob.shadowOffset) v → P (some i) off v)
    (h : Content st x off v) : P x off v := by
  induction h with
  | zeroFill off => exact hzero off
  | resident hob hr => exact hown _ _ _ _ hob (by rw [own, hr]; rfl)
  | pager hob hr hp => exact hown _ _ _ _ hob (by rw [own, hr, hp]; rfl)
  | shadow hob hr hp hv ih => exact hshadow _ _ _ _ hob (by rw [own, hr, hp]; rfl) hv ih

theorem content_mono {st' : ObjectStore α} (h : ∀ i ob, st.objs i = some ob → ∃ ob', st'.objs i =
    some ob' ∧ (∀ off < modulus, ∀ v, Content st' ob.shadow (add off ob.shadowOffset) v →
        Content st' ob'.shadow (add off ob'.shadowOffset) v) ∧
      ∀ off < modulus, st'.own ob' off = st.own ob off ∨
        ∃ v, Content st (some i) off v ∧ st'.own ob' off = some v)
    (hv : Content st x off v) (hoff : off < modulus) : Content st' x off v := by
  revert hoff
  refine content_induction (P := fun x off v => off < modulus → Content st' x off v)
    (fun off _ => .zeroFill off) ?_ ?_ hv
  · intro i ob off v hob hown hoff
    obtain ⟨ob', hob', -, hsame⟩ := h i ob hob
    rcases hsame off hoff with heq | ⟨w, hw, heq⟩
    · exact content_of_own hob' (heq.trans hown)
    · rw [(content_of_own hob hown).unique hw]
      exact content_of_own hob' heq
  · intro i ob off v hob hown hcv ih hoff
    obtain ⟨ob', hob', hsh, hsame⟩ := h i ob hob
    rcases hsame off hoff with heq | ⟨w, hw, heq⟩
    · exact content_of_shadow hob' (heq.trans hown) (hsh off hoff v (ih (add_lt _ _)))
    · rw [(content_of_shadow hob hown hcv).unique hw]
      exact content_of_own hob' heq

/-- Every shadow link leads to an object in existence. -/
def ShadowsLive (st : ObjectStore α) : Prop :=
  ∀ i j, st.shadowOf i = some j → (st.objs j).isSome

theorem Content.exists (ha : Acyclic st.shadowOf) (hl : ShadowsLive st) (i : ObjId)
    (hi : (st.objs i).isSome) (off : ℕ) : ∃ v, Content st (some i) off v := by
  induction i using WellFounded.induction ha generalizing off with
  | _ i ih =>
    obtain ⟨ob, hob⟩ := isSome_iff_exists.mp hi
    cases hr : ob.resident off with
    | some v => exact ⟨v, .resident hob hr⟩
    | none =>
      cases hp : st.pagerPage ob off with
      | some v => exact ⟨v, .pager hob hr hp⟩
      | none =>
        cases hs : ob.shadow with
        | none => exact ⟨0, .shadow hob hr hp (hs ▸ .zeroFill _)⟩
        | some j =>
          have hij : st.shadowOf i = some j := (st.shadowOf_eq hob).trans hs
          obtain ⟨v, hv⟩ := ih j hij (hl i j hij) (add off ob.shadowOffset)
          exact ⟨v, .shadow hob hr hp (hs ▸ hv)⟩

end MachKernel.Vm
