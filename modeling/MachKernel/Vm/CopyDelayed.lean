import MachKernel.Vm.Fault

/-! Asymmetric copy-on-write of a permanent object (`vm_object_copy_delayed`). -/

namespace MachKernel.Vm
open Function Option List ObjectStore
open Word32 Links

variable {α : Type*}

def VmObject.pageWrite (ob : VmObject α) (offset : ℕ) (v : α) : VmObject α :=
  { ob with memq := ob.memq.map fun p => if p.offset = offset then { p with data := v } else p }

namespace ObjectStore

/-- The new copy object is put on top of the source. -/
def copyLink (st : ObjectStore α) (src newCopy : ObjId) : ObjectStore α :=
  (st.modify newCopy fun ob => { ob with shadow := some src, shadowOffset := 0 }).modify src
    fun ob => { ob with refCount := ob.refCount + 1, copy := some newCopy }

/-- The old copy object, which has been modified, is made to shadow the new one. -/
def copyRelink (st : ObjectStore α) (src oldCopy newCopy : ObjId) : ObjectStore α :=
  ((st.modify src fun ob => { ob with refCount := ob.refCount - 1 }).modify oldCopy
    fun ob => { ob with shadow := some newCopy }).modify newCopy
    fun ob => { ob with refCount := ob.refCount + 1 }

/-- `vm_object_copy_delayed`: the copy object, and the offsets of the pages of the source that are
made read-only in all physical maps. -/
def vmObjectCopyDelayed (st : ObjectStore α) (src : ObjId) :
    Option (ObjId × ObjectStore α × List ℕ) :=
  (st.objs src).bind fun srcOb =>
    let (newCopy, st₁) := st.vmObjectAllocate srcOb.size
    match srcOb.copy with
    | none => some (newCopy, st₁.copyLink src newCopy, srcOb.memq.map VmPage.offset)
    | some oldCopy => (st.objs oldCopy).bind fun oldOb =>
      if oldOb.memq.length = 0 ∧ ¬ oldOb.pagerCreated then
        -- not modified: another reference to it, and the new object is deallocated
        some (oldCopy, (st₁.modify oldCopy fun ob =>
          { ob with refCount := ob.refCount + 1 }).free newCopy, [])
      else some (newCopy, (st₁.copyRelink src oldCopy newCopy).copyLink src newCopy,
        srcOb.memq.map VmPage.offset)

/-- A store to the page at `offset`. -/
def pageWrite (st : ObjectStore α) (object : ObjId) (offset : ℕ) (v : α) : ObjectStore α :=
  st.modify object fun ob => ob.pageWrite offset v

/-- `vm_pageout_page` of a modified page, to the given pager. -/
def pageOut (st : ObjectStore α) (object : ObjId) (offset : ℕ) (port : PortId) : ObjectStore α :=
  match st.objs object with
  | none => st
  | some ob =>
    match ob.pageLookup offset with
    | none => st
    | some p => { st with
        objs := update st.objs object (some { ob.pageFree offset with
          pagerCreated := true, pager := some port })
        pagerData := update st.pagerData port
          (update (st.pagerData port) (add offset ob.pagingOffset) (some p.data)) }

end ObjectStore

/-- The objects, the offsets at which some map may write to the source's page, and the copies
taken so far with what the source showed at that time. -/
structure CopyState (α : Type*) where
  store : ObjectStore α
  writable : ℕ → Bool
  taken : List (ObjId × (ℕ → α))

/-- A pager for the pages of an object: its own, or a new one if it has none. -/
def PagerFor (st : ObjectStore α) (ob : VmObject α) (port : PortId) : Prop :=
  (ob.pagerCreated = true ∧ ob.pager = some port) ∨
    (ob.pagerCreated = false ∧ (∀ off, st.pagerData port off = none) ∧
      ∀ i ob', st.objs i = some ob' → ob'.pager ≠ some port)

/-- What happens to a permanent object `src` and its copy objects. -/
inductive CopyStep [Zero α] (src : ObjId) (s : CopyState α) : CopyState α → Prop
  | copy {c : ObjId} {st : ObjectStore α} {readOnly : List ℕ} {f : ℕ → α}
      (h : s.store.vmObjectCopyDelayed src = some (c, st, readOnly))
      (hf : ∀ off < modulus, Content s.store (some src) off (f off)) :
      CopyStep src s ⟨st, fun off => s.writable off && !readOnly.contains off, (c, f) :: s.taken⟩
  | fault {g : CollapseGlobals} {lockTry : ℕ → Bool} {turns off : ℕ} {write : Bool}
      {r : FaultResult α} (hoff : off < modulus)
      (h : s.store.vmFaultPage g lockTry turns src off write = .ok r) :
      CopyStep src s ⟨r.store, fun o =>
        (s.writable o && !r.flushed.contains (src, o)) || (o == off && r.mayWrite), s.taken⟩
  | write {off : ℕ} {v : α} (h : s.writable off = true) :
      CopyStep src s ⟨s.store.pageWrite src off v, s.writable, s.taken⟩
  | pageOut {i : ObjId} {ob : VmObject α} {off : ℕ} {port : PortId} (hob : s.store.objs i = some ob)
      (hoff : off < modulus) (h : PagerFor s.store ob port) :
      CopyStep src s ⟨s.store.pageOut i off port,
        fun o => s.writable o && !(i == src && o == off), s.taken⟩

/-- A permanent object that has not been copied, with `k` references to it. -/
structure CopyStart (src k : ℕ) (s : CopyState α) : Prop where
  only : ∀ i, (s.store.objs i).isSome → i = src
  lt_next : src < s.store.next
  source : ∃ ob, s.store.objs src = some ob ∧ ob.temporary = false ∧ ob.shadow = none ∧
    ob.copy = none ∧ ob.refCount = k ∧ (ob.pagerCreated → ob.pager.isSome)
  quiet : Quiet s.store
  writable : ∀ off, s.writable off = true → off < modulus ∧ InMemory s.store src off
  taken : s.taken = []

/-! ## What a copy does to the store -/

/-- The old copy object had no pages: one more reference to it. -/
structure CopyReused (st st' : ObjectStore α) (sob : VmObject α) (c : ObjId) : Prop where
  hcopy : sob.copy = some c
  empty : ∃ oldOb, st.objs c = some oldOb ∧ oldOb.memq = [] ∧ oldOb.pagerCreated = false
  next' : st'.next = st.next + 1
  pagerData' : st'.pagerData = st.pagerData
  objs' : ∀ i, st'.objs i = (st.objs i).map fun ob =>
    { ob with refCount := ob.refCount + if i = c then 1 else 0 }

/-- A new copy object lies between the source and the old copy object, if there is one. -/
structure CopyFresh (st st' : ObjectStore α) (src : ObjId) (sob : VmObject α) : Prop where
  next' : st'.next = st.next + 1
  pagerData' : st'.pagerData = st.pagerData
  objs_next : st'.objs st.next = some { (template : VmObject α) with
    size := sob.size, refCount := if sob.copy.isSome then 2 else 1, shadow := some src }
  objs_src : st'.objs src = some { sob with
    refCount := (if sob.copy.isSome then sob.refCount - 1 else sob.refCount) + 1
    copy := some st.next }
  objs_other : ∀ i ≠ src, i ≠ st.next → st'.objs i = (st.objs i).map fun ob =>
    { ob with shadow := if sob.copy = some i then some st.next else ob.shadow }

section
variable {st st' : ObjectStore α} {src c : ObjId} {sob : VmObject α}

theorem CopyReused.objs_some {ob : VmObject α} (h : CopyReused st st' sob c) {i : ObjId}
    (hob : st.objs i = some ob) :
    st'.objs i = some { ob with refCount := ob.refCount + if i = c then 1 else 0 } := by
  rw [h.objs', hob, map_some]

theorem objs_copyLink (newCopy i : ObjId) : (st.copyLink src newCopy).objs i =
    ((st.objs i).map fun ob => if i = newCopy then
        { ob with shadow := some src, shadowOffset := 0 } else ob).map
      fun ob => if i = src then
        { ob with refCount := ob.refCount + 1, copy := some newCopy } else ob := by
  simp only [copyLink, objs_modify_map]

theorem objs_copyRelink (oldCopy newCopy i : ObjId) : (st.copyRelink src oldCopy newCopy).objs i =
    (((st.objs i).map fun ob => if i = src then { ob with refCount := ob.refCount - 1 } else ob).map
      fun ob => if i = oldCopy then { ob with shadow := some newCopy } else ob).map
      fun ob => if i = newCopy then { ob with refCount := ob.refCount + 1 } else ob := by
  simp only [copyRelink, objs_modify_map]

theorem vmObjectCopyDelayed_cases {readOnly : List ℕ} (hsrc : st.objs src = some sob)
    (hbound : ∀ i, (st.objs i).isSome → i < st.next) (hne : sob.copy ≠ some src)
    (h : st.vmObjectCopyDelayed src = some (c, st', readOnly)) :
    (readOnly = [] ∧ CopyReused st st' sob c) ∨
      (readOnly = sob.memq.map VmPage.offset ∧ c = st.next ∧ CopyFresh st st' src sob) := by
  have hsrcn : src ≠ st.next := (hbound src (by rw [hsrc]; rfl)).ne
  have hnext : st.objs st.next = none := by
    by_contra hn
    exact lt_irrefl _ (hbound st.next (isSome_iff_ne_none.mpr hn))
  simp only [vmObjectCopyDelayed, hsrc, bind_some, vmObjectAllocate] at h
  cases hc : sob.copy with
  | none =>
    simp only [hc, Option.some.injEq, Prod.mk.injEq] at h
    obtain ⟨rfl, rfl, rfl⟩ := h
    refine .inr ⟨rfl, rfl, rfl, rfl, ?_, ?_, ?_⟩
    · rw [objs_copyLink]
      simp [hsrcn.symm, hc, template]
    · rw [objs_copyLink]
      simp [hsrcn, hsrc, hc]
    · intro i hi hin
      rw [objs_copyLink]
      simp [hi, hin, hc]
  | some old =>
    simp only [hc] at h
    have holds : old ≠ src := fun heq => hne (heq ▸ hc)
    cases hold : st.objs old with
    | none => simp [hold] at h
    | some oldOb =>
      have holdn : old ≠ st.next := (hbound old (by rw [hold]; rfl)).ne
      simp only [hold, bind_some] at h
      split_ifs at h with hempty
      · simp only [Option.some.injEq, Prod.mk.injEq] at h
        obtain ⟨rfl, rfl, rfl⟩ := h
        refine .inl ⟨rfl, hc, ⟨oldOb, hold, length_eq_zero_iff.mp hempty.1,
          by simpa using hempty.2⟩, rfl, rfl, ?_⟩
        intro i
        rcases eq_or_ne i st.next with rfl | hin
        · rw [objs_free_self, hnext, map_none]
        · rw [objs_free_of_ne _ hin, objs_modify]
          simp only [update_of_ne hin]
          split_ifs <;> simp
      · simp only [Option.some.injEq, Prod.mk.injEq] at h
        obtain ⟨rfl, rfl, rfl⟩ := h
        refine .inr ⟨rfl, rfl, rfl, rfl, ?_, ?_, ?_⟩
        · rw [objs_copyLink, objs_copyRelink]
          simp [hsrcn.symm, holdn.symm, hc, template]
        · rw [objs_copyLink, objs_copyRelink]
          simp [hsrcn, hsrc, hc, holds.symm]
        · intro i hi hin
          rw [objs_copyLink, objs_copyRelink]
          simp only [hi, hin, hc, if_false, update_of_ne hin, Option.map_map]
          congr 1
          funext ob
          rcases eq_or_ne i old with rfl | hio
          · simp
          · simp [hio, hio.symm]

end

/-! ## The source and the chain of its copies -/

/-- Where a copy object's shadow link goes: the newest copy object shadows the source, each older
one a newer one. -/
def CopyLink (st : ObjectStore α) (src i : ObjId) (ob : VmObject α) : Prop :=
  (ob.shadow = some src ∧ (st.objs src).bind VmObject.copy = some i) ∨
    ∃ j, ob.shadow = some j ∧ i < j ∧ j ≠ src ∧ (st.objs j).isSome

structure SourceOk (st : ObjectStore α) (src : ObjId) : Prop where
  bound : ∀ i, (st.objs i).isSome → i < st.next
  apart : PagersApart st
  pagered : ∀ i ob, st.objs i = some ob → ob.pagerCreated → ob.pager.isSome
  source : ∃ ob, st.objs src = some ob ∧ ob.shadow = none ∧
    ∀ c, ob.copy = some c → CopyLinked st src c ∧ c ≠ src
  links : ∀ i ob, st.objs i = some ob → i ≠ src → ob.shadowOffset = 0 ∧ CopyLink st src i ob

section
variable {st st' : ObjectStore α} {src c : ObjId} {sob : VmObject α}

theorem SourceOk.acyclic (h : SourceOk st src) : Acyclic st.shadowOf := by
  -- newer copy objects have greater names; the source comes last
  refine .of_rank (fun i => if i = src then 0 else st.next + 1 - i) ?_
  intro i j hij
  obtain ⟨sob, hsob, hshadow, -⟩ := h.source
  cases hob : st.objs i with
  | none => simp [shadowOf, hob] at hij
  | some ob =>
    rw [st.shadowOf_eq hob] at hij
    have hi := h.bound i (by rw [hob]; rfl)
    have hne : i ≠ src := by
      rintro rfl
      obtain rfl := some.inj (hob.symm.trans hsob)
      simp [hshadow] at hij
    simp only [hne, if_false]
    rcases (h.links i ob hob hne).2 with ⟨hs, -⟩ | ⟨j', hs, hlt, hj, hlive⟩
    · obtain rfl := some.inj (hij.symm.trans hs)
      rw [if_pos rfl]
      have hi' : i < st.next := hi
      omega
    · obtain rfl := some.inj (hij.symm.trans hs)
      have hj' : j < st.next := h.bound j hlive
      rw [if_neg hj]
      have hlt' : i < j := hlt
      omega

theorem SourceOk.copy_ne (h : SourceOk st src) (hsob : st.objs src = some sob) :
    sob.copy ≠ some src := by
  obtain ⟨ob, hob, -, hcopy⟩ := h.source
  obtain rfl := some.inj (hsob.symm.trans hob)
  exact fun hc => (hcopy src hc).2 rfl

variable {i j : ObjId} {ob' ob obj : VmObject α} {off o : ℕ} {port : PortId}

theorem SourceOk.live (h : SourceOk st src) (hij : st.shadowOf i = some j) :
    (st.objs j).isSome := by
  obtain ⟨sob, hsob, hshadow, -⟩ := h.source
  cases hob : st.objs i with
  | none => simp [shadowOf, hob] at hij
  | some ob =>
    rw [st.shadowOf_eq hob] at hij
    rcases eq_or_ne i src with rfl | hne
    · obtain rfl := some.inj (hob.symm.trans hsob)
      simp [hshadow] at hij
    · rcases (h.links i ob hob hne).2 with ⟨hs, -⟩ | ⟨j', hs, -, -, hlive⟩
      · obtain rfl := some.inj (hij.symm.trans hs)
        rw [hsob]
        rfl
      · obtain rfl := some.inj (hij.symm.trans hs)
        exact hlive

theorem SameFrames.isSome (h : SameFrames st st') (i : ObjId) :
    (st'.objs i).isSome = (st.objs i).isSome := by
  have := congrArg Option.isSome (h.2 i)
  rwa [isSome_map, isSome_map] at this

/-- The fields that faults, writes and page-outs leave alone. -/
structure SameLinks (ob ob' : VmObject α) : Prop where
  shadow : ob'.shadow = ob.shadow
  shadowOffset : ob'.shadowOffset = ob.shadowOffset
  copy : ob'.copy = ob.copy

/-- The same objects with the same links. -/
structure SameShape (st st' : ObjectStore α) : Prop where
  next' : st.next ≤ st'.next
  isSome : ∀ i, (st'.objs i).isSome = (st.objs i).isSome
  links : ∀ i ob, st.objs i = some ob → ∃ ob', st'.objs i = some ob' ∧ SameLinks ob ob'

theorem SameShape.links_back (h : SameShape st st')
    (hob' : st'.objs i = some ob') : ∃ ob, st.objs i = some ob ∧ SameLinks ob ob' := by
  have hi := h.isSome i
  rw [hob'] at hi
  obtain ⟨ob, hob⟩ := isSome_iff_exists.mp hi.symm
  obtain ⟨ob'', hob'', hl⟩ := h.links i ob hob
  obtain rfl := some.inj (hob'.symm.trans hob'')
  exact ⟨ob, hob, hl⟩

theorem SameFrames.shape (h : SameFrames st st') : SameShape st st' :=
  ⟨h.1.ge, h.isSome, fun _ _ hob => by
    obtain ⟨_, hob'⟩ := h.objs hob
    exact ⟨_, hob', rfl, rfl, rfl⟩⟩

theorem SameShape.bind_eq (h : SameShape st st') {β : Type*} {f : VmObject α → Option β}
    (hf : ∀ ob ob', SameLinks ob ob' → f ob' = f ob) (i : ObjId) :
    (st'.objs i).bind f = (st.objs i).bind f := by
  cases hob : st.objs i with
  | none =>
    have hi := h.isSome i
    rw [hob, isSome_none, isSome_eq_false_iff, isNone_iff_eq_none] at hi
    rw [hi]
  | some ob =>
    obtain ⟨ob', hob', hl⟩ := h.links i ob hob
    rw [hob']
    exact hf ob ob' hl

theorem SameShape.shadowOf (h : SameShape st st') : st'.shadowOf = st.shadowOf :=
  funext fun i => h.bind_eq (fun _ _ hl => hl.shadow) i

theorem SameShape.copy_eq (h : SameShape st st') (i : ObjId) :
    (st'.objs i).bind VmObject.copy = (st.objs i).bind VmObject.copy :=
  h.bind_eq (fun _ _ hl => hl.copy) i

theorem SourceOk.shape (h : SourceOk st src) (hs : SameShape st st') (hapart : PagersApart st')
    (hpagered : ∀ i ob, st'.objs i = some ob → ob.pagerCreated → ob.pager.isSome) :
    SourceOk st' src where
  bound i hi := (h.bound i (by rwa [← hs.isSome])).trans_le hs.next'
  apart := hapart
  pagered := hpagered
  source := by
    obtain ⟨ob, hob, hshadow, hcopy⟩ := h.source
    obtain ⟨ob', hob', hl⟩ := hs.links src ob hob
    refine ⟨ob', hob', hl.shadow.trans hshadow, fun c hc => ?_⟩
    obtain ⟨⟨cob, hcob, hsh, hso, -⟩, hne⟩ := hcopy c (hl.copy ▸ hc)
    obtain ⟨cob', hcob', hcl⟩ := hs.links c cob hcob
    exact ⟨⟨cob', hcob', hcl.shadow.trans hsh, hcl.shadowOffset.trans hso,
      hpagered c cob' hcob'⟩, hne⟩
  links i ob' hob' hne := by
    obtain ⟨ob, hob, hl⟩ := hs.links_back hob'
    obtain ⟨hso, hlink⟩ := h.links i ob hob hne
    refine ⟨hl.shadowOffset.trans hso, ?_⟩
    unfold CopyLink
    rw [hl.shadow, hs.copy_eq]
    rcases hlink with hlink | ⟨j, hsh, hlt, hj, hlive⟩
    · exact .inl hlink
    · exact .inr ⟨j, hsh, hlt, hj, by rwa [hs.isSome]⟩

theorem SourceOk.frames (h : SourceOk st src) (hf : SameFrames st st') : SourceOk st' src := by
  refine h.shape hf.shape (hf.pagersApart h.apart) fun i ob' hob' hc => ?_
  obtain ⟨_, hob⟩ := hf.symm.objs hob'
  have := h.pagered i _ hob
  exact this hc

theorem sameFrames_pageWrite (st : ObjectStore α) (i : ObjId) (off : ℕ) (v : α) :
    SameFrames st (st.pageWrite i off v) := sameFrames_modify _ fun _ => rfl

theorem VmObject.pageLookup_pageWrite (ob : VmObject α) (off : ℕ) (v : α) (o : ℕ) :
    (ob.pageWrite off v).pageLookup o =
      (ob.pageLookup o).map fun p => if p.offset = off then { p with data := v } else p := by
  unfold VmObject.pageLookup VmObject.pageWrite
  rw [find?_map]
  congr 1
  apply find?_congr
  intro p _
  simp only [comp_apply]
  split_ifs <;> rfl

theorem VmObject.resident_pageWrite_of_ne (ob : VmObject α) (v : α) (h : o ≠ off) :
    (ob.pageWrite off v).resident o = ob.resident o := by
  unfold VmObject.resident
  rw [VmObject.pageLookup_pageWrite]
  cases hl : ob.pageLookup o with
  | none => rfl
  | some p =>
    have hp : p.offset ≠ off := by rwa [VmObject.offset_of_pageLookup hl]
    simp [hp]

theorem own_pageWrite (src : ObjId) (hob : st.objs i = some ob) (off : ℕ) (v : α) :
    ∃ ob', (st.pageWrite src off v).objs i = some ob' ∧ ob'.frame = ob.frame ∧
      (∀ o, (ob'.pageLookup o).isSome = (ob.pageLookup o).isSome) ∧
      ∀ o, i ≠ src ∨ o ≠ off → (st.pageWrite src off v).own ob' o = st.own ob o := by
  unfold pageWrite
  rw [objs_modify]
  split_ifs with hi
  · refine ⟨ob.pageWrite off v, by rw [hob, map_some], rfl, fun o => ?_, fun o ho => ?_⟩
    · rw [VmObject.pageLookup_pageWrite, isSome_map]
    · have hne : o ≠ off := ho.resolve_left fun h => h hi
      unfold own
      rw [ob.resident_pageWrite_of_ne v hne]
      rfl
  · exact ⟨ob, hob, rfl, fun _ => rfl, fun _ _ => rfl⟩

theorem quiet_pageWrite (hq : Quiet st) (off : ℕ) (v : α) : Quiet (st.pageWrite src off v) := by
  intro i ob hob p hp
  unfold pageWrite at hob
  rw [objs_modify] at hob
  split_ifs at hob
  · obtain ⟨ob₀, hob₀, rfl⟩ := map_eq_some_iff.mp hob
    obtain ⟨p₀, hp₀, rfl⟩ := mem_map.mp hp
    have := hq i ob₀ hob₀ p₀ hp₀
    split_ifs <;> exact this
  · exact hq i ob hob p hp

theorem pagerPage_of_pagerFor (hport : PagerFor st ob port) (hoff : off < modulus)
    (ho : o < modulus) (v : α) :
    (update (st.pagerData port) (add off ob.pagingOffset) (some v))
        (add o ob.pagingOffset) = if o = off then some v else st.pagerPage ob o := by
  split_ifs with h
  · rw [h, update_self]
  · have hne : add o ob.pagingOffset ≠ add off ob.pagingOffset :=
      fun heq => h (add_right_cancel ho hoff heq)
    rw [update_of_ne hne]
    rcases hport with ⟨hc, hp⟩ | ⟨hc, hdata, -⟩
    · simp [pagerPage, hc, hp]
    · simp [pagerPage, hc, hdata]

theorem pager_ne_of_pagerFor (hapart : PagersApart st)
    (hob : st.objs i = some ob) (hobj : st.objs j = some obj) (hji : j ≠ i)
    (hport : PagerFor st ob port) : obj.pager ≠ some port := by
  rcases hport with ⟨-, hp⟩ | ⟨-, -, hfresh⟩
  · exact fun h => hji (hapart j i obj ob port hobj hob h hp)
  · exact hfresh j obj hobj

theorem own_pageOut (hq : Quiet st) (hapart : PagersApart st)
    (hob : st.objs i = some ob) (hobj : st.objs j = some obj)
    (hoff : off < modulus) (hport : PagerFor st ob port) :
    ∃ ob', (st.pageOut i off port).objs j = some ob' ∧ SameLinks obj ob' ∧
      ob'.refCount = obj.refCount ∧
      (∀ o < modulus, (st.pageOut i off port).own ob' o = st.own obj o) ∧
      ∀ o, j ≠ i ∨ o ≠ off → ob'.pageLookup o = obj.pageLookup o := by
  unfold pageOut
  simp only [hob]
  cases hl : ob.pageLookup off with
  | none => exact ⟨obj, hobj, ⟨rfl, rfl, rfl⟩, rfl, fun _ _ => rfl, fun _ _ => rfl⟩
  | some p =>
    rcases eq_or_ne j i with rfl | hji
    · obtain rfl := some.inj (hob.symm.trans hobj)
      refine ⟨_, update_self .., ⟨rfl, rfl, rfl⟩, rfl, fun o ho => ?_, fun o ho => ?_⟩
      · have habs := (hq j ob hob p (mem_of_find?_eq_some hl)).2
        have hres : ob.resident off = some p.data := by simp [VmObject.resident, hl, habs]
        have hpg := pagerPage_of_pagerFor hport hoff ho p.data
        calc _ = ((ob.pageFree off).resident o).or
              ((update (st.pagerData port) (add off ob.pagingOffset) (some p.data))
                (add o ob.pagingOffset)) := by
              simp [own, pagerPage, VmObject.resident,
                VmObject.pageLookup, VmObject.pageFree]
          _ = st.own ob o := by
              rw [hpg, ob.resident_pageFree]
              split_ifs with h
              · rw [h, own, hres]
                rfl
              · rfl
      · have hne : o ≠ off := ho.resolve_left fun h => h rfl
        exact (ob.pageLookup_pageFree off o).trans (if_neg hne)
    · refine ⟨obj, by simp [update_of_ne hji, hobj], ⟨rfl, rfl, rfl⟩, rfl,
        fun o ho => ?_, fun _ _ => rfl⟩
      have hne := pager_ne_of_pagerFor hapart hob hobj hji hport
      unfold own pagerPage
      cases hp : obj.pager with
      | none => rfl
      | some port' =>
        have hpp : port' ≠ port := fun h => hne (h ▸ hp)
        simp [update_of_ne hpp]

theorem pager_pageOut {obj' : VmObject α}
    (hob : st.objs i = some ob) (hobj' : (st.pageOut i off port).objs j = some obj') :
    st.objs j = some obj' ∨ j = i ∧ obj'.pager = some port ∧
      obj'.memq = (ob.pageFree off).memq := by
  unfold pageOut at hobj'
  simp only [hob] at hobj'
  cases hl : ob.pageLookup off with
  | none =>
    simp only [hl] at hobj'
    exact .inl hobj'
  | some p =>
    simp only [hl] at hobj'
    rcases eq_or_ne j i with rfl | hji
    · rw [update_self] at hobj'
      cases hobj'
      exact .inr ⟨rfl, rfl, rfl⟩
    · rw [update_of_ne hji] at hobj'
      exact .inl hobj'

theorem next_pageOut (i off : ℕ) (port : PortId) : (st.pageOut i off port).next = st.next := by
  unfold pageOut
  cases hob : st.objs i with
  | none => rfl
  | some ob =>
    dsimp only
    cases ob.pageLookup off <;> rfl

theorem CopyReused.shape (h : CopyReused st st' sob c) : SameShape st st' where
  next' := by rw [h.next']; exact Nat.le_succ _
  isSome i := by rw [h.objs', isSome_map]
  links i ob hob := ⟨_, h.objs_some hob, rfl, rfl, rfl⟩

theorem CopyFresh.objs_back (h : CopyFresh st st' src sob)
    (hob' : st'.objs i = some ob') (hi : i ≠ src) (hin : i ≠ st.next) :
    ∃ ob, st.objs i = some ob ∧ ob' = { ob with
      shadow := if sob.copy = some i then some st.next else ob.shadow } := by
  rw [h.objs_other i hi hin] at hob'
  obtain ⟨ob, hob, rfl⟩ := map_eq_some_iff.mp hob'
  exact ⟨ob, hob, rfl⟩

theorem CopyFresh.objs_some (h : CopyFresh st st' src sob)
    (hi : i ≠ src) (hin : i ≠ st.next) (hob : st.objs i = some ob) :
    st'.objs i = some { ob with
      shadow := if sob.copy = some i then some st.next else ob.shadow } := by
  rw [h.objs_other i hi hin, hob, map_some]

end

/-! ## The invariant -/

/-- The references handed out to object `i`: the `k` references to the source, and one for each
copy. -/
def extRefs (src k : ℕ) (taken : List (ObjId × (ℕ → α))) (i : ObjId) : ℕ :=
  if i = src then k else taken.countP fun t => t.1 = i

theorem extRefs_cons {src k : ℕ} {c : ObjId} (hne : c ≠ src) (taken : List (ObjId × (ℕ → α)))
    (f : ℕ → α) (i : ObjId) :
    extRefs src k ((c, f) :: taken) i = extRefs src k taken i + if c = i then 1 else 0 := by
  unfold extRefs
  rw [countP_cons]
  rcases eq_or_ne i src with rfl | hi
  · simp [hne]
  · simp [hi]

structure CopyInv [Zero α] (src k : ℕ) (s : CopyState α) : Prop where
  ok : SourceOk s.store src
  quiet : Quiet s.store
  refCount : ∀ i ob, s.store.objs i = some ob →
    ob.refCount = refs s.store.next s.store.shadowOf i + extRefs src k s.taken i
  taken : ∀ c f, (c, f) ∈ s.taken → c ≠ src ∧ (s.store.objs c).isSome ∧
    ∀ off < modulus, Content s.store (some c) off (f off)
  /-- Where the source may be written its page is in memory, and the newest copy object has a
  page of its own. -/
  writable : ∀ off, s.writable off = true → off < modulus ∧ InMemory s.store src off ∧
    ∀ c, (s.store.objs src).bind VmObject.copy = some c → Holds s.store c off

section
variable [Zero α] {src k : ℕ} {c : ObjId} {s : CopyState α} {st' : ObjectStore α}

theorem CopyInv.refCount_shape (h : CopyInv src k s) (hs : SameShape s.store st')
    (hnext : st'.next = s.store.next)
    (hcount : ∀ i ob ob', s.store.objs i = some ob → st'.objs i = some ob' →
      ob'.refCount = ob.refCount) (i : ObjId) (ob : VmObject α) (hob : st'.objs i = some ob) :
    ob.refCount = refs st'.next st'.shadowOf i + extRefs src k s.taken i := by
  obtain ⟨ob₀, hob₀, -⟩ := hs.links_back hob
  rw [hcount i ob₀ ob hob₀ hob, h.refCount i ob₀ hob₀, hnext, hs.shadowOf]

theorem CopyInv.refCount_frames (h : CopyInv src k s) (hf : SameFrames s.store st') (i : ObjId)
    (ob : VmObject α) (hob : st'.objs i = some ob) :
    ob.refCount = refs st'.next st'.shadowOf i + extRefs src k s.taken i := by
  refine h.refCount_shape hf.shape hf.1 (fun j ob₁ ob₂ h₁ h₂ => ?_) i ob hob
  obtain ⟨_, h₂'⟩ := hf.objs h₁
  obtain rfl := some.inj (h₂.symm.trans h₂')
  rfl

variable {off o : ℕ} {w : α} {x : Option ObjId} {ob sob : VmObject α} {port : PortId} {f : ℕ → α}
  {s' : CopyState α}

theorem CopyInv.fault (h : CopyInv src k s) {g : CollapseGlobals} {lockTry : ℕ → Bool}
    {turns : ℕ} {write : Bool} {r : FaultResult α} (hoff : off < modulus)
    (hr : s.store.vmFaultPage g lockTry turns src off write = .ok r) :
    CopyInv src k ⟨r.store, fun o =>
      (s.writable o && !r.flushed.contains (src, o)) || (o == off && r.mayWrite), s.taken⟩ := by
  obtain ⟨sob, hsob, hshadow, hcopy⟩ := h.ok.source
  obtain ⟨hfills, hin, hholds⟩ := vmFaultPage_spec hsob hshadow (fun c hc => (hcopy c hc).1) hoff
    h.quiet h.ok.acyclic h.ok.apart hr
  have hf := Fills.sameFrames hfills
  refine ⟨h.ok.frames hf, Fills.quiet hfills h.quiet, h.refCount_frames hf, ?_, ?_⟩
  · intro c f hcf
    obtain ⟨hne, hlive, hv⟩ := h.taken c f hcf
    exact ⟨hne, by rwa [hf.isSome], fun o ho => Fills.content hfills h.ok.apart (hv o ho) ho⟩
  · intro o ho
    simp only [Bool.or_eq_true, Bool.and_eq_true, beq_iff_eq] at ho
    rcases ho with ⟨ho, -⟩ | ⟨rfl, hw⟩
    · obtain ⟨hlt, hino, hho⟩ := h.writable o ho
      refine ⟨hlt, Fills.inMemory hfills hino, fun c hc => ?_⟩
      rw [hf.shape.copy_eq] at hc
      exact Fills.holds hfills h.ok.apart hlt (hho c hc)
    · refine ⟨hoff, hin, fun c hc => hholds hw c ?_⟩
      rwa [hf.shape.copy_eq, hsob] at hc

theorem CopyInv.content_pageWrite (h : CopyInv src k s) (hw : s.writable off = true)
    (v : α) (hv : Content s.store x o w) (ho : o < modulus)
    (hx : x ≠ some src ∨ o ≠ off) : Content (s.store.pageWrite src off v) x o w := by
  obtain ⟨-, -, hholds⟩ := h.writable off hw
  obtain ⟨sob, hsob, hshadow, -⟩ := h.ok.source
  revert ho hx
  refine content_induction (P := fun x o w => o < modulus → (x ≠ some src ∨ o ≠ off) →
    Content (s.store.pageWrite src off v) x o w) (fun o _ _ => .zeroFill o) ?_ ?_ hv
  · intro i ob o w hob hown _ hx
    obtain ⟨ob', hob', -, -, hsame⟩ := own_pageWrite src hob off v
    exact content_of_own hob' ((hsame o (by simpa using hx)).trans hown)
  · intro i ob o w hob hown _ ih ho hx
    obtain ⟨ob', hob', hframe, -, hsame⟩ := own_pageWrite src hob off v
    refine content_of_shadow hob' ((hsame o (by simpa using hx)).trans hown) ?_
    rw [VmObject.shadow_of_frame hframe, VmObject.shadowOffset_of_frame hframe]
    refine ih (add_lt _ _) ?_
    rcases eq_or_ne i src with rfl | hne
    · obtain rfl := some.inj (hob.symm.trans hsob)
      left
      rw [hshadow]
      exact fun hc => by cases hc
    obtain ⟨hso, hlink⟩ := h.ok.links i ob hob hne
    rcases hlink with ⟨-, hcopy⟩ | ⟨j, hs, -, hj, -⟩
    · right
      rw [hso, add_of_lt (by omega), Nat.add_zero]
      rintro rfl
      obtain ⟨ob₁, hob₁, hown₁⟩ := hholds i hcopy
      obtain rfl := some.inj (hob.symm.trans hob₁)
      rw [hown] at hown₁
      cases hown₁
    · left
      rw [hs]
      exact fun hc => hj (some.inj hc)

theorem CopyInv.write (h : CopyInv src k s) (hw : s.writable off = true) (v : α) :
    CopyInv src k ⟨s.store.pageWrite src off v, s.writable, s.taken⟩ := by
  have hf := sameFrames_pageWrite s.store src off v
  refine ⟨h.ok.frames hf, quiet_pageWrite h.quiet off v, h.refCount_frames hf, ?_, ?_⟩
  · intro c f hcf
    obtain ⟨hne, hlive, hv⟩ := h.taken c f hcf
    exact ⟨hne, by rwa [hf.isSome], fun o ho =>
      h.content_pageWrite hw v (hv o ho) ho (.inl (by simpa using hne))⟩
  · intro o ho
    obtain ⟨hlt, ⟨ob, hob, hl⟩, hholds⟩ := h.writable o ho
    obtain ⟨sob, hsob, -, hcopy⟩ := h.ok.source
    refine ⟨hlt, ?_, fun c hc => ?_⟩
    · obtain ⟨ob', hob', -, hsame, -⟩ := own_pageWrite src hob off v
      exact ⟨ob', hob', by rwa [hsame]⟩
    · rw [hf.shape.copy_eq] at hc
      obtain ⟨cob, hcob, hown⟩ := hholds c hc
      have hne : c ≠ src := by
        rw [hsob] at hc
        exact (hcopy c hc).2
      obtain ⟨cob', hcob', -, -, hsame⟩ := own_pageWrite src hcob off v
      exact ⟨cob', hcob', by rwa [hsame o (.inl hne)]⟩

theorem sameShape_pageOut (h : CopyInv src k s) {i : ObjId}
    (hob : s.store.objs i = some ob) (hoff : off < modulus)
    (hport : PagerFor s.store ob port) : SameShape s.store (s.store.pageOut i off port) where
  next' := (next_pageOut i off port).ge
  isSome j := by
    unfold pageOut
    simp only [hob]
    split
    · rfl
    · rcases eq_or_ne j i with rfl | hji
      · simp [hob]
      · simp [update_of_ne hji]
  links j obj hobj := by
    obtain ⟨ob', hob', hl, -⟩ := own_pageOut h.quiet h.ok.apart hob hobj hoff hport
    exact ⟨ob', hob', hl⟩

theorem CopyInv.pageOut (h : CopyInv src k s) {i : ObjId}
    (hob : s.store.objs i = some ob) (hoff : off < modulus) (hport : PagerFor s.store ob port) :
    CopyInv src k ⟨s.store.pageOut i off port,
      fun o => s.writable o && !(i == src && o == off), s.taken⟩ := by
  have hs := sameShape_pageOut h hob hoff hport
  have hown := fun j obj (hobj : s.store.objs j = some obj) =>
    own_pageOut h.quiet h.ok.apart hob hobj
    hoff hport
  have hapart' : PagersApart (s.store.pageOut i off port) := by
    intro j₁ j₂ ob₁ ob₂ q h₁ h₂ hp₁ hp₂
    rcases pager_pageOut hob h₁ with h₁' | ⟨rfl, hq₁, -⟩
    · rcases pager_pageOut hob h₂ with h₂' | ⟨rfl, hq₂, -⟩
      · exact h.ok.apart j₁ j₂ ob₁ ob₂ q h₁' h₂' hp₁ hp₂
      · by_contra hne
        rw [hp₂] at hq₂
        exact pager_ne_of_pagerFor h.ok.apart hob h₁' hne hport (hp₁.trans hq₂)
    · rcases pager_pageOut hob h₂ with h₂' | ⟨rfl, -⟩
      · by_contra hne
        rw [hp₁] at hq₁
        exact pager_ne_of_pagerFor h.ok.apart hob h₂' (Ne.symm hne) hport (hp₂.trans hq₁)
      · rfl
  have hpagered' : ∀ j ob', (s.store.pageOut i off port).objs j = some ob' → ob'.pagerCreated →
      ob'.pager.isSome := by
    intro j ob' hob' hc
    rcases pager_pageOut hob hob' with hj | ⟨-, hq, -⟩
    · exact h.ok.pagered j ob' hj hc
    · rw [hq]
      rfl
  have hcount : ∀ j obj obj', s.store.objs j = some obj →
      (s.store.pageOut i off port).objs j = some obj' → obj'.refCount = obj.refCount := by
    intro j obj obj' hobj hobj'
    obtain ⟨ob', hob', -, hrc, -⟩ := hown j obj hobj
    obtain rfl := some.inj (hobj'.symm.trans hob')
    exact hrc
  refine ⟨h.ok.shape hs hapart' hpagered', ?_, h.refCount_shape hs (next_pageOut i off port) hcount,
    ?_, ?_⟩
  · intro j ob' hob' p hp
    rcases pager_pageOut hob hob' with hj | ⟨-, -, hm⟩
    · exact h.quiet j ob' hj p hp
    · rw [hm] at hp
      exact h.quiet i ob hob p (mem_of_mem_filter hp)
  · intro c f hcf
    obtain ⟨hne, hlive, hv⟩ := h.taken c f hcf
    refine ⟨hne, by rwa [hs.isSome], fun o ho => content_mono ?_ (hv o ho) ho⟩
    intro j obj hobj
    obtain ⟨ob', hob', hl, -, hsame, -⟩ := hown j obj hobj
    refine ⟨ob', hob', fun _ _ v hv => ?_, fun o ho => .inl (hsame o ho)⟩
    rwa [hl.shadow, hl.shadowOffset]
  · intro o ho
    simp only [Bool.and_eq_true, Bool.not_eq_true', Bool.and_eq_false_iff, beq_eq_false_iff_ne] at ho
    obtain ⟨hlt, ⟨sob, hsob, hl⟩, hholds⟩ := h.writable o ho.1
    refine ⟨hlt, ?_, fun c hc => ?_⟩
    · obtain ⟨ob', hob', -, -, -, hlook⟩ := hown src sob hsob
      refine ⟨ob', hob', ?_⟩
      rw [hlook o (ho.2.imp_left Ne.symm)]
      exact hl
    · rw [hs.copy_eq] at hc
      obtain ⟨cob, hcob, hcown⟩ := hholds c hc
      obtain ⟨ob', hob', -, -, hsame, -⟩ := hown c cob hcob
      exact ⟨ob', hob', by rwa [hsame o hlt]⟩

theorem CopyInv.no_link_to_next (h : CopyInv src k s) (i : ObjId) :
    s.store.shadowOf i ≠ some s.store.next :=
  fun hi => lt_irrefl _ (h.ok.bound _ (h.ok.live hi))

theorem CopyInv.objs_next (h : CopyInv src k s) : s.store.objs s.store.next = none := by
  by_contra hn
  exact lt_irrefl _ (h.ok.bound _ (isSome_iff_ne_none.mpr hn))

theorem content_of_copyLinked {st : ObjectStore α} {cob : VmObject α} (hcob : st.objs c = some cob)
    (hsh : cob.shadow = some src) (hso : cob.shadowOffset = 0) {v : α}
    (hoff : off < modulus) (hown : st.own cob off = none) (hv : Content st (some src) off v) :
    Content st (some c) off v := by
  refine content_of_shadow hcob hown ?_
  rw [hsh, hso, add_of_lt (by omega), Nat.add_zero]
  exact hv

theorem CopyReused.content (h : CopyReused s.store st' sob c)
    (hw : Content s.store x o w) (ho : o < modulus) : Content st' x o w := by
  refine content_mono ?_ hw ho
  intro i ob hob
  refine ⟨_, h.objs_some hob, fun _ _ _ hv => hv, fun off _ => .inl ?_⟩
  simp only [own, pagerPage, h.pagerData']
  rfl

theorem CopyInv.reused (h : CopyInv src k s)
    (hsob : s.store.objs src = some sob) (hc : CopyReused s.store st' sob c)
    (hf : ∀ off < modulus, Content s.store (some src) off (f off)) :
    CopyInv src k ⟨st', s.writable, (c, f) :: s.taken⟩ := by
  have hs := hc.shape
  obtain ⟨ob, hob, -, hcopy⟩ := h.ok.source
  obtain rfl := some.inj (hsob.symm.trans hob)
  obtain ⟨⟨cob, hcob, hsh, hso, -⟩, hne⟩ := hcopy c hc.hcopy
  obtain ⟨oldOb, hold, hmemq, hpager⟩ := hc.empty
  obtain rfl := some.inj (hcob.symm.trans hold)
  have hown : ∀ off, s.store.own cob off = none := fun off => by
    simp [own, pagerPage, VmObject.resident, VmObject.pageLookup, hmemq,
      hpager]
  have hback : ∀ i ob', st'.objs i = some ob' → ∃ ob, s.store.objs i = some ob ∧
      ob' = { ob with refCount := ob.refCount + if i = c then 1 else 0 } := by
    intro i ob' hob'
    rw [hc.objs'] at hob'
    obtain ⟨ob, hob, rfl⟩ := map_eq_some_iff.mp hob'
    exact ⟨ob, hob, rfl⟩
  refine ⟨h.ok.shape hs ?_ ?_, ?_, ?_, ?_, ?_⟩
  · intro i j ob₁ ob₂ q h₁ h₂ hp₁ hp₂
    obtain ⟨ob₁', h₁', rfl⟩ := hback i ob₁ h₁
    obtain ⟨ob₂', h₂', rfl⟩ := hback j ob₂ h₂
    exact h.ok.apart i j ob₁' ob₂' q h₁' h₂' hp₁ hp₂
  · intro i ob' hob'
    obtain ⟨ob, hob, rfl⟩ := hback i ob' hob'
    exact h.ok.pagered i ob hob
  · intro i ob' hob'
    obtain ⟨ob, hob, rfl⟩ := hback i ob' hob'
    exact h.quiet i ob hob
  · intro i ob' hob'
    obtain ⟨ob, hob, rfl⟩ := hback i ob' hob'
    have hnone : s.store.shadowOf s.store.next = none := by
      simp [shadowOf, h.objs_next]
    have hrefs := refs_succ s.store.next s.store.shadowOf none i
    rw [update_eq_self_iff.mpr hnone.symm] at hrefs
    have hcount := h.refCount i ob hob
    simp only [hs.shadowOf, hc.next', hrefs, extRefs_cons hne, reduceCtorEq, if_false]
    rw [hcount]
    rcases eq_or_ne i c with rfl | hic
    · simp only [if_true]
      omega
    · rw [if_neg hic, if_neg hic.symm]
      omega
  · intro c' f' hcf
    rcases mem_cons.mp hcf with heq | hcf
    · cases heq
      refine ⟨hne, by rw [hs.isSome, hcob]; rfl, fun o ho => hc.content ?_ ho⟩
      exact content_of_copyLinked hcob hsh hso ho (hown o) (hf o ho)
    · obtain ⟨hne', hlive, hv⟩ := h.taken c' f' hcf
      exact ⟨hne', by rwa [hs.isSome], fun o ho => hc.content (hv o ho) ho⟩
  · intro o ho
    -- the copy object has no pages: nothing may be written yet
    obtain ⟨-, -, hholds⟩ := h.writable o ho
    obtain ⟨cob', hcob', hown'⟩ := hholds c (by rw [hsob]; exact hc.hcopy)
    obtain rfl := some.inj (hcob.symm.trans hcob')
    rw [hown o] at hown'
    cases hown'

theorem CopyInv.src_ne_next (h : CopyInv src k s)
    (hsob : s.store.objs src = some sob) : src ≠ s.store.next :=
  (h.ok.bound src (by rw [hsob]; rfl)).ne

theorem CopyInv.fresh_isSome (h : CopyInv src k s)
    (hsob : s.store.objs src = some sob) (hc : CopyFresh s.store st' src sob) (i : ObjId) :
    (st'.objs i).isSome ↔ i = s.store.next ∨ (s.store.objs i).isSome := by
  rcases eq_or_ne i s.store.next with rfl | hin
  · simp [hc.objs_next]
  rcases eq_or_ne i src with rfl | hi
  · simp [hc.objs_src, hsob]
  · simp [hc.objs_other i hi hin, hin]

theorem CopyInv.fresh_ok (h : CopyInv src k s)
    (hsob : s.store.objs src = some sob) (hc : CopyFresh s.store st' src sob) :
    SourceOk st' src where
  bound i hi := by
    rw [hc.next']
    rcases (h.fresh_isSome hsob hc i).mp hi with rfl | hi
    · exact Nat.lt_succ_self _
    · exact (h.ok.bound i hi).trans (Nat.lt_succ_self _)
  apart := by
    -- the pagers are those of the old objects
    have hpager : ∀ i ob' q, st'.objs i = some ob' → ob'.pager = some q →
        ∃ ob, s.store.objs i = some ob ∧ ob.pager = some q := by
      intro i ob' q hob' hq
      rcases eq_or_ne i s.store.next with rfl | hin
      · rw [hc.objs_next] at hob'
        cases hob'
        cases hq
      rcases eq_or_ne i src with rfl | hi
      · rw [hc.objs_src] at hob'
        cases hob'
        exact ⟨sob, hsob, hq⟩
      · obtain ⟨ob, hob, rfl⟩ := hc.objs_back hob' hi hin
        exact ⟨ob, hob, hq⟩
    intro i j ob₁ ob₂ q h₁ h₂ hq₁ hq₂
    obtain ⟨ob₁', h₁', hq₁'⟩ := hpager i ob₁ q h₁ hq₁
    obtain ⟨ob₂', h₂', hq₂'⟩ := hpager j ob₂ q h₂ hq₂
    exact h.ok.apart i j ob₁' ob₂' q h₁' h₂' hq₁' hq₂'
  pagered i ob' hob' hcr := by
    rcases eq_or_ne i s.store.next with rfl | hin
    · rw [hc.objs_next] at hob'
      cases hob'
      cases hcr
    rcases eq_or_ne i src with rfl | hi
    · rw [hc.objs_src] at hob'
      cases hob'
      exact h.ok.pagered i sob hsob hcr
    · obtain ⟨ob, hob, rfl⟩ := hc.objs_back hob' hi hin
      exact h.ok.pagered i ob hob hcr
  source := by
    obtain ⟨ob, hob, hshadow, -⟩ := h.ok.source
    obtain rfl := some.inj (hsob.symm.trans hob)
    refine ⟨_, hc.objs_src, hshadow, fun c hcopy => ?_⟩
    cases hcopy
    exact ⟨⟨_, hc.objs_next, rfl, rfl, fun hcr => by cases hcr⟩, (h.src_ne_next hsob).symm⟩
  links i ob' hob' hi := by
    rcases eq_or_ne i s.store.next with rfl | hin
    · rw [hc.objs_next] at hob'
      cases hob'
      exact ⟨rfl, .inl ⟨rfl, by rw [hc.objs_src]; rfl⟩⟩
    · obtain ⟨ob, hob, rfl⟩ := hc.objs_back hob' hi hin
      obtain ⟨hso, hlink⟩ := h.ok.links i ob hob hi
      refine ⟨hso, .inr ?_⟩
      split_ifs with hcopy
      · exact ⟨s.store.next, rfl, h.ok.bound i (by rw [hob]; rfl), (h.src_ne_next hsob).symm,
          by rw [hc.objs_next]; rfl⟩
      · rcases hlink with ⟨-, hcopy'⟩ | ⟨j, hs, hlt, hj, hlive⟩
        · rw [hsob] at hcopy'
          exact absurd hcopy' hcopy
        · exact ⟨j, hs, hlt, hj, (h.fresh_isSome hsob hc j).mpr (.inr hlive)⟩

theorem CopyInv.fresh_content (h : CopyInv src k s)
    (hsob : s.store.objs src = some sob) (hc : CopyFresh s.store st' src sob)
    (hw : Content s.store x o w) (ho : o < modulus) : Content st' x o w := by
  refine content_mono ?_ hw ho
  intro i ob hob
  have hin : i ≠ s.store.next := (h.ok.bound i (by rw [hob]; rfl)).ne
  rcases eq_or_ne i src with rfl | hi
  · obtain rfl := some.inj (hsob.symm.trans hob)
    refine ⟨_, hc.objs_src, fun _ _ _ hv => hv, fun off _ => .inl ?_⟩
    simp only [own, pagerPage, hc.pagerData']
    rfl
  · refine ⟨_, hc.objs_some hi hin hob, fun off hoff v hv => ?_, fun off _ => .inl ?_⟩
    · split_ifs with hcopy
      · obtain ⟨ob₁, hob₁, -, hcopies⟩ := h.ok.source
        obtain rfl := some.inj (hsob.symm.trans hob₁)
        obtain ⟨⟨cob, hcob, hsh, hso, -⟩, -⟩ := hcopies i hcopy
        obtain rfl := some.inj (hob.symm.trans hcob)
        rw [hsh] at hv
        exact content_of_copyLinked hc.objs_next rfl rfl (add_lt _ _) rfl hv
      · exact hv
    · simp only [own, pagerPage, hc.pagerData']
      rfl

theorem CopyInv.fresh_shadowOf (h : CopyInv src k s)
    (hsob : s.store.objs src = some sob) (hc : CopyFresh s.store st' src sob) :
    st'.shadowOf = match sob.copy with
      | none => update s.store.shadowOf s.store.next (some src)
      | some old => update (update s.store.shadowOf s.store.next (some src)) old
          (some s.store.next) := by
  obtain ⟨ob, hob, hshadow, hcopy⟩ := h.ok.source
  obtain rfl := some.inj (hsob.symm.trans hob)
  have hother : ∀ i ≠ s.store.next, sob.copy ≠ some i → st'.shadowOf i = s.store.shadowOf i := by
    intro i hin hne
    rcases eq_or_ne i src with rfl | hi
    · rw [st'.shadowOf_eq hc.objs_src, s.store.shadowOf_eq hsob]
    · unfold shadowOf
      rw [hc.objs_other i hi hin]
      simp only [if_neg hne]
      cases s.store.objs i <;> rfl
  have hself : st'.shadowOf s.store.next = some src := st'.shadowOf_eq hc.objs_next
  funext i
  cases hold : sob.copy with
  | none =>
    rcases eq_or_ne i s.store.next with rfl | hin
    · simp [hself]
    · simp [hin, hother i hin (by simp [hold])]
  | some old =>
    obtain ⟨⟨cob, hcob, -⟩, hne⟩ := hcopy old hold
    have hin' : old ≠ s.store.next := (h.ok.bound old (by rw [hcob]; rfl)).ne
    rcases eq_or_ne i old with rfl | hio
    · rw [st'.shadowOf_eq (hc.objs_some hne hin' hcob)]
      simp [hold]
    rcases eq_or_ne i s.store.next with rfl | hin
    · simp [hself, hio]
    · simp [hin, hio, hother i hin (by simp [hold, hio.symm])]

theorem CopyInv.fresh_refs (h : CopyInv src k s)
    (hsob : s.store.objs src = some sob) (hc : CopyFresh s.store st' src sob) (i : ObjId) :
    refs (s.store.next + 1) st'.shadowOf i = refs s.store.next s.store.shadowOf i +
        if sob.copy.isSome then (if i = s.store.next then 1 else 0)
        else if i = src then 1 else 0 := by
  obtain ⟨ob, hob, -, hcopy⟩ := h.ok.source
  obtain rfl := some.inj (hsob.symm.trans hob)
  have hadd := refs_succ s.store.next s.store.shadowOf (some src) i
  rw [h.fresh_shadowOf hsob hc]
  cases hold : sob.copy with
  | none =>
    rw [hadd]
    simp [eq_comm]
  | some old =>
    obtain ⟨⟨cob, hcob, hsh, -⟩, -⟩ := hcopy old hold
    have hlt := h.ok.bound old (by rw [hcob]; rfl)
    have hmove := refs_update (Nat.lt_succ_of_lt hlt)
      (f := update s.store.shadowOf s.store.next (some src)) (some s.store.next) i
    rw [update_of_ne hlt.ne, s.store.shadowOf_eq hcob, hsh, Nat.succ_eq_add_one, hadd] at hmove
    simp only [Option.some.injEq, isSome_some, if_true, eq_comm (a := s.store.next)]
      at hmove ⊢
    omega

theorem CopyInv.fresh (h : CopyInv src k s)
    (hsob : s.store.objs src = some sob) (hc : CopyFresh s.store st' src sob)
    (hf : ∀ off < modulus, Content s.store (some src) off (f off)) :
    CopyInv src k ⟨st', fun off => s.writable off && !(sob.memq.map VmPage.offset).contains off,
      (s.store.next, f) :: s.taken⟩ := by
  have hsn := h.src_ne_next hsob
  have hext_next : extRefs src k s.taken s.store.next = 0 := by
    rw [extRefs, if_neg hsn.symm, countP_eq_zero]
    intro t ht
    obtain ⟨-, hlive, -⟩ := h.taken t.1 t.2 ht
    simpa using (h.ok.bound t.1 hlive).ne
  refine ⟨h.fresh_ok hsob hc, ?_, ?_, ?_, ?_⟩
  · intro i ob' hob' p hp
    rcases eq_or_ne i s.store.next with rfl | hin
    · rw [hc.objs_next] at hob'
      cases hob'
      cases hp
    rcases eq_or_ne i src with rfl | hi
    · rw [hc.objs_src] at hob'
      cases hob'
      exact h.quiet i sob hsob p hp
    · obtain ⟨ob, hob, rfl⟩ := hc.objs_back hob' hi hin
      exact h.quiet i ob hob p hp
  · intro i ob' hob'
    have hrefs := h.fresh_refs hsob hc i
    rw [extRefs_cons hsn.symm, hc.next', hrefs]
    rcases eq_or_ne i s.store.next with rfl | hin
    · rw [hc.objs_next] at hob'
      cases hob'
      rw [hext_next, refs_eq_zero h.no_link_to_next]
      simp only [if_true, if_neg hsn.symm]
      split_ifs <;> rfl
    rw [if_neg hin.symm, if_neg hin]
    rcases eq_or_ne i src with rfl | hi
    · rw [hc.objs_src] at hob'
      cases hob'
      have hcount := h.refCount i sob hsob
      obtain ⟨ob, hob, -, hcopy⟩ := h.ok.source
      obtain rfl := some.inj (hsob.symm.trans hob)
      cases hold : sob.copy with
      | none =>
        simp only [isSome_none, if_true, Bool.false_eq_true, if_false]
        omega
      | some old =>
        -- the old copy object's link counts at least once
        obtain ⟨⟨cob, hcob, hsh, -⟩, -⟩ := hcopy old hold
        have hpos := refs_pos (h.ok.bound old (by rw [hcob]; rfl))
          ((s.store.shadowOf_eq hcob).trans hsh)
        simp only [isSome_some, if_true]
        omega
    · obtain ⟨ob, hob, rfl⟩ := hc.objs_back hob' hi hin
      have hcount := h.refCount i ob hob
      rw [if_neg hi]
      simp only [ite_self]
      omega
  · intro c' f' hcf
    rcases mem_cons.mp hcf with heq | hcf
    · cases heq
      refine ⟨hsn.symm, by rw [hc.objs_next]; rfl, fun o ho => ?_⟩
      exact content_of_copyLinked hc.objs_next rfl rfl ho rfl (h.fresh_content hsob hc (hf o ho) ho)
    · obtain ⟨hne', hlive, hv⟩ := h.taken c' f' hcf
      exact ⟨hne', (h.fresh_isSome hsob hc c').mpr (.inr hlive), fun o ho =>
        h.fresh_content hsob hc (hv o ho) ho⟩
  · intro o ho
    -- all pages in memory have been made read-only
    simp only [Bool.and_eq_true, Bool.not_eq_true'] at ho
    obtain ⟨-, ⟨ob, hob, hl⟩, -⟩ := h.writable o ho.1
    obtain rfl := some.inj (hsob.symm.trans hob)
    obtain ⟨p, hp⟩ := isSome_iff_exists.mp hl
    have hmem : o ∈ sob.memq.map VmPage.offset :=
      mem_map.mpr ⟨p, mem_of_find?_eq_some hp, VmObject.offset_of_pageLookup hp⟩
    rw [contains_iff_mem.mpr hmem] at ho
    cases ho.2

/-! ## Runs -/

theorem CopyInv.step (h : CopyInv src k s) (hstep : CopyStep src s s') : CopyInv src k s' := by
  cases hstep with
  | copy hcopy hf =>
    obtain ⟨sob, hsob, -, -⟩ := h.ok.source
    rcases vmObjectCopyDelayed_cases hsob h.ok.bound (h.ok.copy_ne hsob) hcopy with
      ⟨rfl, hc⟩ | ⟨rfl, rfl, hc⟩
    · simpa using h.reused hsob hc hf
    · exact h.fresh hsob hc hf
  | fault hoff hr => exact h.fault hoff hr
  | write hw => exact h.write hw _
  | pageOut hob hoff hport => exact h.pageOut hob hoff hport

theorem CopyStart.inv (h : CopyStart src k s) : CopyInv src k s := by
  obtain ⟨sob, hsob, -, hshadow, hcopy, hcount, hpager⟩ := h.source
  have honly : ∀ i ob, s.store.objs i = some ob → i = src ∧ ob = sob := by
    intro i ob hob
    obtain rfl := h.only i (by rw [hob]; rfl)
    exact ⟨rfl, some.inj (hob.symm.trans hsob)⟩
  refine ⟨⟨?_, ?_, ?_, ⟨sob, hsob, hshadow, ?_⟩, ?_⟩, h.quiet, ?_, ?_, ?_⟩
  · intro i hi
    rw [h.only i hi]
    exact h.lt_next
  · intro i j ob₁ ob₂ q h₁ h₂ _ _
    rw [(honly i ob₁ h₁).1, (honly j ob₂ h₂).1]
  · intro i ob hob
    rw [(honly i ob hob).2]
    exact hpager
  · intro c hc
    rw [hcopy] at hc
    cases hc
  · intro i ob hob hi
    exact absurd (honly i ob hob).1 hi
  · intro i ob hob
    obtain ⟨rfl, rfl⟩ := honly i ob hob
    have hzero : refs s.store.next s.store.shadowOf i = 0 := by
      refine refs_eq_zero fun j hj => ?_
      cases hobj : s.store.objs j with
      | none => simp [shadowOf, hobj] at hj
      | some obj =>
        rw [s.store.shadowOf_eq hobj, (honly j obj hobj).2, hshadow] at hj
        cases hj
    rw [hzero, extRefs, if_pos rfl, hcount, Nat.zero_add]
  · intro c f hcf
    rw [h.taken] at hcf
    cases hcf
  · intro off ho
    obtain ⟨hlt, hin⟩ := h.writable off ho
    refine ⟨hlt, hin, fun c hc => ?_⟩
    rw [hsob, bind_some, hcopy] at hc
    cases hc

theorem CopyInv.run (h : CopyInv src k s)
    (hrun : Relation.ReflTransGen (CopyStep src) s s') : CopyInv src k s' := by
  induction hrun with
  | refl => exact h
  | tail _ hstep ih => exact ih.step hstep

/-- The copies of a permanent object are snapshots: each shows what the source showed when it was
taken, whatever has been written, pushed and paged out since. The newest copy object shadows the
source at offset 0, and the source's reference count counts each shadow link to it. -/
theorem vmObjectCopyDelayed_snapshot {s₀ : CopyState α} (hstart : CopyStart src k s₀)
    (hrun : Relation.ReflTransGen (CopyStep src) s₀ s) :
    (∀ c f, (c, f) ∈ s.taken → ∀ off < modulus, ∀ v, Content s.store (some c) off v ↔ v = f off) ∧
    ∃ sob, s.store.objs src = some sob ∧
      (∀ c, sob.copy = some c → ∃ cob, s.store.objs c = some cob ∧ cob.shadow = some src ∧
        cob.shadowOffset = 0) ∧ sob.refCount = refs s.store.next s.store.shadowOf src + k := by
  have hinv := hstart.inv.run hrun
  refine ⟨fun c f hcf off hoff v => ?_, ?_⟩
  · have hv := (hinv.taken c f hcf).2.2 off hoff
    constructor
    · exact fun hv' => hv'.unique hv
    · rintro rfl
      exact hv
  · obtain ⟨sob, hsob, -, hcopy⟩ := hinv.ok.source
    refine ⟨sob, hsob, fun c hc => ?_, ?_⟩
    · obtain ⟨⟨cob, hcob, hsh, hso, -⟩, -⟩ := hcopy c hc
      exact ⟨cob, hcob, hsh, hso⟩
    · rw [hinv.refCount src sob hsob, extRefs, if_pos rfl]

end

/-! ## A run -/

/-- A memory manager's object with one page in memory. -/
def onePage : CopyState ℕ where
  store :=
    { objs := fun i => if i = 0 then some { (template : VmObject ℕ) with
        size := 4096, memq := [⟨0, 5, false, false⟩], pager := some 0, pagerCreated := true
        internal := false, temporary := false } else none
      next := 1
      kobject := fun _ => none
      pagerData := fun _ _ => none }
  writable _ := false
  taken := []

theorem onePage_start : CopyStart 0 1 onePage where
  only i hi := by
    by_contra hne
    simp [onePage, hne] at hi
  lt_next := by decide
  source := ⟨_, rfl, rfl, rfl, rfl, rfl, fun _ => rfl⟩
  quiet := by
    intro i ob hob p hp
    simp only [onePage] at hob
    split_ifs at hob
    cases hob
    rw [mem_singleton.mp hp]
    exact ⟨rfl, rfl⟩
  writable off h := by cases h
  taken := rfl

def onePageObject : VmObject ℕ :=
  { (template : VmObject ℕ) with
    size := 4096, memq := [⟨0, 5, false, false⟩], pager := some 0, pagerCreated := true
    internal := false, temporary := false }

theorem onePage_content (off : ℕ) :
    Content onePage.store (some 0) off (if off = 0 then 5 else 0) := by
  have hob : onePage.store.objs 0 = some onePageObject := rfl
  split_ifs with h
  · have hr : onePageObject.resident 0 = some 5 := rfl
    rw [h]
    exact .resident hob hr
  · have hr : onePageObject.resident off = none := by
      have h' : ¬ 0 = off := fun heq => h heq.symm
      simp [onePageObject, VmObject.resident, VmObject.pageLookup, h']
    exact .shadow hob hr rfl (.zeroFill _)

/-- A copy, then a write to the source's page: the copy keeps the old contents. -/
theorem vmObjectCopyDelayed_snapshot_onePage : ∃ s : CopyState ℕ,
    Relation.ReflTransGen (CopyStep 0) onePage s ∧ Content s.store (some 0) 0 9 ∧
      Content s.store (some 1) 0 5 := by
  have hcopy : CopyStep 0 onePage _ := .copy rfl fun off _ => onePage_content off
  have hfault := (Relation.ReflTransGen.single hcopy).tail (.fault (by decide)
    (show (ObjectStore.vmFaultPage _ ⟨true, true⟩ (fun _ => true) 1 0 0 true) = .ok _ from rfl))
  have hrun := hfault.tail (@CopyStep.write _ _ _ _ 0 9 rfl)
  refine ⟨_, hrun, .resident rfl rfl, ?_⟩
  exact ((vmObjectCopyDelayed_snapshot onePage_start hrun).1 1 _ (mem_singleton.mpr rfl) 0
    (by decide) 5).mpr rfl

end MachKernel.Vm
