import MachKernel.Vm.Clip
import MachKernel.Vm.Object

/-! Reference counts of objects and of maps (`vm_object_reference`, `vm_object_deallocate`,
`vm_map_reference`). -/

namespace MachKernel.Vm
open Links Linked Option List

/-- What a map entry or a shadow link holds a reference to. -/
inductive Target
  | object (o : ObjId)
  | map (j : ℕ)
  deriving DecidableEq

/-- The object or the map that an entry points to. -/
def VmMapEntry.target (e : VmMapEntry) : Option Target :=
  e.object.map fun i => if e.isAMap || e.isSubMap then .map i else .object i

/-- A sharing map or a submap. -/
structure SubMap where
  id : ℕ
  refCount : ℕ
  map : VmMap

/-- The objects, those of them that are cached, and the maps that entries point to. -/
structure Kernel (α : Type*) where
  store : ObjectStore α
  canPersist : ObjId → Bool
  cachedList : List ObjId
  cachedMax : ℕ
  maps : List SubMap

open Kernel

namespace Kernel
variable {α : Type*} (k : Kernel α)

def vmMapReference (j : ℕ) : Kernel α :=
  { k with maps := update SubMap.id j (fun s => { s with refCount := s.refCount + 1 }) k.maps }

/-- The reference that a new entry takes. -/
def reference : Option Target → Kernel α
  | none => k
  | some (.object o) => { k with store := k.store.vmObjectReference (some o) }
  | some (.map j) => k.vmMapReference j

/-- The object that `o` shadows is detached from it, if `o` is its copy. -/
def detachCopy (st : ObjectStore α) (o : ObjId) : Option ObjId → ObjectStore α
  | none => st
  | some i => st.modify i fun sh => { sh with copy := if sh.copy = some o then none else sh.copy }

/-- `vm_object_terminate`, as far as other objects see it. -/
def vmObjectTerminate (o : ObjId) (ob : VmObject α) : Kernel α :=
  { k with store := (detachCopy k.store o ob.shadow).free o }

/-- The loop of `vm_object_deallocate`, with a bound on its turns. A wait for a pager to be
initialized puts the reference back and starts over, so it does not show. -/
def deallocateLoop : ℕ → Kernel α → Option ObjId → Kernel α
  | turns + 1, k, some o =>
    match k.store.objs o with
    | none => k
    | some ob =>
      let ob := { ob with refCount := ob.refCount - 1 }
      let k := { k with store := k.store.set o ob }
      if 0 < ob.refCount then k
      else if k.canPersist o then
        -- the object goes to the cache, which may push the first one out
        match k.cachedList ++ [o] with
        | [] => k
        | first :: rest =>
          if rest.length < k.cachedMax then { k with cachedList := first :: rest }
          else match k.store.objs first with
            | none => k
            | some fb =>
              let k := { k with cachedList := rest }
              deallocateLoop turns (k.vmObjectTerminate first fb) fb.shadow
      else deallocateLoop turns (k.vmObjectTerminate o ob) ob.shadow
  | _, k, _ => k

def vmObjectDeallocate (o : Option ObjId) : Kernel α := deallocateLoop k.store.next k o

/-- The count that an object or a map carries; none carries no references. -/
def refCount : Target → ℕ
  | .object o => ((k.store.objs o).map VmObject.refCount).getD 0
  | .map j => ((k.maps.find? fun s => s.id = j).map SubMap.refCount).getD 0

end Kernel

/-- The entries of a list that point to a target. -/
def refsTo (t : Target) (l : List VmMapEntry) : ℕ := l.countP fun e => e.target = some t

theorem refsTo_pos {e : VmMapEntry} {l : List VmMapEntry} {t : Target} (he : e ∈ l)
    (ht : e.target = some t) : 0 < refsTo t l :=
  countP_pos_iff.mpr ⟨e, he, by simpa using ht⟩

theorem two_le_refsTo {e a : VmMapEntry} {l : List VmMapEntry} {t : Target} (he : e ∈ l)
    (ht : e.target = some t) (ha : a ∈ l) (hne : a ≠ e) (hta : a.target = some t) :
    2 ≤ refsTo t l := by
  have hrest := refsTo_pos ((mem_erase_of_ne hne).mpr ha) hta
  have hperm : refsTo t l = refsTo t (e :: l.erase e) := (perm_cons_erase he).countP_eq _
  have hcons : refsTo t (e :: l.erase e) = refsTo t (l.erase e) + 1 :=
    countP_cons_of_pos (by simpa using ht)
  omega

/-- References held somewhere, and one more. -/
def Held (out : Target → ℕ) (x : Option Target) (t : Target) : ℕ :=
  out t + if x = some t then 1 else 0

namespace Kernel
variable {α : Type*} (k : Kernel α)

/-- The references that shadow links and the entries of sharing maps and submaps hold. -/
def links (t : Target) : ℕ :=
  (match t with
    | .object o => refs k.store.next k.store.shadowOf o
    | .map _ => 0) + refsTo t (k.maps.flatMap fun s => s.map.entries)

/-- Every count is the number of references, of which `out` are held outside; what does not exist
has none. -/
structure Counted (out : Target → ℕ) : Prop where
  count : ∀ t, k.refCount t = k.links t + out t
  below : ∀ o ob, k.store.objs o = some ob → o < k.store.next
  cached : ∀ o ∈ k.cachedList, ∃ ob, k.store.objs o = some ob ∧ ob.refCount = 0
  distinct : Distinct SubMap.id k.maps
  cachedOnce : k.cachedList.Nodup

/-- The objects that exist. -/
def live : Finset ObjId := (Finset.range k.store.next).filter fun o => (k.store.objs o).isSome

variable {k} {out : Target → ℕ} {o : ObjId} {ob : VmObject α}

@[simp] theorem refsTo_nil (t : Target) : refsTo t [] = 0 := rfl

theorem refsTo_append (t : Target) (l l' : List VmMapEntry) :
    refsTo t (l ++ l') = refsTo t l + refsTo t l' := countP_append

theorem refsTo_cons (t : Target) (e : VmMapEntry) (l : List VmMapEntry) :
    refsTo t (e :: l) = refsTo t l + if e.target = some t then 1 else 0 := by
  simp only [refsTo, countP_cons, decide_eq_true_eq]

theorem refCount_pos {t : Target} (h : k.Counted out) (ht : 0 < out t) : 0 < k.refCount t := by
  have := h.count t
  omega

theorem refCount_object (o : ObjId) :
    k.refCount (.object o) = ((k.store.objs o).map VmObject.refCount).getD 0 := rfl

theorem refCount_map (j : ℕ) :
    k.refCount (.map j) = ((k.maps.find? fun s => s.id = j).map SubMap.refCount).getD 0 := rfl

theorem links_object (o : ObjId) : k.links (.object o) = refs k.store.next k.store.shadowOf o +
    refsTo (.object o) (k.maps.flatMap fun s => s.map.entries) := rfl

theorem links_map (j : ℕ) :
    k.links (.map j) = refsTo (.map j) (k.maps.flatMap fun s => s.map.entries) := Nat.zero_add _

theorem Counted.refCount_pos {t : Target} (h : k.Counted out) (ht : 0 < out t) :
    0 < k.refCount t := by
  have := h.count t
  omega

theorem objs_of_refCount {o : ObjId} (h : 0 < k.refCount (.object o)) :
    ∃ ob, k.store.objs o = some ob ∧ k.refCount (.object o) = ob.refCount := by
  rw [refCount_object] at h ⊢
  cases hob : k.store.objs o with
  | none => simp [hob] at h
  | some ob => exact ⟨ob, rfl, rfl⟩

theorem maps_of_refCount {j : ℕ} (h : 0 < k.refCount (.map j)) :
    ∃ s, k.maps.find? (fun s => s.id = j) = some s ∧ k.refCount (.map j) = s.refCount := by
  rw [refCount_map] at h ⊢
  cases hs : k.maps.find? fun s => s.id = j with
  | none => simp [hs] at h
  | some s => exact ⟨s, rfl, rfl⟩

@[simp] theorem held_none (out : Target → ℕ) : Held out none = out := by
  funext t
  simp [Held]

theorem Counted.referenceObject (h : k.Counted out) {o : ObjId} (ho : 0 < k.refCount (.object o)) :
    (k.reference (some (.object o))).Counted (Held out (some (.object o))) := by
  obtain ⟨ob, hob, hcount⟩ := objs_of_refCount ho
  refine ⟨fun t => ?_, fun i b hb => ?_, fun i hi => ?_, h.distinct, h.cachedOnce⟩
  · have hc := h.count t
    rcases t with i | i
    · simp only [reference, refCount_object, links_object, Held,
        ObjectStore.objs_vmObjectReference, ObjectStore.next_vmObjectReference,
        ObjectStore.shadowOf_vmObjectReference] at hc ⊢
      rcases eq_or_ne o i with rfl | hne
      · simp only [hob, map_some, getD_some, if_true] at hc ⊢
        omega
      · simp only [Option.some.injEq, Target.object.injEq, hne, if_false, Nat.add_zero,
          Option.map_id']
        exact hc
    · simpa [reference, Held, refCount, links] using hc
  · simp only [reference, ObjectStore.objs_vmObjectReference,
      ObjectStore.next_vmObjectReference] at hb ⊢
    obtain ⟨b', hb', -⟩ := map_eq_some_iff.mp hb
    exact h.below i b' hb'
  · obtain ⟨b, hb, hz⟩ := h.cached i hi
    -- a cached object has no references, so this is another one
    have hne : o ≠ i := by
      rintro rfl
      rw [hob] at hb
      cases hb
      omega
    refine ⟨b, ?_, hz⟩
    simp only [reference, ObjectStore.objs_vmObjectReference, Option.some.injEq, hne,
      if_false, Nat.add_zero, Option.map_id']
    exact hb

theorem entries_update {j : ℕ} {f : SubMap → SubMap} (hf : ∀ s, (f s).map = s.map)
    (l : List SubMap) : ((update SubMap.id j f l).flatMap fun s => s.map.entries) =
      l.flatMap fun s => s.map.entries := by
  have h : (update SubMap.id j f l).map (fun s => s.map.entries) =
      l.map fun s => s.map.entries := map_update (fun s => by rw [hf s]) j l
  rw [flatMap_def, flatMap_def, h]

theorem Counted.referenceMap (h : k.Counted out) {j : ℕ} (hj : 0 < k.refCount (.map j)) :
    (k.reference (some (.map j))).Counted (Held out (some (.map j))) := by
  obtain ⟨s, hs, -⟩ := maps_of_refCount hj
  have hids : (k.vmMapReference j).maps.map SubMap.id = k.maps.map SubMap.id := by
    rw [vmMapReference]
    exact map_update (f := fun s => { s with refCount := s.refCount + 1 }) (g := SubMap.id)
      (fun _ => rfl) j k.maps
  have hentries : ((k.vmMapReference j).maps.flatMap fun s => s.map.entries) =
      k.maps.flatMap fun s => s.map.entries := by
    rw [vmMapReference]
    exact entries_update (f := fun s => { s with refCount := s.refCount + 1 }) (fun _ => rfl) k.maps
  refine ⟨fun t => ?_, h.below, h.cached, ?_, h.cachedOnce⟩
  · have hc := h.count t
    rcases t with i | i
    · simp only [reference, links_object, refCount_object, Held, hentries, reduceCtorEq,
        Option.some.injEq, if_false] at hc ⊢
      exact hc
    · have hfind := @find_update _ SubMap.id (fun s => { s with refCount := s.refCount + 1 })
        (fun _ => rfl) j i k.maps
      simp only [reference, links_map, refCount_map, Held, hentries] at hc ⊢
      simp only [vmMapReference, hfind, Option.some.injEq, Target.map.injEq]
      rcases eq_or_ne j i with rfl | hne
      · simp only [hs, map_some, getD_some, if_true] at hc ⊢
        omega
      · simp only [hne, hne.symm, if_false, Nat.add_zero, Option.map_id']
        exact hc
  · unfold Distinct
    rw [reference, hids]
    exact h.distinct

theorem Counted.reference (h : k.Counted out) {x : Option Target}
    (hx : ∀ t, x = some t → 0 < k.refCount t) : (k.reference x).Counted (Held out x) := by
  rcases x with _ | o | j
  · simpa [Kernel.reference] using h
  · exact h.referenceObject (hx _ rfl)
  · exact h.referenceMap (hx _ rfl)

/-! ## Losing a reference -/

theorem Counted.set (h : k.Counted (Held out (some (.object o)))) (hob : k.store.objs o = some ob) :
    0 < ob.refCount ∧ { k with
      store := k.store.set o { ob with refCount := ob.refCount - 1 } }.Counted out := by
  have hpos : 0 < ob.refCount := by
    have hc := h.count (.object o)
    simp only [refCount_object, hob, map_some, getD_some, Held, if_true] at hc
    omega
  have hshadow : (k.store.set o { ob with refCount := ob.refCount - 1 }).shadowOf =
      k.store.shadowOf := by
    rw [ObjectStore.shadowOf_set, ← ObjectStore.shadowOf_eq k.store hob, Function.update_eq_self]
  refine ⟨hpos, fun t => ?_, fun i b hb => ?_, fun i hi => ?_, h.distinct, h.cachedOnce⟩
  · have hc := h.count t
    rcases t with i | i
    · simp only [refCount_object, links_object, Held, ObjectStore.next_set, hshadow] at hc ⊢
      rcases eq_or_ne o i with rfl | hne
      · simp only [hob, ObjectStore.objs_set_self, map_some, getD_some, if_true] at hc ⊢
        omega
      · simp only [ObjectStore.objs_set_of_ne _ hne.symm, Option.some.injEq, Target.object.injEq,
          hne, if_false] at hc ⊢
        exact hc
    · simpa [Held, refCount, links] using hc
  · rcases eq_or_ne i o with rfl | hne
    · exact h.below i ob hob
    · rw [ObjectStore.objs_set_of_ne _ hne] at hb
      exact h.below i b hb
  · obtain ⟨b, hb, hz⟩ := h.cached i hi
    have hne : i ≠ o := by
      rintro rfl
      rw [hob] at hb
      cases hb
      omega
    exact ⟨b, by rw [ObjectStore.objs_set_of_ne _ hne, hb], hz⟩

theorem detachCopy_same (st : ObjectStore α) (o : ObjId) (x : Option ObjId) :
    (detachCopy st o x).next = st.next ∧ (detachCopy st o x).shadowOf = st.shadowOf ∧
      ∀ i, ((detachCopy st o x).objs i).map VmObject.refCount =
        (st.objs i).map VmObject.refCount := by
  cases x with
  | none => exact ⟨rfl, rfl, fun _ => rfl⟩
  | some j =>
    refine ⟨rfl, ObjectStore.shadowOf_modify _ _ fun _ => by rfl, fun i => ?_⟩
    rw [detachCopy, ObjectStore.objs_modify]
    split_ifs
    · cases st.objs i <;> rfl
    · rfl

theorem Counted.terminate (h : k.Counted out) (hob : k.store.objs o = some ob)
    (hzero : ob.refCount = 0) (hcache : o ∉ k.cachedList) :
    (k.vmObjectTerminate o ob).Counted (Held out (ob.shadow.map .object)) := by
  have hlt := h.below o ob hob
  have hz : k.links (.object o) = 0 ∧ out (.object o) = 0 := by
    have hc := h.count (.object o)
    simp only [refCount_object, hob, map_some, getD_some, hzero] at hc
    omega
  obtain ⟨hnext, hshadow, hcounts⟩ := detachCopy_same k.store o ob.shadow
  unfold vmObjectTerminate
  generalize detachCopy k.store o ob.shadow = st at hnext hshadow hcounts ⊢
  refine ⟨fun t => ?_, fun i b hb => ?_, fun i hi => ?_, h.distinct, h.cachedOnce⟩
  · have hc := h.count t
    rcases t with i | i
    · have hrefs := refs_update hlt (f := k.store.shadowOf) none i
      have hsh : k.store.shadowOf o = some i ↔ ob.shadow.map Target.object = some (.object i) := by
        rw [ObjectStore.shadowOf_eq k.store hob]
        cases ob.shadow <;> simp
      simp only [reduceCtorEq, if_false, Nat.add_zero, hsh] at hrefs
      simp only [refCount_object, links_object, Held, ObjectStore.next_free, hnext,
        ObjectStore.shadowOf_free, hshadow] at hc hz ⊢
      rcases eq_or_ne i o with rfl | hne
      · simp only [ObjectStore.objs_free_self, map_none, getD_none]
        omega
      · rw [ObjectStore.objs_free_of_ne _ hne, hcounts]
        omega
    · simp only [refCount_map, links_map, Held] at hc ⊢
      cases hs : ob.shadow <;> simpa [hs] using hc
  · rcases eq_or_ne i o with rfl | hne
    · simp at hb
    · rw [ObjectStore.objs_free_of_ne _ hne] at hb
      have hi := hcounts i
      rw [hb] at hi
      obtain ⟨b', hb', -⟩ := map_eq_some_iff.mp hi.symm
      rw [ObjectStore.next_free, hnext]
      exact h.below i b' hb'
  · have hne : i ≠ o := by
      rintro rfl
      exact hcache hi
    obtain ⟨b, hb, hbz⟩ := h.cached i hi
    have hi := hcounts i
    rw [hb] at hi
    obtain ⟨b', hb', heq⟩ := map_eq_some_iff.mp hi
    exact ⟨b', by rw [ObjectStore.objs_free_of_ne _ hne, hb'], heq.trans hbz⟩

theorem mem_live : o ∈ k.live ↔ o < k.store.next ∧ (k.store.objs o).isSome := by
  simp [live]

theorem Counted.live_terminate (h : k.Counted out) (hob : k.store.objs o = some ob)
    (b : VmObject α) : (k.vmObjectTerminate o b).live.card < k.live.card := by
  obtain ⟨hnext, -, hcounts⟩ := detachCopy_same k.store o b.shadow
  have hmem : o ∈ k.live := mem_live.mpr ⟨h.below o ob hob, by rw [hob]; rfl⟩
  have hsub : (k.vmObjectTerminate o b).live ⊆ k.live.erase o := by
    intro i hi
    unfold vmObjectTerminate at hi
    obtain ⟨hlt, hsome⟩ := mem_live.mp hi
    rcases eq_or_ne i o with rfl | hne
    · simp at hsome
    · simp only [ObjectStore.next_free, hnext, ObjectStore.objs_free_of_ne _ hne] at hlt hsome
      have hi := congrArg Option.isSome (hcounts i)
      simp only [isSome_map] at hi
      exact Finset.mem_erase.mpr ⟨hne, mem_live.mpr ⟨hlt, by rw [← hi, hsome]⟩⟩
  calc (k.vmObjectTerminate o b).live.card ≤ (k.live.erase o).card := Finset.card_le_card hsub
    _ < k.live.card := Finset.card_erase_lt_of_mem hmem

theorem Counted.cache (h : k.Counted out) {l : List ObjId} (hn : l.Nodup)
    (hl : ∀ i ∈ l, ∃ b, k.store.objs i = some b ∧ b.refCount = 0) :
    { k with cachedList := l }.Counted out := ⟨h.count, h.below, hl, h.distinct, hn⟩

theorem deallocateLoop_counted (turns : ℕ) : ∀ {k : Kernel α} {x : Option ObjId},
    k.live.card ≤ turns → k.Counted (Held out (x.map .object)) →
    (deallocateLoop turns k x).Counted out ∧ (deallocateLoop turns k x).maps = k.maps := by
  induction turns with
  | zero =>
    intro k x hturns h
    rcases x with _ | o
    · exact ⟨by simpa [deallocateLoop] using h, rfl⟩
    · -- the object is live
      obtain ⟨ob, hob, -⟩ := objs_of_refCount (h.refCount_pos (t := .object o) (by simp [Held]))
      have hmem : o ∈ k.live := mem_live.mpr ⟨h.below o ob hob, by rw [hob]; rfl⟩
      have := Finset.card_pos.mpr ⟨o, hmem⟩
      omega
  | succ turns ih =>
    intro k x hturns h
    rcases x with _ | o
    · exact ⟨by simpa [deallocateLoop] using h, rfl⟩
    obtain ⟨ob, hob, -⟩ := objs_of_refCount (h.refCount_pos (t := .object o) (by simp [Held]))
    obtain ⟨hpos, h₁⟩ := h.set hob
    have hlive : ({ k with store := k.store.set o { ob with refCount := ob.refCount - 1 } }
        : Kernel α).live.card = k.live.card := by
      congr 1
      ext i
      rw [mem_live, mem_live]
      rcases eq_or_ne i o with rfl | hne
      · simp [hob]
      · simp [ObjectStore.objs_set_of_ne _ hne]
    have hcache : o ∉ k.cachedList := fun hc => by
      obtain ⟨b, hb, hz⟩ := h.cached o hc
      rw [hob] at hb
      cases hb
      omega
    rw [deallocateLoop]
    simp only [hob]
    split_ifs with hmore hpersist
    · exact ⟨h₁, rfl⟩
    · have hzero : ob.refCount - 1 = 0 := by omega
      have hnodup : (k.cachedList ++ [o]).Nodup := by
        rw [nodup_append]
        refine ⟨h.cachedOnce, nodup_singleton o, fun a ha b hb => ?_⟩
        rintro rfl
        exact hcache (mem_singleton.mp hb ▸ ha)
      have hzeros : ∀ i ∈ k.cachedList ++ [o], ∃ b, (k.store.set o
          { ob with refCount := ob.refCount - 1 }).objs i = some b ∧ b.refCount = 0 := by
        intro i hi
        rcases mem_append.mp hi with hi | hi
        · exact h₁.cached i hi
        · rw [mem_singleton.mp hi]
          exact ⟨_, ObjectStore.objs_set_self _ _ _, hzero⟩
      split
      · next heq => simp at heq
      · next first rest heq =>
        rw [heq] at hnodup hzeros
        split_ifs with hroom
        · exact ⟨h₁.cache hnodup hzeros, rfl⟩
        · obtain ⟨fb, hfb, hfz⟩ := hzeros first mem_cons_self
          simp only [hfb]
          have h₂ := h₁.cache (nodup_cons.mp hnodup).2 fun i hi =>
            hzeros i (mem_cons_of_mem _ hi)
          have h₃ := h₂.terminate hfb hfz (nodup_cons.mp hnodup).1
          have hless := h₂.live_terminate hfb fb
          exact ih (by simp only [live] at hless hlive hturns ⊢; omega) h₃
    · have h₂ := h₁.terminate (ObjectStore.objs_set_self _ _ _) (Nat.eq_zero_of_not_pos hmore)
        hcache
      have hless := h₁.live_terminate (ObjectStore.objs_set_self _ _ _)
        { ob with refCount := ob.refCount - 1 }
      exact ih (by omega) h₂

theorem Counted.vmObjectDeallocate {x : Option ObjId} (h : k.Counted (Held out (x.map .object))) :
    (k.vmObjectDeallocate x).Counted out ∧ (k.vmObjectDeallocate x).maps = k.maps := by
  refine deallocateLoop_counted k.store.next ?_ h
  calc k.live.card ≤ (Finset.range k.store.next).card := Finset.card_filter_le _ _
    _ = k.store.next := Finset.card_range _

end Kernel

end MachKernel.Vm
