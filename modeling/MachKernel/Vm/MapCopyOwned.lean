import MachKernel.Vm.MapCopy
import MachKernel.Vm.External

/-! Who owns a map copy object: what the routines that take one leave of it, and of the references
and pages that it holds. -/

namespace MachKernel.Vm
open Function List Option
open Word32 Linked Links

/-! ## Counts that stay right -/

theorem refsTo_congr {l l' : List VmMapEntry}
    (h : l'.map VmMapEntry.target = l.map VmMapEntry.target) (t : Target) :
    refsTo t l' = refsTo t l := by
  have hcount : ∀ l : List VmMapEntry, refsTo t l =
      (l.map VmMapEntry.target).countP fun x => x = some t := by
    intro l
    rw [countP_map]
    rfl
  rw [hcount, hcount, h]

namespace Kernel
variable {α : Type*} {k : Kernel α} {out out' : Target → ℕ}

theorem Counted.congr (h : k.Counted out) {store : ObjectStore α} (hnext : store.next = k.store.next)
    (hshadow : store.shadowOf = k.store.shadowOf)
    (hcounts : ∀ i, (store.objs i).map VmObject.refCount = (k.store.objs i).map VmObject.refCount) :
    { k with store := store }.Counted out := by
  refine ⟨fun t => ?_, fun i b hb => ?_, fun i hi => ?_, h.distinct, h.cachedOnce⟩
  · have hc := h.count t
    rcases t with i | i
    · simp only [refCount_object, links_object, hnext, hshadow, hcounts] at hc ⊢
      exact hc
    · exact hc
  · have hsome := hcounts i
    rw [hb] at hsome
    obtain ⟨b', hb', -⟩ := map_eq_some_iff.mp hsome.symm
    exact hnext ▸ h.below i b' hb'
  · obtain ⟨b, hb, hz⟩ := h.cached i hi
    have hsome := hcounts i
    rw [hb] at hsome
    obtain ⟨b', hb', hcount⟩ := map_eq_some_iff.mp hsome
    exact ⟨b', hb', hcount.trans hz⟩

theorem Counted.allocate (h : k.Counted out) (size : ℕ) :
    { k with store := (k.store.vmObjectAllocate size).2 }.Counted
      (Held out (some (.object (k.store.vmObjectAllocate size).1))) := by
  have hnone : k.store.objs k.store.next = none := by
    cases hob : k.store.objs k.store.next with
    | none => rfl
    | some ob => exact absurd (h.below _ _ hob) (lt_irrefl _)
  have hshadow : (k.store.vmObjectAllocate size).2.shadowOf =
      update k.store.shadowOf k.store.next none := by
    funext i
    rcases eq_or_ne i k.store.next with rfl | hne
    · simp [ObjectStore.shadowOf, ObjectStore.vmObjectAllocate, ObjectStore.template]
    · simp [ObjectStore.shadowOf, ObjectStore.vmObjectAllocate, update_of_ne hne]
  have hobjs : ∀ i, i ≠ k.store.next →
      (k.store.vmObjectAllocate size).2.objs i = k.store.objs i := fun i hne =>
    update_of_ne hne _ _
  have hself : (k.store.vmObjectAllocate size).2.objs k.store.next =
      some { ObjectStore.template with size := size } := update_self _ _ _
  refine ⟨fun t => ?_, fun i b hb => ?_, fun i hi => ?_, h.distinct, h.cachedOnce⟩
  · have hc := h.count t
    rcases t with i | i
    · have hrefs := refs_succ k.store.next k.store.shadowOf none i
      simp only [reduceCtorEq, if_false, Nat.add_zero] at hrefs
      simp only [refCount_object, links_object, Held, hshadow] at hc ⊢
      change _ = refs (k.store.next + 1) _ i + _ + _
      rw [hrefs]
      rcases eq_or_ne i k.store.next with rfl | hne
      · rw [hself]
        rw [hnone] at hc
        simp only [map_some, map_none, getD_some, getD_none,
          ObjectStore.template, ObjectStore.vmObjectAllocate, if_true] at hc ⊢
        omega
      · rw [hobjs i hne]
        simp only [ObjectStore.vmObjectAllocate, Option.some.injEq, Target.object.injEq, hne.symm,
          if_false, Nat.add_zero]
        exact hc
    · simpa [Held, Kernel.refCount, Kernel.links] using hc
  · rcases eq_or_ne i k.store.next with rfl | hne
    · exact Nat.lt_succ_self _
    · exact (h.below i b ((hobjs i hne).symm.trans hb)).trans (Nat.lt_succ_self _)
  · obtain ⟨b, hb, hz⟩ := h.cached i hi
    exact ⟨b, (hobjs i (h.below i b hb).ne).trans hb, hz⟩

theorem mapAt_setMap (j : ℕ) (m : VmMap) : (k.setMap j m).mapAt j = (k.mapAt j).map fun _ => m := by
  have hfind := @find_update _ SubMap.id (fun sm => { sm with map := m }) (fun _ => rfl) j j k.maps
  unfold mapAt setMap
  dsimp only
  rw [hfind]
  cases k.maps.find? fun sm => sm.id = j with
  | none => rfl
  | some sm => simp

theorem Counted.setMap (h : k.Counted out) {j : ℕ} {m m' : VmMap} (hm : k.mapAt j = some m)
    (hrefs : ∀ t, refsTo t m'.entries + out' t = refsTo t m.entries + out t) :
    (k.setMap j m').Counted out' := by
  obtain ⟨sm, hsm, rfl⟩ := map_eq_some_iff.mp hm
  have hid : sm.id = j := by simpa using find?_some hsm
  obtain ⟨pre, post, hsplit⟩ := append_of_mem (mem_of_find?_eq_some hsm)
  have hd := h.distinct
  rw [hsplit] at hd
  have hmaps : (k.setMap j m').maps = pre ++ { sm with map := m' } :: post := by
    unfold Kernel.setMap
    rw [← hid]
    dsimp only
    rw [hsplit]
    exact update_split hd _
  have hlinks : ∀ t, refsTo t ((k.setMap j m').maps.flatMap fun s => s.map.entries) +
      refsTo t sm.map.entries =
      refsTo t (k.maps.flatMap fun s => s.map.entries) + refsTo t m'.entries := by
    intro t
    rw [hmaps, hsplit]
    simp only [flatMap_append, flatMap_cons, refsTo_append]
    omega
  refine ⟨fun t => ?_, h.below, h.cached, ?_, h.cachedOnce⟩
  · have hc := h.count t
    have hl := hlinks t
    have hr := hrefs t
    rcases t with i | i
    · simp only [refCount_object, links_object] at hc ⊢
      change _ = refs k.store.next k.store.shadowOf i + _ + _
      change (Option.map VmObject.refCount (k.store.objs i)).getD 0 = _
      omega
    · have hcount : ((k.setMap j m').maps.find? fun s => s.id = i).map SubMap.refCount =
          (k.maps.find? fun s => s.id = i).map SubMap.refCount := by
        have hfind := @find_update _ SubMap.id (fun sm => { sm with map := m' }) (fun _ => rfl) j i
          k.maps
        unfold Kernel.setMap
        dsimp only
        rw [hfind, Option.map_map]
        congr 1
        funext s
        simp only [comp_apply]
        split <;> rfl
      simp only [refCount_map, links_map, hcount] at hc ⊢
      omega
  · have hids : (k.setMap j m').maps.map SubMap.id = k.maps.map SubMap.id :=
      @map_update _ SubMap.id _ (fun sm => { sm with map := m' }) SubMap.id (fun _ => rfl) j k.maps
    unfold Distinct
    rw [hids]
    exact h.distinct

end Kernel

namespace Kernel
variable {α : Type*} {k : Kernel α} {out : Target → ℕ}

variable {backing object : VmObject α} {o b : ObjId}

theorem Counted.linked (h : k.Counted out) (hb : k.store.shadowOf o = some b)
    (hbacking : k.store.objs b = some backing) : 0 < backing.refCount := by
  have hc := h.count (.object b)
  obtain ⟨ob, hob, -⟩ := bind_eq_some_iff.mp hb
  have hpos := refs_pos (h.below o ob hob) hb
  simp only [refCount_object, links_object, hbacking, map_some, getD_some] at hc
  omega

theorem Counted.not_cached (h : k.Counted out)
    (hbacking : k.store.objs b = some backing) (hpos : 0 < backing.refCount) : b ∉ k.cachedList := by
  intro hb
  obtain ⟨ob, hob, hz⟩ := h.cached b hb
  rw [hbacking] at hob
  cases hob
  omega

theorem Counted.absorb (h : k.Counted out)
    (hobject : k.store.objs o = some object) (hshadow : object.shadow = some b)
    (hbacking : k.store.objs b = some backing) (hone : backing.refCount = 1)
    (memq : List (VmPage α)) :
    { k with store := (k.store.handOver o { object with memq := memq } backing).free b }.Counted
      out := by
  have hlink : k.store.shadowOf o = some b := by rw [k.store.shadowOf_eq hobject, hshadow]
  have hblink : k.store.shadowOf b = backing.shadow := k.store.shadowOf_eq hbacking
  have ho := h.below o object hobject
  have hb := h.below b backing hbacking
  have hnext : ((k.store.handOver o { object with memq := memq } backing).free b).next =
      k.store.next := by
    simp [ObjectStore.handOver, ObjectStore.free]
  have hobjs : ∀ i, ((k.store.handOver o { object with memq := memq } backing).free b).objs i =
      if i = b then none else if i = o then
        some (({ object with memq := memq } : VmObject α).takeOver backing) else k.store.objs i := by
    intro i
    rcases eq_or_ne i b with rfl | hne
    · rw [ObjectStore.objs_free_self, if_pos rfl]
    · rw [ObjectStore.objs_free_of_ne _ hne, if_neg hne, objs_handOver]
  -- the link of the object to `b` becomes the link that `b` had
  have hrefs : ∀ i, refs k.store.next
      ((k.store.handOver o { object with memq := memq } backing).free b).shadowOf i +
      (if i = b then 1 else 0) = refs k.store.next k.store.shadowOf i := by
    intro i
    have hupd := refs_update ho (f := k.store.shadowOf) backing.shadow i
    have hupd' := refs_update hb (f := update k.store.shadowOf o backing.shadow) none i
    have hsame : update k.store.shadowOf o backing.shadow b = backing.shadow := by
      rcases eq_or_ne b o with rfl | hne
      · rw [update_self]
      · rw [update_of_ne hne, hblink]
    rw [hsame] at hupd'
    rw [hlink] at hupd
    rw [shadowOf_handOver_free]
    simp only [reduceCtorEq, if_false, Nat.add_zero, Option.some.injEq, eq_comm (a := b)]
      at hupd hupd'
    omega
  refine ⟨fun t => ?_, fun i ob hi => ?_, fun i hi => ?_, h.distinct, h.cachedOnce⟩
  · have hc := h.count t
    rcases t with i | i
    · have hr := hrefs i
      simp only [refCount_object, links_object, hobjs, hnext] at hc ⊢
      rcases eq_or_ne i b with rfl | hne
      · rw [hbacking] at hc
        simp only [map_some, getD_some, hone, if_true, map_none, getD_none] at hc hr ⊢
        omega
      · rw [if_neg hne] at hr ⊢
        rcases eq_or_ne i o with rfl | hne'
        · rw [hobject] at hc
          rw [if_pos rfl]
          simp only [map_some, getD_some] at hc ⊢
          change object.refCount = _
          omega
        · rw [if_neg hne']
          omega
    · exact hc
  · rw [hobjs] at hi
    dsimp only
    rw [hnext]
    split_ifs at hi with hib hio
    · exact hio ▸ ho
    · exact h.below i ob hi
  · have hib : i ≠ b := by
      rintro rfl
      exact h.not_cached hbacking (by omega) hi
    obtain ⟨ob, hob, hz⟩ := h.cached i hi
    dsimp only
    rw [hobjs, if_neg hib]
    rcases eq_or_ne i o with rfl | hne
    · rw [hobject] at hob
      cases hob
      exact ⟨_, if_pos rfl, hz⟩
    · exact ⟨ob, by rw [if_neg hne, hob], hz⟩

theorem Counted.bypass (h : k.Counted out)
    (hobject : k.store.objs o = some object) (hshadow : object.shadow = some b)
    (hbacking : k.store.objs b = some backing) :
    { k with store := k.store.bypass o b object backing }.Counted out := by
  have hlink : k.store.shadowOf o = some b := by rw [k.store.shadowOf_eq hobject, hshadow]
  have hblink : k.store.shadowOf b = backing.shadow := k.store.shadowOf_eq hbacking
  have ho := h.below o object hobject
  have hpos := h.linked hlink hbacking
  have hcount : ∀ i, ((k.store.bypass o b object backing).objs i).map VmObject.refCount =
      (k.store.objs i).map fun ob => ob.refCount + (if backing.shadow = some i then 1 else 0) -
        (if i = b then 1 else 0) := by
    intro i
    rw [objs_bypass, Option.map_map]
    rcases eq_or_ne i o with rfl | hne
    · rw [ObjectStore.objs_set_self, hobject]
      rfl
    · rw [ObjectStore.objs_set_of_ne _ hne]
      rfl
  have hrefs : ∀ i, refs k.store.next (k.store.bypass o b object backing).shadowOf i +
      (if i = b then 1 else 0) = refs k.store.next k.store.shadowOf i +
      (if backing.shadow = some i then 1 else 0) := by
    intro i
    have hupd := refs_update ho (f := k.store.shadowOf) backing.shadow i
    rw [hlink] at hupd
    rw [shadowOf_bypass]
    simp only [Option.some.injEq, eq_comm (a := b)] at hupd
    omega
  have hnext : (k.store.bypass o b object backing).next = k.store.next :=
    ObjectStore.next_vmObjectReference _ _
  refine ⟨fun t => ?_, fun i ob hi => ?_, fun i hi => ?_, h.distinct, h.cachedOnce⟩
  · have hc := h.count t
    rcases t with i | i
    · have hr := hrefs i
      simp only [refCount_object, links_object, hcount, hnext] at hc ⊢
      cases hob : k.store.objs i with
      | none =>
        -- nothing links to an object that is not there
        rw [hob] at hc
        have hb : i ≠ b := by
          rintro rfl
          rw [hbacking] at hob
          cases hob
        have hs : backing.shadow ≠ some i := by
          intro hs
          have := refs_pos (h.below b backing hbacking) (hblink.trans hs)
          simp only [map_none, getD_none] at hc
          omega
        rw [if_neg hb, if_neg hs] at hr
        simp only [map_none, getD_none] at hc ⊢
        omega
      | some ob =>
        rw [hob] at hc
        simp only [map_some, getD_some] at hc ⊢
        rcases eq_or_ne i b with rfl | hne
        · rw [hbacking] at hob
          cases hob
          simp only [if_true] at hr ⊢
          omega
        · rw [if_neg hne] at hr ⊢
          omega
    · exact hc
  · have hsome := hcount i
    rw [hi] at hsome
    obtain ⟨b', hb', -⟩ := map_eq_some_iff.mp hsome.symm
    exact hnext ▸ h.below i b' hb'
  · obtain ⟨ob, hob, hz⟩ := h.cached i hi
    have hib : i ≠ b := by
      rintro rfl
      exact h.not_cached hbacking hpos hi
    have hs : backing.shadow ≠ some i := fun hs => by
      have := h.linked (hblink.trans hs) hob
      omega
    have hsome := hcount i
    rw [hob, map_some, if_neg hib, if_neg hs] at hsome
    obtain ⟨b', hb', hcount'⟩ := map_eq_some_iff.mp hsome
    exact ⟨b', hb', hcount'.trans hz⟩

theorem Counted.collapse (h : k.Counted out) {g : CollapseGlobals} {lockTry : ℕ → Bool}
    {object : Option ObjId} {turns : ℕ} {store : ObjectStore α}
    (hc : k.store.vmObjectCollapse g lockTry object turns = .ok store) :
    { k with store := store }.Counted out := by
  unfold ObjectStore.vmObjectCollapse at hc
  by_cases hallowed : g.collapseAllowed = true
  · rw [if_neg (not_not.mpr hallowed)] at hc
    cases object with
    | none =>
      cases hc
      exact h
    | some o =>
      dsimp only at hc
      induction turns generalizing k lockTry with
      | zero => cases hc
      | succ turns ih =>
        unfold ObjectStore.collapseLoop at hc
        split at hc
        · cases hc
          exact h
        · next st' hpass =>
          obtain ⟨object, b, backing, hobject, -, -, hshadow, hbacking, -, hcase⟩ :=
            collapsePass_cases hpass
          refine ih (k := { k with store := st' }) ?_ hc
          rcases hcase with ⟨hone, memq, rfl⟩ | ⟨-, rfl⟩
          · exact h.absorb hobject hshadow hbacking hone memq
          · exact h.bypass hobject hshadow hbacking
        · cases hc
  · rw [if_pos hallowed] at hc
    cases hc
    exact h

end Kernel

/-! ## Maps that account for their entries -/

/-- The entries have different names, and the hint for free space is one of them. -/
structure VmMap.Named (m : VmMap) : Prop where
  distinct : Distinct VmMapEntry.id m.entries
  nextId : ∀ e ∈ m.entries, e.id < m.nextId
  firstFree : ∀ i, m.firstFree = some i → i ∈ m.entries.map VmMapEntry.id

/-- Every count is that of the entries and of the references `out`. -/
structure MapState.Owned {α : Type*} (out : Target → ℕ) (s : MapState α) : Prop where
  named : s.map.Named
  counted : s.kernel.Counted fun t => out t + refsTo t s.map.entries
  share : ∀ sm ∈ s.kernel.maps, sm.map.Named

section
variable {m : VmMap} {e a b : VmMapEntry} {i : ℕ}

theorem VmMap.entryAt_mem (h : m.entryAt i = some e) : e ∈ m.entries ∧ e.id = i :=
  ⟨mem_of_find?_eq_some h, by simpa using find?_some h⟩

theorem VmMap.Named.congr (h : m.Named) {m' : VmMap}
    (hids : m'.entries.map VmMapEntry.id = m.entries.map VmMapEntry.id)
    (hnext : m'.nextId = m.nextId) (hfirst : m'.firstFree = m.firstFree) : m'.Named := by
  refine ⟨?_, fun e he => ?_, fun i hi => ?_⟩
  · unfold Distinct
    rw [hids]
    exact h.distinct
  · have hmem := mem_map_of_mem (f := VmMapEntry.id) he
    rw [hids] at hmem
    obtain ⟨a, ha, haid⟩ := mem_map.mp hmem
    rw [hnext, ← haid]
    exact h.nextId a ha
  · rw [hids]
    exact h.firstFree i (hfirst ▸ hi)

theorem VmMap.Named.split (h : m.Named) (he : m.entryAt i = some e)
    {f : VmMapEntry → List VmMapEntry} (hf : f e = [a, b])
    (hids : a.id = i ∧ b.id = m.nextId ∨ a.id = m.nextId ∧ b.id = i)
    (ha : a.target = e.target) (hb : b.target = e.target) :
    (m.split i f).Named ∧ ∀ t, refsTo t (m.split i f).entries =
      refsTo t m.entries + if e.target = some t then 1 else 0 := by
  obtain ⟨hmem, rfl⟩ := VmMap.entryAt_mem he
  obtain ⟨pre, post, hsplit⟩ := append_of_mem hmem
  have hd := h.distinct
  rw [hsplit] at hd
  have hentries : (m.split e.id f).entries = pre ++ [a, b] ++ post := by
    unfold VmMap.split
    dsimp only
    rw [hsplit, replace_split hd, hf]
  have hperm : ((pre ++ [a, b] ++ post).map VmMapEntry.id).Perm
      (m.nextId :: m.entries.map VmMapEntry.id) := by
    rw [hsplit]
    simp only [map_append, map_cons, append_assoc, cons_append, nil_append]
    rcases hids with ⟨ha, hb⟩ | ⟨ha, hb⟩
    · rw [ha, hb]
      have hmiddle := @perm_middle ℕ m.nextId (pre.map VmMapEntry.id ++ [e.id])
        (post.map VmMapEntry.id)
      rwa [append_assoc, append_assoc] at hmiddle
    · rw [ha, hb]
      exact perm_middle
  refine ⟨⟨?_, ?_, ?_⟩, fun t => ?_⟩
  · unfold Distinct
    rw [hentries]
    exact hperm.nodup_iff.mpr (nodup_cons.mpr ⟨fun hc => by
      obtain ⟨c, hc, hid⟩ := mem_map.mp hc
      exact absurd (h.nextId c hc) (by omega), h.distinct⟩)
  · intro c hc
    rw [hentries] at hc
    have hin := hperm.mem_iff.mp (mem_map_of_mem hc)
    have hlt : (m.split e.id f).nextId = m.nextId + 1 := rfl
    rw [hlt]
    rcases mem_cons.mp hin with heq | hin
    · omega
    · obtain ⟨d, hd, hid⟩ := mem_map.mp hin
      have := h.nextId d hd
      omega
  · intro j hj
    rw [hentries]
    exact hperm.mem_iff.mpr (mem_cons_of_mem _ (h.firstFree j hj))
  · rw [hentries, hsplit]
    simp only [Kernel.refsTo_append, Kernel.refsTo_cons, Kernel.refsTo_nil, ha, hb]
    omega

theorem refsTo_update {l : List VmMapEntry} (hd : Distinct VmMapEntry.id l) (he : e ∈ l)
    (f : VmMapEntry → VmMapEntry) (t : Target) :
    refsTo t (Linked.update VmMapEntry.id e.id f l) + (if e.target = some t then 1 else 0) =
      refsTo t l + if (f e).target = some t then 1 else 0 := by
  obtain ⟨pre, post, rfl⟩ := append_of_mem he
  rw [update_split hd]
  simp only [Kernel.refsTo_append, Kernel.refsTo_cons]
  omega

end

namespace MapState
variable {α : Type*} {s s' : MapState α} {out out' : Target → ℕ} {e : VmMapEntry} {i j : ℕ}

/-- What a clip does: an entry comes to be two, and the object or the map it points to is
referenced once more. -/
structure Clipping (s s' : MapState α) : Prop where
  named : s'.map.Named
  reference : ∃ x, s'.kernel = s.kernel.reference x ∧
    (∀ t, refsTo t s'.map.entries = refsTo t s.map.entries + if x = some t then 1 else 0) ∧
    ∀ t, x = some t → 0 < refsTo t s.map.entries

theorem Clipping.refl (h : s.map.Named) : Clipping s s :=
  ⟨h, none, rfl, fun t => by simp, fun t ht => by cases ht⟩

theorem clipping_clipStart (h : s.map.Named) (i start : ℕ) : Clipping s (s.clipStart i start) := by
  unfold MapState.clipStart
  cases he : s.map.entryAt i with
  | none => exact Clipping.refl h
  | some e =>
    dsimp only
    unfold VmMap.clipStart
    rw [he]
    dsimp only
    split_ifs
    · obtain ⟨hmem, hid⟩ := VmMap.entryAt_mem he
      obtain ⟨hnamed, hrefs⟩ := h.split
        (f := fun a => [a.low s.map.nextId start, a.high a.id start]) he rfl (.inr ⟨rfl, hid⟩) rfl rfl
      exact ⟨hnamed, e.target, rfl, hrefs, fun t ht => refsTo_pos hmem ht⟩
    · exact Clipping.refl h

theorem clipping_clipEnd (h : s.map.Named) (i stop : ℕ) : Clipping s (s.clipEnd i stop) := by
  unfold MapState.clipEnd
  cases he : s.map.entryAt i with
  | none => exact Clipping.refl h
  | some e =>
    dsimp only
    unfold VmMap.clipEnd
    rw [he]
    dsimp only
    split_ifs
    · obtain ⟨hmem, hid⟩ := VmMap.entryAt_mem he
      obtain ⟨hnamed, hrefs⟩ := h.split
        (f := fun a => [a.low a.id stop, a.high s.map.nextId stop]) he rfl (.inl ⟨hid, rfl⟩) rfl rfl
      exact ⟨hnamed, e.target, rfl, hrefs, fun t ht => refsTo_pos hmem ht⟩
    · exact Clipping.refl h

variable {k : Kernel α} {m : VmMap}

theorem share_reference (h : ∀ sm ∈ k.maps, sm.map.Named) (x : Option Target) :
    ∀ sm ∈ (k.reference x).maps, sm.map.Named := by
  rcases x with _ | o | j
  · exact h
  · exact h
  · intro sm hsm
    obtain ⟨a, ha, rfl⟩ := mem_map.mp hsm
    split_ifs
    · exact h a ha
    · exact h a ha

theorem mapAt_reference (x : Option Target) (j : ℕ) : (k.reference x).mapAt j = k.mapAt j := by
  rcases x with _ | o | i
  · rfl
  · rfl
  · have hfind := @find_update _ SubMap.id (fun s => { s with refCount := s.refCount + 1 })
      (fun _ => rfl) i j k.maps
    unfold Kernel.mapAt Kernel.reference Kernel.vmMapReference
    dsimp only
    rw [hfind, Option.map_map]
    congr 1
    funext sm
    simp only [comp_apply]
    split <;> rfl

theorem named_mapAt (h : ∀ sm ∈ k.maps, sm.map.Named) (hm : k.mapAt j = some m) : m.Named := by
  obtain ⟨sm, hsm, rfl⟩ := map_eq_some_iff.mp hm
  exact h sm (mem_of_find?_eq_some hsm)

theorem share_setMap (h : ∀ sm ∈ k.maps, sm.map.Named) (hm : m.Named) :
    ∀ sm ∈ (k.setMap j m).maps, sm.map.Named := by
  intro sm hsm
  obtain ⟨a, ha, rfl⟩ := mem_map.mp hsm
  split_ifs
  · exact hm
  · exact h a ha

theorem refCount_share (h : k.Counted out) (hm : k.mapAt j = some m)
    {t : Target} (ht : 0 < refsTo t m.entries) : 0 < k.refCount t := by
  obtain ⟨sm, hsm, rfl⟩ := map_eq_some_iff.mp hm
  have hrefs := k.entries_filter h.distinct hsm t
  have hc := h.count t
  unfold Kernel.links at hc
  omega

theorem Owned.congr (h : s.Owned out) (hm : m.Named)
    (hrefs : ∀ t, out' t + refsTo t m.entries = out t + refsTo t s.map.entries) :
    MapState.Owned out' ⟨s.kernel, m⟩ := by
  refine ⟨hm, ?_, h.share⟩
  have heq : (fun t => out' t + refsTo t m.entries) = fun t => out t + refsTo t s.map.entries :=
    funext hrefs
  exact heq ▸ h.counted

theorem Owned.clip (h : s.Owned out) (hc : Clipping s s') : s'.Owned out := by
  obtain ⟨hnamed, x, hkernel, hrefs, hpos⟩ := hc
  refine ⟨hnamed, ?_, hkernel ▸ share_reference h.share x⟩
  have hcounted := h.counted.reference fun t ht => h.counted.refCount_pos (by
    have := hpos t ht
    omega)
  rw [hkernel]
  have heq : (fun t => out t + refsTo t s'.map.entries) =
      Held (fun t => out t + refsTo t s.map.entries) x := by
    funext t
    rw [hrefs]
    simp only [Held]
    omega
  exact heq ▸ hcounted

theorem Owned.inShare (h : s.Owned out) {f : MapState α → MapState α}
    (hf : ∀ t : MapState α, t.map.Named → Clipping t (f t)) :
    MapState.Owned out ⟨s.kernel.inShare j f, s.map⟩ := by
  unfold Kernel.inShare
  cases hm : s.kernel.mapAt j with
  | none => exact h
  | some m =>
    dsimp only
    obtain ⟨hnamed, x, hkernel, hrefs, hpos⟩ := hf ⟨s.kernel, m⟩ (named_mapAt h.share hm)
    rw [hkernel]
    refine ⟨h.named, ?_, share_setMap (share_reference h.share x) hnamed⟩
    have hcounted := h.counted.reference fun t ht => refCount_share h.counted hm (hpos t ht)
    refine hcounted.setMap ((mapAt_reference x j).trans hm) fun t => ?_
    rw [hrefs]
    simp only [Held]
    omega

theorem Owned.modifyEntry (h : s.Owned (Held out x)) {place : EntryPlace}
    (he : s.entryOf place = some e) {f : VmMapEntry → VmMapEntry} (hid : ∀ a, (f a).id = a.id)
    (hx : (f e).target = x) : (s.modifyEntry place f).Owned (Held out e.target) := by
  have hnamed : ∀ (m : VmMap) (i : ℕ), m.Named →
      ({ m with entries := Linked.update VmMapEntry.id i f m.entries } : VmMap).Named :=
    fun m i hm => hm.congr (map_update hid i m.entries) rfl rfl
  cases place with
  | main i =>
    obtain ⟨hmem, rfl⟩ := VmMap.entryAt_mem he
    refine h.congr (hnamed _ _ h.named) fun t => ?_
    have hrefs := refsTo_update h.named.distinct hmem f t
    rw [hx] at hrefs
    simp only [Held]
    omega
  | share j i =>
    obtain ⟨m, hm, he⟩ := bind_eq_some_iff.mp he
    obtain ⟨hmem, rfl⟩ := VmMap.entryAt_mem he
    have hm' := named_mapAt h.share hm
    unfold MapState.modifyEntry Kernel.inShare
    dsimp only
    rw [hm]
    refine ⟨h.named, ?_, share_setMap h.share (hnamed m e.id hm')⟩
    refine h.counted.setMap hm fun t => ?_
    have hrefs := refsTo_update hm'.distinct hmem f t
    rw [hx] at hrefs
    simp only [Held, MapState.update]
    omega

theorem Owned.deallocate {x : Option ObjId} (h : s.Owned (Held out (x.map .object))) :
    MapState.Owned out ⟨s.kernel.vmObjectDeallocate x, s.map⟩ := by
  have heq : (fun t => Held out (x.map .object) t + refsTo t s.map.entries) =
      Held (fun t => out t + refsTo t s.map.entries) (x.map .object) := by
    funext t
    simp only [Held]
    omega
  have hcounted := h.counted
  rw [heq] at hcounted
  obtain ⟨hcounted, hmaps⟩ := hcounted.vmObjectDeallocate
  exact ⟨h.named, hcounted, hmaps ▸ h.share⟩

theorem Owned.reference (h : s.Owned out) {x : Option Target}
    (hx : ∀ t, x = some t → 0 < s.kernel.refCount t) :
    MapState.Owned (Held out x) ⟨s.kernel.reference x, s.map⟩ := by
  refine ⟨h.named, ?_, share_reference h.share x⟩
  have heq : (fun t => Held out x t + refsTo t s.map.entries) =
      Held (fun t => out t + refsTo t s.map.entries) x := by
    funext t
    simp only [Held]
    omega
  exact heq ▸ h.counted.reference hx

theorem Owned.lock (h : s.Owned out) : MapState.Owned out ⟨s.kernel, s.map.lock⟩ :=
  h.congr (h.named.congr rfl rfl rfl) fun _ => rfl

theorem Owned.lookupEntry (h : s.Owned out) (address : ℕ) :
    MapState.Owned out ⟨s.kernel, (s.map.lookupEntry address).2.2⟩ := by
  obtain ⟨hint, hhint⟩ := s.map.lookupEntry_map address
  rw [hhint]
  exact h.congr (h.named.congr rfl rfl rfl) fun _ => rfl

end MapState

/-- Other threads keep every count right and leave the references of this one alone. -/
def Unlocked.Fair {α : Type*} (w : Unlocked α) : Prop :=
  ∀ out s, MapState.Owned out s → MapState.Owned out (w.others s)

/-! ## Overwriting -/

namespace CopyoutState
variable {α : Type*} {s s' base : CopyoutState α} {out : Target → ℕ} {c : CopyId} {copy : MapCopy}
  {entries rest : List VmMapEntry} {copyEntry entry e : VmMapEntry} {tmp start : ℕ}
  {place : EntryPlace} {ws : List (Unlocked α)} {w : Unlocked α}

/-- The copy `c` is down to these entries, and nothing else of the zone or the pages of `base` has
changed. -/
structure Overwriting (out : Target → ℕ) (base : CopyoutState α) (c : CopyId)
    (entries : List VmMapEntry) (s : CopyoutState α) : Prop where
  zone : ∃ copy : MapCopy, copy.body = .entryList entries ∧ s.zone = update base.zone c (some copy)
  pages : s.pages = base.pages
  plain : ∀ e ∈ entries, e.isAMap = false ∧ e.isSubMap = false
  owned : s.toMapState.Owned fun t => out t + refsTo t entries

/-- The copy `c` is gone, and only it. -/
structure Overwritten (out : Target → ℕ) (base : CopyoutState α) (c : CopyId)
    (s : CopyoutState α) : Prop where
  zone : s.zone = update base.zone c none
  pages : s.pages = base.pages
  owned : s.toMapState.Owned out

theorem target_of_plain (h : e.isAMap = false ∧ e.isSubMap = false) :
    e.target = e.object.map .object := by
  unfold VmMapEntry.target
  rw [h.1, h.2]
  rfl

variable {t : MapState α} {copyEntry' : VmMapEntry} {rest' : List VmMapEntry}

theorem Overwriting.inMap (h : Overwriting out base c entries s)
    (ht : t.Owned fun t => out t + refsTo t entries) :
    Overwriting out base c entries { s with toMapState := t } :=
  ⟨h.zone, h.pages, h.plain, ht⟩

theorem Overwriting.setEntries (h : Overwriting out base c entries s) (copy : MapCopy)
    {entries' : List VmMapEntry} (hplain : ∀ e ∈ entries', e.isAMap = false ∧ e.isSubMap = false)
    (ht : t.Owned fun t => out t + refsTo t entries') :
    Overwriting out base c entries' (CopyoutState.setEntries { s with toMapState := t } c copy
      entries') := by
  obtain ⟨copy', -, hzone⟩ := h.zone
  refine ⟨⟨{ copy with body := .entryList entries' }, rfl, ?_⟩, h.pages, hplain, ht⟩
  unfold CopyoutState.setEntries CopyoutState.setCopy
  dsimp only
  rw [hzone, update_idem]

theorem heldEntries (out : Target → ℕ) (copyEntry : VmMapEntry) (rest : List VmMapEntry) :
    (fun t => out t + refsTo t (copyEntry :: rest)) =
      Held (fun t => out t + refsTo t rest) copyEntry.target := by
  funext t
  rw [Kernel.refsTo_cons]
  simp only [Held]
  omega

theorem Overwriting.copyClipEnd (h : Overwriting out base c (copyEntry :: rest) s) (copy : MapCopy)
    (stop : ℕ) {s' : CopyoutState α}
    (hr : s.copyClipEnd c copy copyEntry rest stop = (s', copyEntry', rest')) :
    Overwriting out base c (copyEntry' :: rest') s' := by
  unfold CopyoutState.copyClipEnd at hr
  split_ifs at hr
  · cases hr
    have hplain := h.plain copyEntry mem_cons_self
    refine h.setEntries copy (fun e he => ?_) (t := ⟨s.kernel.reference copyEntry.target, s.map⟩) ?_
    · rcases mem_cons.mp he with rfl | he
      · exact hplain
      · rcases mem_cons.mp he with rfl | he
        · exact hplain
        · exact h.plain e (mem_cons_of_mem _ he)
    · have howned := h.owned.reference fun t ht => h.owned.counted.refCount_pos (by
        rw [Kernel.refsTo_cons, if_pos ht]
        omega)
      refine howned.congr howned.named fun t => ?_
      rw [Kernel.refsTo_cons, Kernel.refsTo_cons]
      simp only [Held, Kernel.refsTo_cons]
      change _ + (_ + (if copyEntry.target = some t then 1 else 0) +
        if copyEntry.target = some t then 1 else 0) + _ = _
      omega
  · cases hr
    exact h

/-! What a turn does to the map of the destination and to a sharing map. -/

theorem followShare_owned {t' : MapState α} (h : t.Owned out) {i size size' : ℕ}
    (hr : t.followShare i entry size = some (t', place, size')) : t'.Owned out := by
  unfold MapState.followShare at hr
  cases hobject : entry.object with
  | none =>
    rw [hobject] at hr
    cases hr
  | some j =>
    rw [hobject] at hr
    dsimp only at hr
    cases hm : t.kernel.mapAt j with
    | none =>
      rw [hm] at hr
      cases hr
    | some m =>
      rw [hm, map_some] at hr
      obtain ⟨hint, hhint⟩ := m.lock.lookupEntry_map entry.offset
      generalize m.lock.lookupEntry entry.offset = r at hr hhint
      obtain ⟨found, place', m'⟩ := r
      dsimp only at hhint
      subst hhint
      cases place' with
      | none => cases hr
      | some k =>
        dsimp only at hr
        have hnamed := MapState.named_mapAt h.share hm
        have hlocked : MapState.Owned out ⟨t.kernel.setMap j (m.lock.saveHint hint), t.map⟩ :=
          ⟨h.named, h.counted.setMap hm fun _ => rfl,
            MapState.share_setMap h.share (hnamed.congr rfl rfl rfl)⟩
        have hclip := hlocked.inShare (j := j) (f := fun t => t.clipStart k entry.offset)
          fun t ht => MapState.clipping_clipStart ht k entry.offset
        split at hr
        · cases hr
        · split_ifs at hr
          · cases hr
            exact hclip.clip (MapState.clipping_clipEnd hclip.named _ _)
          · cases hr
            exact hclip.inShare fun t ht => MapState.clipping_clipEnd ht _ _
          · cases hr
            exact hclip

theorem Overwriting.fitEntries (h : Overwriting out base c (copyEntry :: rest) s)
        (hr : s.fitEntries c copy tmp entry copyEntry rest = some (place, s', copyEntry', rest')) :
    Overwriting out base c (copyEntry' :: rest') s' := by
  unfold CopyoutState.fitEntries at hr
  dsimp only at hr
  generalize hfirst : (if sub copyEntry.vmeEnd copyEntry.vmeStart <
      sub entry.vmeEnd entry.vmeStart then
      (s.toMapState.clipEnd tmp (add entry.vmeStart (sub copyEntry.vmeEnd copyEntry.vmeStart)),
        sub copyEntry.vmeEnd copyEntry.vmeStart)
    else (s.toMapState, sub entry.vmeEnd entry.vmeStart)) = r at hr
  obtain ⟨t, size⟩ := r
  have ht : t.Owned fun t => out t + refsTo t (copyEntry :: rest) := by
    split_ifs at hfirst
    · cases hfirst
      exact h.owned.clip (MapState.clipping_clipEnd h.owned.named _ _)
    · cases hfirst
      exact h.owned
  dsimp only at hr
  generalize hshare : (if entry.isAMap = true then t.followShare tmp entry size
    else some (t, EntryPlace.main tmp, size)) = r at hr
  cases r with
  | none => cases hr
  | some r =>
    obtain ⟨t', place', size'⟩ := r
    have ht' : t'.Owned fun t => out t + refsTo t (copyEntry :: rest) := by
      split_ifs at hshare
      · exact followShare_owned ht hshare
      · cases hshare
        exact ht
    dsimp only at hr
    split_ifs at hr
    · exact (h.inMap ht').copyClipEnd copy _ (Prod.mk.inj (some.inj hr)).2
    · cases hr
      exact h.inMap ht'

theorem refCount_entryOf (h : t.Owned out) (he : t.entryOf place = some e)
    {x : Target} (hx : e.target = some x) : 0 < t.kernel.refCount x := by
  cases place with
  | main i =>
    obtain ⟨hmem, -⟩ := VmMap.entryAt_mem he
    refine h.counted.refCount_pos ?_
    have := refsTo_pos hmem hx
    omega
  | share j i =>
    obtain ⟨m, hm, he⟩ := bind_eq_some_iff.mp he
    exact MapState.refCount_share h.counted hm (refsTo_pos (VmMap.entryAt_mem he).1 hx)

theorem Overwriting.overwriteTemporary (h : Overwriting out base c (copyEntry :: rest) s)
    (he : s.toMapState.entryOf place = some entry)
    (hentry : entry.isAMap = false ∧ entry.isSubMap = false) (copy : MapCopy) (tmp start : ℕ) :
    Overwriting out base c rest
      (s.overwriteTemporary c copy tmp start place entry copyEntry rest).state := by
  have hcopy := h.plain copyEntry mem_cons_self
  have howned := h.owned
  rw [heldEntries] at howned
  have hmodify := howned.modifyEntry he (f := fun e =>
    { e with
      object := copyEntry.object, offset := copyEntry.offset, needsCopy := copyEntry.needsCopy
      wiredCount := 0, userWiredCount := 0 }) (fun _ => rfl)
    ((target_of_plain (e := { entry with
      object := copyEntry.object, offset := copyEntry.offset, needsCopy := copyEntry.needsCopy
      wiredCount := 0, userWiredCount := 0 }) hentry).trans (target_of_plain hcopy).symm)
  rw [target_of_plain hentry] at hmodify
  exact h.setEntries copy (fun e he => h.plain e (mem_cons_of_mem _ he)) hmodify.deallocate

end CopyoutState

namespace CopyoutState
variable {α : Type*} {s s' base : CopyoutState α} {out : Target → ℕ} {c : CopyId} {copy : MapCopy}
  {entries rest : List VmMapEntry} {copyEntry entry e : VmMapEntry} {tmp start : ℕ}
  {place : EntryPlace} {ws ws' : List (Unlocked α)} {w : Unlocked α}
  {r : (KernReturn × CopyoutState α) ⊕ Overwrite α}

/-- How a part of the second pass ends: with an error, or at the head of the loop again. -/
def TurnEnds (out : Target → ℕ) (base : CopyoutState α) (c : CopyId) :
    (KernReturn × CopyoutState α) ⊕ Overwrite α → Prop
  | .inl (result, s) => result ≠ .success ∧ ∃ entries, Overwriting out base c entries s
  | .inr o => ∃ entries, Overwriting out base c entries o.state

theorem Overwriting.disposeCopied (h : Overwriting out base c (copyEntry :: rest) s)
    (copy : MapCopy) (copySize : ℕ) :
    ∃ entries, Overwriting out base c entries (s.disposeCopied c copy copyEntry rest copySize) := by
  unfold CopyoutState.disposeCopied
  split_ifs
  · generalize hclip : s.copyClipEnd c copy copyEntry rest (add copyEntry.vmeStart copySize) = q
    obtain ⟨s₁, copyEntry', rest'⟩ := q
    have hclipped := h.copyClipEnd copy _ hclip
    have hplain := hclipped.plain copyEntry' mem_cons_self
    have howned := hclipped.owned
    rw [heldEntries, target_of_plain hplain] at howned
    exact ⟨rest', hclipped.setEntries copy
      (fun e he => hclipped.plain e (mem_cons_of_mem _ he)) howned.deallocate⟩
  · exact ⟨_, h⟩

theorem Overwriting.pickUp (h : Overwriting out base c entries s) (timestamp tmp start : ℕ) :
    TurnEnds out base c (s.pickUp timestamp tmp start) := by
  have hlock := h.owned.lock
  have hlook := hlock.lookupEntry start
  unfold CopyoutState.pickUp
  dsimp only at hlook ⊢
  split_ifs
  · exact ⟨entries, h.inMap (hlock.clip (MapState.clipping_clipEnd hlock.named _ _))⟩
  · split
    · next i m hfound =>
      rw [hfound] at hlook
      exact ⟨entries, h.inMap (hlook.clip (MapState.clipping_clipStart hlook.named _ _))⟩
    · next m _ hfound =>
      rw [hfound] at hlook
      exact ⟨by decide, entries, h.inMap hlook⟩

theorem Overwriting.overwritePermanent (h : Overwriting out base c (copyEntry :: rest) s)
    (hw : w.Fair) (he : s.toMapState.entryOf place = some entry) {object : ObjId}
    (hobject : entry.target = some (.object object)) (copy : MapCopy) (tmp start : ℕ) :
    TurnEnds out base c (s.overwritePermanent w c copy tmp start object copyEntry rest) := by
  -- the reference to the destination is held while the map is unlocked
  have href := h.owned.reference (x := some (.object object)) fun t ht =>
    refCount_entryOf h.owned he (hobject.trans ht)
  have hback := MapState.Owned.deallocate (x := some object) (hw _ _ href)
  have hs := h.inMap hback
  unfold CopyoutState.overwritePermanent
  dsimp only
  by_cases hresult : w.result = .success
  · rw [if_neg (not_not.mpr hresult)]
    obtain ⟨entries, hdisposed⟩ := hs.disposeCopied copy w.copySize
    exact hdisposed.pickUp _ _ _
  · rw [if_pos hresult]
    exact ⟨hresult, _, hs⟩

theorem Overwriting.overwriteEntry (h : Overwriting out base c (copyEntry :: rest) s)
    (hws : ∀ w ∈ ws, w.Fair) {r : (KernReturn × CopyoutState α) ⊕ Overwrite α × List (Unlocked α)}
    (hr : s.overwriteEntry ws c copy tmp start place copyEntry rest = some r) :
    TurnEnds out base c (r.map id Prod.fst) ∧ ∀ o ws', r = .inr (o, ws') → ∀ w ∈ ws', w.Fair := by
  unfold CopyoutState.overwriteEntry at hr
  cases he : s.toMapState.entryOf place with
  | none =>
    rw [he] at hr
    cases hr
  | some entry =>
    rw [he] at hr
    dsimp only at hr
    split_ifs at hr with hmap
    have hentry : entry.isAMap = false ∧ entry.isSubMap = false := by simpa using hmap
    cases hobject : entry.object with
    | none =>
      rw [hobject] at hr
      cases hr
      refine ⟨⟨rest, h.overwriteTemporary he hentry copy tmp start⟩, fun o ws' heq => ?_⟩
      cases heq
      exact hws
    | some object =>
      rw [hobject] at hr
      dsimp only at hr
      cases hob : s.kernel.store.objs object with
      | none =>
        rw [hob] at hr
        cases hr
      | some ob =>
        rw [hob] at hr
        dsimp only at hr
        split_ifs at hr
        · cases hr
          refine ⟨⟨rest, h.overwriteTemporary he hentry copy tmp start⟩, fun o ws' heq => ?_⟩
          cases heq
          exact hws
        · cases ws with
          | nil => cases hr
          | cons w ws =>
            have htarget : entry.target = some (.object object) := by
              rw [target_of_plain hentry, hobject]
              rfl
            have hends := h.overwritePermanent (hws w mem_cons_self) he htarget copy tmp start
            dsimp only at hr
            split at hr
            · next q hq =>
              rw [hq] at hends
              cases hr
              exact ⟨hends, fun o ws' heq => by cases heq⟩
            · next o hq =>
              rw [hq] at hends
              cases hr
              refine ⟨hends, fun o ws' heq => ?_⟩
              cases heq
              exact fun w hw => hws w (mem_cons_of_mem _ hw)

theorem Overwriting.overwriteTurn {o : Overwrite α}
    (h : Overwriting out base c (copyEntry :: rest) o.state) (hws : ∀ w ∈ ws, w.Fair)
    {r : (KernReturn × CopyoutState α) ⊕ Overwrite α × List (Unlocked α)}
    (hr : overwriteTurn ws c copy copyEntry rest o = some r) :
    TurnEnds out base c (r.map id Prod.fst) ∧ ∀ o ws', r = .inr (o, ws') → ∀ w ∈ ws', w.Fair := by
  unfold CopyoutState.overwriteTurn at hr
  split at hr
  · next tmp entry _ _ =>
    split_ifs at hr
    · cases hr
      exact ⟨⟨by decide, _, h⟩, fun o ws' heq => by cases heq⟩
    · cases hr
      exact ⟨⟨by decide, _, h⟩, fun o ws' heq => by cases heq⟩
    · split at hr
      · cases hr
      · next hfit => exact (h.fitEntries hfit).overwriteEntry hws hr
  · split_ifs at hr
    cases hr
    exact ⟨⟨by decide, _, h⟩, fun o ws' heq => by cases heq⟩

theorem deallocateEntries {k : Kernel α} {m : VmMap}
    (hplain : ∀ e ∈ entries, e.isAMap = false ∧ e.isSubMap = false)
    (h : MapState.Owned (fun t => out t + refsTo t entries) ⟨k, m⟩) :
    MapState.Owned out ⟨entries.foldl (fun k e => k.vmObjectDeallocate e.object) k, m⟩ := by
  induction entries generalizing k with
  | nil => exact h
  | cons e entries ih =>
    rw [heldEntries, target_of_plain (hplain e mem_cons_self)] at h
    exact ih (fun a ha => hplain a (mem_cons_of_mem _ ha)) h.deallocate

theorem Overwriting.discard (h : Overwriting out base c entries s) :
    ∃ s', s.vmMapCopyDiscard (some c) = some s' ∧ Overwritten out base c s' := by
  obtain ⟨copy, hbody, hzone⟩ := h.zone
  have hc : s.zone c = some copy := by rw [hzone, update_self]
  unfold CopyoutState.vmMapCopyDiscard
  dsimp only
  rw [hc]
  dsimp only
  rw [hbody]
  refine ⟨_, rfl, ?_, h.pages, deallocateEntries h.plain h.owned⟩
  unfold CopyoutState.zfree
  dsimp only
  rw [hzone, update_idem]

theorem overwriteLoop_spec (turns : ℕ) : ∀ {ws : List (Unlocked α)} {o : Overwrite α}
    {entries : List VmMapEntry} {result : KernReturn} {s' : CopyoutState α},
    Overwriting out base c entries o.state → (∀ w ∈ ws, w.Fair) →
    overwriteLoop c turns ws o = some (result, s') → result = .success ∧ Overwritten out base c s' ∨
      result ≠ .success ∧ ∃ entries, Overwriting out base c entries s' := by
  induction turns with
  | zero =>
    intro ws o entries result s' _ _ hr
    cases hr
  | succ turns ih =>
    intro ws o entries result s' h hws hr
    obtain ⟨copy, hbody, hzone⟩ := h.zone
    have hc : o.state.zone c = some copy := by rw [hzone, update_self]
    obtain ⟨offset, size, body⟩ := copy
    dsimp only at hbody
    subst hbody
    unfold CopyoutState.overwriteLoop at hr
    rw [hc] at hr
    cases entries with
    | nil =>
      obtain ⟨s₁, hs₁, hdone⟩ := h.discard
      dsimp only at hr
      rw [hs₁] at hr
      cases hr
      exact .inl ⟨rfl, hdone⟩
    | cons copyEntry rest =>
      dsimp only at hr
      split at hr
      · cases hr
      · next r hturn =>
        cases hr
        exact .inr (h.overwriteTurn hws hturn).1
      · next o' ws' hturn =>
        obtain ⟨⟨entries, hends⟩, hfair⟩ := h.overwriteTurn hws hturn
        exact ih hends (hfair o' ws' rfl) hr

end CopyoutState

/-! The first pass. -/

namespace MapState
variable {α : Type*} {s s' : MapState α} {out : Target → ℕ}

theorem Owned.update (h : s.Owned out) (i : ℕ) {f : VmMapEntry → VmMapEntry}
    (hid : ∀ a, (f a).id = a.id) (htarget : ∀ a, (f a).target = a.target) :
    (s.update i f).Owned out := by
  refine h.congr (h.named.congr (map_update hid i s.map.entries) rfl rfl) fun t => ?_
  rw [refsTo_congr (map_update (g := VmMapEntry.target) htarget i s.map.entries)]

theorem Owned.overwritePass1 (dstAddr : ℕ) : ∀ {ws ws' : List (Unlocked α)} {size : ℕ}
    {s s' : MapState α} {result : KernReturn} {i : Option ℕ}, s.Owned out →
    (∀ w ∈ ws, w.Fair) → s.overwritePass1 dstAddr ws size = some (result, i, s', ws') →
    s'.Owned out ∧ ∀ w ∈ ws', w.Fair := by
  intro ws
  induction ws with
  | nil =>
    intro ws' size s s' result i h hws hr
    have hlook := h.lock.lookupEntry dstAddr
    unfold MapState.overwritePass1 at hr
    dsimp only at hlook
    split at hr
    · next j m hfound =>
      rw [hfound] at hlook
      have hclip := hlook.clip (MapState.clipping_clipStart hlook.named j dstAddr)
      dsimp only at hr
      split at hr
      · cases hr
      · cases hr
        exact ⟨hclip, hws⟩
    · next m _ hfound =>
      rw [hfound] at hlook
      cases hr
      exact ⟨hlook, hws⟩
  | cons w ws ih =>
    intro ws' size s s' result i h hws hr
    have hlook := h.lock.lookupEntry dstAddr
    unfold MapState.overwritePass1 at hr
    dsimp only at hlook
    split at hr
    · next j m hfound =>
      rw [hfound] at hlook
      have hclip := hlook.clip (MapState.clipping_clipStart hlook.named j dstAddr)
      dsimp only at hr
      split at hr
      · next entry size' _ =>
        have hwait := hclip.update entry (f := fun e => { e with needsWakeup := true })
          (fun _ => rfl) fun _ => rfl
        exact ih (hws w mem_cons_self _ _ hwait) (fun w hw => hws w (mem_cons_of_mem _ hw)) hr
      · cases hr
        exact ⟨hclip, hws⟩
    · next m _ hfound =>
      rw [hfound] at hlook
      cases hr
      exact ⟨hlook, hws⟩

end MapState

namespace CopyoutState
variable {α : Type*} {s s' : CopyoutState α} {out : Target → ℕ} {c : CopyId}
  {entries : List VmMapEntry} {ws : List (Unlocked α)} {turns dstAddr : ℕ} {result : KernReturn}

/-- `vm_map_copy_overwrite` consumes the copy, or leaves what is left of it to the caller. -/
theorem Overwriting.vmMapCopyOverwrite (h : Overwriting out s c entries s) (hws : ∀ w ∈ ws, w.Fair)
    (hr : s.vmMapCopyOverwrite turns ws dstAddr (some c) = some (result, s')) :
    result = .success ∧ Overwritten out s c s' ∨
      result ≠ .success ∧ ∃ entries, Overwriting out s c entries s' := by
  obtain ⟨copy, hbody, hzone⟩ := h.zone
  have hc : s.zone c = some copy := by rw [hzone, update_self]
  obtain ⟨offset, size, body⟩ := copy
  dsimp only at hbody
  subst hbody
  unfold CopyoutState.vmMapCopyOverwrite at hr
  dsimp only at hr
  rw [hc] at hr
  dsimp only at hr
  split_ifs at hr
  · obtain ⟨s₁, hs₁, hdone⟩ := h.discard
    rw [hs₁] at hr
    cases hr
    exact .inl ⟨rfl, hdone⟩
  · cases hpass : s.toMapState.overwritePass1 dstAddr ws size with
    | none =>
      rw [hpass] at hr
      cases hr
    | some q =>
      obtain ⟨result', i, t, ws'⟩ := q
      obtain ⟨howned, hfair⟩ := h.owned.overwritePass1 dstAddr hws hpass
      rw [hpass] at hr
      have hstart := h.inMap howned
      by_cases hresult : result' = .success
      · subst hresult
        exact overwriteLoop_spec turns hstart hfair hr
      · have hr' : some (result', { s with toMapState := t }) = some (result, s') := by
          cases result' <;> first | exact absurd rfl hresult | exact hr
        cases hr'
        exact .inr ⟨hresult, _, hstart⟩

end CopyoutState

end MachKernel.Vm
