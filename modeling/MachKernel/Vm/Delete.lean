import MachKernel.Lib.Runs
import MachKernel.Vm.Range

/-! Deleting a range of addresses and merging entries (`vm_map_delete`, `vm_map_deallocate`,
`vm_map_simplify`). -/

namespace MachKernel.Vm
open List Option
open Word32 Linked

namespace VmMap

/-- `vme_prev` of a place. -/
def prev (m : VmMap) : Option ℕ → Option ℕ
  | none => last VmMapEntry.id m.entries
  | some i => last VmMapEntry.id (m.entries.takeWhile fun e => e.id ≠ i)

/-- `vme_start` of a place; that of the header is the lower bound of the map. -/
def vmeStartOf (m : VmMap) : Option ℕ → ℕ
  | none => m.minOffset
  | some i => ((m.entryAt i).map VmMapEntry.vmeStart).getD m.minOffset

/-- `vm_map_entry_unlink`. -/
def entryUnlink (m : VmMap) (i : ℕ) : VmMap :=
  { m with entries := m.entries.filter fun e => e.id ≠ i, nentries := m.nentries - 1 }

/-- The free space hint is moved down if the entry it names is about to go. -/
def lowerFirstFree (m : VmMap) (start : ℕ) (entry : Option ℕ) : VmMap :=
  if start ≤ m.vmeStartOf m.firstFree then { m with firstFree := m.prev entry } else m

end VmMap

namespace MapState
variable {α : Type*}

/-- `vm_map_entry_delete`; `release` gives up the reference of the entry. The pages of the entry are
unwired and removed from the physical map first, which shows in neither. -/
def entryDelete (release : Kernel α → VmMapEntry → Kernel α) (s : MapState α) (e : VmMapEntry) :
    MapState α :=
  let m := s.map.entryUnlink e.id
  ⟨release s.kernel e, { m with size := m.size - (e.vmeEnd - e.vmeStart) }⟩

/-- The loop of `vm_map_delete`. At an entry in transition it stops and waits. -/
def deleteLoop (release : Kernel α → VmMapEntry → Kernel α) (stop : ℕ) :
    ℕ → MapState α → Option ℕ → MapState α
  | turns + 1, s, some i =>
    match s.map.entryAt i with
    | none => s
    | some e =>
      if e.vmeStart < stop then
        let s := s.clipEnd i stop
        match s.map.entryAt i with
        | none => s
        | some e =>
          if e.inTransition then s.update i fun e => { e with needsWakeup := true }
          else deleteLoop release stop turns (s.entryDelete release e) (s.map.next (some i))
      else s
  | _, s, _ => s

/-- The body of `vm_map_delete`. -/
def deleteRange (release : Kernel α → VmMapEntry → Kernel α) (s : MapState α) (start stop : ℕ) :
    MapState α :=
  let (found, s, entry) := s.firstEntry start
  let m := if found then s.map.saveHint (s.map.prev entry) else s.map
  deleteLoop release stop m.entries.length ⟨s.kernel, m.lowerFirstFree start entry⟩ entry

end MapState

namespace Kernel
variable {α : Type*}

/-- The reference of an entry is given up. -/
def releaseEntry (mapDeallocate : Kernel α → ℕ → Kernel α) (k : Kernel α) (e : VmMapEntry) :
    Kernel α :=
  match e.target with
  | none => k
  | some (.object o) => k.vmObjectDeallocate (some o)
  | some (.map j) => mapDeallocate k j

/-- `vm_map_deallocate`: with the last reference the whole map is deleted. Maps nest no deeper than
the number of turns. -/
def vmMapDeallocate : ℕ → Kernel α → ℕ → Kernel α
  | 0, k, _ => k
  | turns + 1, k, j =>
    match k.maps.find? fun sm => sm.id = j with
    | none => k
    | some sm =>
      let drop (s : SubMap) : SubMap := { s with refCount := s.refCount - 1 }
      if 0 < sm.refCount - 1 then { k with maps := update SubMap.id j drop k.maps }
      else
        (MapState.deleteRange (releaseEntry (vmMapDeallocate turns))
          ⟨{ k with maps := k.maps.filter fun s => s.id ≠ j }, sm.map⟩ sm.map.minOffset
          sm.map.maxOffset).kernel

end Kernel

namespace MapState
variable {α : Type*}

def vmMapDelete (s : MapState α) (start stop : ℕ) : KernReturn × MapState α :=
  (.success,
    s.deleteRange (Kernel.releaseEntry (Kernel.vmMapDeallocate s.kernel.maps.length)) start stop)

def vmMapRemove (s : MapState α) (start stop : ℕ) : KernReturn × MapState α :=
  let (start, stop) := s.map.rangeCheck start stop
  vmMapDelete ⟨s.kernel, s.map.lock⟩ start stop

/-- The test of `vm_map_simplify`: one entry goes on where the other ends. -/
def mergeable (isMainMap : Bool) (start : ℕ) (prevEntry thisEntry : VmMapEntry) : Prop :=
  prevEntry.vmeEnd = start ∧ isMainMap = true ∧
    prevEntry.isAMap = false ∧ prevEntry.isSubMap = false ∧
    thisEntry.isAMap = false ∧ thisEntry.isSubMap = false ∧
    prevEntry.inheritance = thisEntry.inheritance ∧
    prevEntry.protection = thisEntry.protection ∧
    prevEntry.maxProtection = thisEntry.maxProtection ∧
    prevEntry.wiredCount = thisEntry.wiredCount ∧
    prevEntry.userWiredCount = thisEntry.userWiredCount ∧
    prevEntry.needsCopy = thisEntry.needsCopy ∧
    prevEntry.object = thisEntry.object ∧
    add prevEntry.offset (sub prevEntry.vmeEnd prevEntry.vmeStart) = thisEntry.offset

instance (isMainMap : Bool) (start : ℕ) (a b : VmMapEntry) :
    Decidable (mergeable isMainMap start a b) := inferInstanceAs (Decidable (_ ∧ _))

/-- The two entries become one. -/
def merge (s : MapState α) (prevEntry thisEntry : VmMapEntry) : MapState α :=
  let m := s.map
  let m := if m.firstFree = some thisEntry.id then { m with firstFree := some prevEntry.id } else m
  let m := (m.saveHint (some prevEntry.id)).entryUnlink thisEntry.id
  let extend (e : VmMapEntry) : VmMapEntry := { e with vmeEnd := thisEntry.vmeEnd }
  let m := { m with entries := Linked.update VmMapEntry.id prevEntry.id extend m.entries }
  ⟨s.kernel.vmObjectDeallocate thisEntry.object, m⟩

def vmMapSimplify (isMainMap : Bool) (s : MapState α) (start : ℕ) : MapState α :=
  match s.map.lock.lookupEntry start with
  | (true, some i, m) =>
    match (m.prev (some i)).bind m.entryAt, m.entryAt i with
    | some prevEntry, some thisEntry =>
      if mergeable isMainMap start prevEntry thisEntry then
        merge ⟨s.kernel, m⟩ prevEntry thisEntry
      else ⟨s.kernel, m⟩
    | _, _ => ⟨s.kernel, m⟩
  | (_, _, m) => ⟨s.kernel, m⟩

end MapState

section
variable [PageSize] {α : Type*} {s : MapState α} {turns : ℕ} {out : Target → ℕ}
variable {pre post : List VmMapEntry} {e : VmMapEntry} {start stop : ℕ}

/-! ## Unlinking an entry -/

/-- The hints of a map name entries of a list. -/
def VmMap.HintsIn (m : VmMap) (l : List VmMapEntry) : Prop :=
  (∀ i, m.hint = some i → i ∈ l.map VmMapEntry.id) ∧
    ∀ i, m.firstFree = some i → i ∈ l.map VmMapEntry.id

omit [PageSize] in
theorem VmMap.HintsIn.append_right {m : VmMap} (h : m.HintsIn pre) : m.HintsIn (pre ++ post) := by
  constructor
  · intro i hi
    rw [map_append]
    exact mem_append_left _ (h.1 i hi)
  · intro i hi
    rw [map_append]
    exact mem_append_left _ (h.2 i hi)

theorem VmMap.WellFormed.unlink {m : VmMap} (h : m.WellFormed)
    (hsplit : m.entries = pre ++ e :: post) (hhints : m.HintsIn (pre ++ post)) :
    let m' := { m.entryUnlink e.id with size := m.size - (e.vmeEnd - e.vmeStart) }
    m'.entries = pre ++ post ∧ m'.WellFormed := by
  have hd := h.distinct
  rw [hsplit] at hd
  intro m'
  have hentries : m'.entries = pre ++ post := by
    simp only [m', VmMap.entryUnlink, hsplit]
    exact filter_split hd
  have hsub : ∀ a ∈ pre ++ post, a ∈ m.entries := by
    intro a ha
    rw [hsplit]
    simp only [mem_append, mem_cons] at ha ⊢
    tauto
  have hasc := h.ascending
  rw [hsplit] at hasc
  refine ⟨hentries, ⟨?_, ?_, ?_, ?_, ?_, ?_, h.bounds, ?_, ?_, ?_, ?_⟩⟩
  · rw [hentries]
    exact hasc.sublist ((sublist_cons_self e post).append_left pre)
  · rw [hentries]
    exact fun a ha => h.nonempty a (hsub a ha)
  · rw [hentries]
    exact fun a ha => h.aligned a (hsub a ha)
  · rw [hentries]
    exact fun a ha => h.inside a (hsub a ha)
  · have hn := h.nentries
    rw [hsplit] at hn
    simp only [length_append, length_cons] at hn
    have hm : m'.nentries = m.nentries - 1 := rfl
    rw [hentries, hm, length_append]
    omega
  · have hsize := h.size
    rw [hsplit, sizeSum_append, sizeSum_cons] at hsize
    have hm : m'.size = m.size - (e.vmeEnd - e.vmeStart) := rfl
    rw [hentries, hm, sizeSum_append]
    omega
  · rw [hentries]
    unfold Distinct at hd ⊢
    exact hd.sublist (((sublist_cons_self e post).append_left pre).map _)
  · rw [hentries]
    exact fun a ha => h.nextId a (hsub a ha)
  · rw [hentries]
    exact hhints.1
  · rw [hentries]
    exact hhints.2

omit [PageSize] in
/-- Giving up the reference that an entry holds. -/
def Releases (turns : ℕ) (release : Kernel α → VmMapEntry → Kernel α) : Prop :=
  ∀ k e out, Kernel.Sound turns k (Held out e.target) → Kernel.Sound turns (release k e) out

variable {release : Kernel α → VmMapEntry → Kernel α}

theorem MapState.Ok.entryDelete (h : s.Ok turns out) (hsplit : s.map.entries = pre ++ e :: post)
    (hhints : s.map.HintsIn (pre ++ post)) (hr : Releases turns release) :
    (s.entryDelete release e).Ok turns out ∧
      (s.entryDelete release e).map.entries = pre ++ post := by
  obtain ⟨hentries, hwf⟩ := h.map.unlink hsplit hhints
  have hentries' : (s.entryDelete release e).map.entries = pre ++ post := hentries
  refine ⟨⟨hwf, hr _ _ _ ?_⟩, hentries⟩
  have hsum : Held (fun t => out t + refsTo t (s.entryDelete release e).map.entries) e.target =
      fun t => out t + refsTo t s.map.entries := by
    funext t
    simp only [Held, hentries', hsplit, Kernel.refsTo_append, Kernel.refsTo_cons]
    omega
  rw [hsum]
  exact h.kernel

/-! ## Deleting a range -/

theorem deleteLoop_stop (h : s.map.WellFormed)
    (hsplit : s.map.entries = pre ++ post) (hstop : ∀ e ∈ post, stop ≤ e.vmeStart) (n : ℕ) :
    MapState.deleteLoop release stop n s (post.head?.map VmMapEntry.id) = s := by
  cases n with
  | zero => simp only [MapState.deleteLoop]
  | succ n =>
    cases post with
    | nil => simp only [head?_nil, map_none, MapState.deleteLoop]
    | cons e post =>
      have hat : s.map.entryAt e.id = some e := h.entryAt (by rw [hsplit]; simp)
      have := hstop e mem_cons_self
      simp only [head?_cons, map_some, MapState.deleteLoop, hat]
      rw [if_neg (by omega)]

theorem deleteLoop_spec (hr : Releases turns release)
    (hal : PageAligned stop) (n : ℕ) : ∀ {s : MapState α} {pre post : List VmMapEntry},
    s.Ok turns out → s.map.entries = pre ++ post → post.length ≤ n → s.map.HintsIn pre →
    (∀ e ∈ post, e.inTransition = false) →
    ∃ post', (MapState.deleteLoop release stop n s (post.head?.map VmMapEntry.id)).Ok turns out ∧
      (MapState.deleteLoop release stop n s (post.head?.map VmMapEntry.id)).map.entries =
        pre ++ post' ∧
      ∀ x, view post' x = if x < stop then none else view post x := by
  induction n with
  | zero =>
    intro s pre post h hsplit hlen _ _
    have hnil := eq_nil_of_length_eq_zero (Nat.le_zero.mp hlen)
    subst hnil
    exact ⟨[], h, hsplit, by simp⟩
  | succ n ih =>
    intro s pre post h hsplit hlen hhints htrans
    cases post with
    | nil => exact ⟨[], h, hsplit, by simp⟩
    | cons e post =>
      have hasc := h.map.ascending
      rw [hsplit, append_cons] at hasc
      have hpost : ∀ a ∈ post, e.vmeEnd ≤ a.vmeStart := fun a ha => hasc.le_of_mem (by simp) ha
      have htail : ∀ a ∈ post, a.inTransition = false := fun a ha =>
        htrans a (mem_cons_of_mem _ ha)
      have hwhole : ∀ x, view (e :: post) x = (view [e] x).or (view post x) := fun x => by
        rw [← singleton_append, view_append]
      rcases Nat.lt_or_ge e.vmeStart stop with hlt | hge
      · obtain ⟨e', back, hcut⟩ := h.clipEnd hsplit hal hlt
        have hid : e'.id = e.id := by rw [hcut.entry]
        have hend : e'.vmeEnd = min stop e.vmeEnd := by rw [hcut.entry]
        have hquiet : e'.inTransition = false := by
          rw [hcut.entry]
          exact htrans e mem_cons_self
        have hhints' : (s.clipEnd e.id stop).map.HintsIn (pre ++ (back ++ post)) := by
          refine VmMap.HintsIn.append_right ⟨fun i hi => hhints.1 i ?_, fun i hi => hhints.2 i ?_⟩
          · rw [← hcut.header.hint, hi]
          · rw [← hcut.header.firstFree, hi]
        have hat := hcut.ok.entryAt_split hcut.entries
        rw [hid] at hat
        have hnext := VmMap.next_split hcut.ok.map.distinct hcut.entries
        rw [hid] at hnext
        obtain ⟨hok, hentries⟩ := hcut.ok.entryDelete hcut.entries hhints' hr
        have hhints'' : ((s.clipEnd e.id stop).entryDelete release e').map.HintsIn pre := by
          refine ⟨fun i hi => hhints.1 i ?_, fun i hi => hhints.2 i ?_⟩
          · rw [← hcut.header.hint]
            exact hi
          · rw [← hcut.header.firstFree]
            exact hi
        simp only [head?_cons, map_some, MapState.deleteLoop, h.entryAt_split hsplit,
          if_pos hlt, hat, hquiet, hnext]
        rw [if_neg (by simp)]
        rcases hcut.whole with ⟨rfl, hle⟩ | hsplits
        · -- the whole entry is inside the range
          rw [nil_append] at hentries ⊢
          obtain ⟨post', hok', hentries', hview⟩ := ih hok hentries
            (Nat.le_of_succ_le_succ hlen) hhints'' htail
          refine ⟨post', hok', hentries', fun x => ?_⟩
          rw [hview, hwhole]
          split_ifs with hx
          · rfl
          · have hnone : view [e] x = none := view_of_le fun a ha => by
              rw [mem_singleton.mp ha]
              omega
            rw [hnone, none_or]
        · -- the entry goes over the end, and its upper part stays
          have habove : ∀ a ∈ back ++ post, stop ≤ a.vmeStart := by
            intro a ha
            rcases mem_append.mp ha with ha | ha
            · exact (hcut.above a ha).1.ge
            · have := hpost a ha
              omega
          rw [deleteLoop_stop hok.map hentries habove]
          refine ⟨back ++ post, hok, hentries, fun x => ?_⟩
          split_ifs with hx
          · exact view_of_lt fun a ha => by
              have := habove a ha
              omega
          · have hnone : view [e'] x = none := view_of_le fun a ha => by
              rw [mem_singleton.mp ha, hend]
              omega
            have hback : view [e] x = view back x := by
              rw [← hcut.view, ← singleton_append, view_append, hnone, none_or]
            rw [hwhole, hback, view_append]
      · have habove : ∀ a ∈ e :: post, stop ≤ a.vmeStart := by
          intro a ha
          rcases mem_cons.mp ha with rfl | ha
          · exact hge
          · have := hpost a ha
            have := h.map.nonempty e (h.mem_split hsplit)
            omega
        rw [deleteLoop_stop h.map hsplit habove]
        refine ⟨e :: post, h, hsplit, fun x => ?_⟩
        split_ifs with hx
        · exact view_of_lt fun a ha => by
            have := habove a ha
            omega
        · rfl

omit [PageSize] in
theorem VmMap.prev_head {m : VmMap} (hd : Distinct VmMapEntry.id m.entries)
    (hsplit : m.entries = pre ++ post) :
    m.prev (post.head?.map VmMapEntry.id) = last VmMapEntry.id pre := by
  rw [hsplit] at hd
  cases post with
  | nil => rw [head?_nil, map_none, VmMap.prev, hsplit, append_nil]
  | cons e post =>
    rw [head?_cons, map_some, VmMap.prev, hsplit, takeWhile_split hd]

theorem VmMap.WellFormed.lowerFirstFree {m : VmMap} (h : m.WellFormed)
    (hsplit : m.entries = pre ++ post) (habove : ∀ e ∈ post, start ≤ e.vmeStart)
    (hhint : ∀ i, m.hint = some i → i ∈ pre.map VmMapEntry.id) :
    (m.lowerFirstFree start (post.head?.map VmMapEntry.id)).HintsIn pre := by
  unfold VmMap.lowerFirstFree
  rw [VmMap.prev_head h.distinct hsplit]
  split_ifs with hle
  · exact ⟨hhint, fun i hi => last_mem hi⟩
  · refine ⟨hhint, fun i hi => ?_⟩
    have hmem := h.firstFree i hi
    rw [hsplit, map_append, mem_append] at hmem
    refine hmem.resolve_right fun hpost => ?_
    obtain ⟨a, ha, rfl⟩ := mem_map.mp hpost
    have hat := h.entryAt (e := a) (by rw [hsplit]; exact mem_append_right _ ha)
    rw [hi, VmMap.vmeStartOf, hat] at hle
    exact hle (habove a ha)

/-- `vm_map_delete` unmaps the range. -/
theorem MapState.Ok.deleteRange (h : s.Ok turns out)
    (hr : Releases turns release) (hstart : PageAligned start) (hstop : PageAligned stop)
    (htrans : ∀ e ∈ s.map.entries, e.inTransition = false) :
    (s.deleteRange release start stop).Ok turns out ∧
      UpdatesRange s.map.entries (s.deleteRange release start stop).map.entries start stop
        fun _ => none := by
  obtain ⟨pre, post, hs⟩ := h.firstEntry hstart
  simp only [MapState.deleteRange]
  generalize s.firstEntry start = r at hs ⊢
  have hok := hs.ok
  have hentry := hs.entry
  have hsplit := hs.entries
  have hhint := hs.hint
  obtain ⟨found, s', entry⟩ := r
  simp only at hok hentry hsplit hhint ⊢
  rw [hentry, VmMap.prev_head hok.map.distinct hsplit]
  -- the map with its hint moved below the range
  obtain ⟨m, hm, hmok, hmhint⟩ : ∃ m,
      (if found = true then s'.map.saveHint (last VmMapEntry.id pre) else s'.map) = m ∧
      MapState.Ok turns out ⟨s'.kernel, m⟩ ∧ (m.entries = pre ++ post ∧
        ∀ i, m.hint = some i → i ∈ pre.map VmMapEntry.id) := by
    refine ⟨_, rfl, ?_⟩
    cases found with
    | false => exact ⟨hok, hsplit, hhint rfl⟩
    | true =>
      have hlast : ∀ i, last VmMapEntry.id pre = some i → i ∈ pre.map VmMapEntry.id :=
        fun i hi => last_mem hi
      refine ⟨⟨hok.map.saveHint fun i hi => ?_, hok.kernel⟩, hsplit, hlast⟩
      rw [hsplit, map_append]
      exact mem_append_left _ (hlast i hi)
  rw [hm]
  have hhints := hmok.map.lowerFirstFree hmhint.1 hs.above hmhint.2
  generalize hm' : m.lowerFirstFree start (post.head?.map VmMapEntry.id) = m' at hhints ⊢
  have hentries : m'.entries = m.entries := by
    rw [← hm']
    unfold VmMap.lowerFirstFree
    split_ifs <;> rfl
  have hwf : m'.WellFormed := by
    have hff := hhints.2
    rw [← hm'] at hff ⊢
    unfold VmMap.lowerFirstFree at hff ⊢
    split_ifs at hff ⊢
    · refine { hmok.map with firstFree := fun i hi => ?_ }
      have hmem := hff i hi
      simp only [hmhint.1, map_append]
      exact mem_append_left _ hmem
    · exact hmok.map
  have hok' : MapState.Ok turns out ⟨s'.kernel, m'⟩ := by
    refine ⟨hwf, ?_⟩
    simp only [hentries]
    exact hmok.kernel
  obtain ⟨post', hdone, hleft, hview⟩ := deleteLoop_spec hr hstop m.entries.length hok'
    (hentries.trans hmhint.1) (by rw [hmhint.1]; simp) hhints
    fun e he => hs.inTransition htrans e (mem_append_right _ he)
  refine ⟨hdone, ?_⟩
  rw [hleft]
  exact hs.updatesRange rfl hview

end

/-! ## Giving up references -/

section
variable {α : Type*} {k : Kernel α} {turns : ℕ} {out : Target → ℕ}

theorem bytes_aligned (x : ℕ) : letI := bytes; PageAligned x := one_dvd x

theorem Kernel.Sound.vmObjectDeallocate {x : Option ObjId}
    (h : k.Sound turns (Held out (x.map .object))) : (k.vmObjectDeallocate x).Sound turns out := by
  obtain ⟨hcounted, hmaps⟩ := h.counted.vmObjectDeallocate
  exact ⟨hcounted, hmaps ▸ h.subMaps, hmaps ▸ h.few⟩

theorem eq_nil_of_view {l : List VmMapEntry} (hne : ∀ e ∈ l, e.vmeStart < e.vmeEnd)
    (h : ∀ x, view l x = none) : l = [] := by
  cases l with
  | nil => rfl
  | cons e l =>
    have hc : e.Covers e.vmeStart := ⟨le_refl _, hne e mem_cons_self⟩
    have := h e.vmeStart
    rw [view_cons, if_pos hc] at this
    cases this

variable {j : ℕ} {sm : SubMap}

theorem Kernel.entries_filter (hd : Distinct SubMap.id k.maps)
    (hsm : k.maps.find? (fun s => s.id = j) = some sm) (t : Target) :
    refsTo t (k.maps.flatMap fun s => s.map.entries) =
      refsTo t ((k.maps.filter fun s => s.id ≠ j).flatMap fun s => s.map.entries) +
        refsTo t sm.map.entries := by
  obtain ⟨pre, post, hsplit⟩ := append_of_mem (mem_of_find?_eq_some hsm)
  have hid : sm.id = j := by simpa using find?_some hsm
  rw [hsplit] at hd ⊢
  rw [← hid, filter_split hd]
  simp only [flatMap_append, flatMap_cons, Kernel.refsTo_append]
  omega

theorem Kernel.Sound.takeMap (h : k.Sound (turns + 1) (Held out (some (.map j))))
    (hsm : k.maps.find? (fun s => s.id = j) = some sm) (hlast : ¬ 0 < sm.refCount - 1) :
    Kernel.Sound turns { k with maps := k.maps.filter fun s => s.id ≠ j }
      fun t => out t + refsTo t sm.map.entries := by
  have hmem := mem_of_find?_eq_some hsm
  have hid : sm.id = j := by simpa using find?_some hsm
  refine ⟨⟨fun t => ?_, h.counted.below, h.counted.cached, ?_, h.counted.cachedOnce⟩, ?_, ?_⟩
  · have hc := h.counted.count t
    have hrefs := k.entries_filter h.counted.distinct hsm t
    rcases t with o | i
    · simp only [Kernel.refCount_object, Kernel.links_object, Held] at hc ⊢
      simp only [Option.some.injEq, reduceCtorEq, if_false] at hc
      omega
    · simp only [Kernel.refCount_map, Kernel.links_map, Held] at hc ⊢
      rcases eq_or_ne i j with rfl | hne
      · have hnone : (k.maps.filter fun s => s.id ≠ i).find? (fun s => s.id = i) = none := by
          rw [find?_eq_none]
          intro a ha
          simpa using (mem_filter.mp ha).2
        simp only [hsm, map_some, getD_some, if_true] at hc
        rw [hnone, map_none, getD_none]
        omega
      · have hsame : (k.maps.filter fun s => s.id ≠ j).find? (fun s => s.id = i) =
            k.maps.find? fun s => s.id = i := by
          rw [find?_filter]
          congr 1
          funext a
          by_cases ha : a.id = i
          · simp [ha, hne]
          · simp [ha]
        rw [hsame]
        simp only [Option.some.injEq, Target.map.injEq, hne.symm, if_false] at hc
        omega
  · exact h.counted.distinct.sublist (filter_sublist.map _)
  · exact fun s hs => h.subMaps s (mem_filter.mp hs).1
  · have hlt : (k.maps.filter fun s => s.id ≠ j).length < k.maps.length := by
      apply length_filter_lt_length_iff_exists.mpr
      exact ⟨sm, hmem, by simp [hid]⟩
    have := h.few
    show (k.maps.filter fun s => s.id ≠ j).length ≤ turns
    omega

theorem Kernel.Sound.dropMap (h : k.Sound turns (Held out (some (.map j)))) :
    Kernel.Sound turns { k with
      maps := update SubMap.id j (fun s => { s with refCount := s.refCount - 1 }) k.maps } out := by
  have hpos := h.counted.refCount_pos (t := .map j) (by simp [Held])
  obtain ⟨sm, hsm, -⟩ := Kernel.maps_of_refCount hpos
  refine ⟨⟨fun t => ?_, h.counted.below, h.counted.cached, ?_, h.counted.cachedOnce⟩, ?_, ?_⟩
  · have hc := h.counted.count t
    have hentries := Kernel.entries_update (j := j)
      (f := fun s => { s with refCount := s.refCount - 1 }) (fun _ => rfl) k.maps
    rcases t with o | i
    · simp only [Kernel.refCount_object, Kernel.links_object, Held, hentries] at hc ⊢
      simpa using hc
    · have hfind := @find_update _ SubMap.id (fun s => { s with refCount := s.refCount - 1 })
        (fun _ => rfl) j i k.maps
      simp only [Kernel.refCount_map, Kernel.links_map, Held, hentries, hfind] at hc ⊢
      rcases eq_or_ne i j with rfl | hne
      · simp only [hsm, map_some, getD_some, if_true] at hc ⊢
        omega
      · simp only [Option.some.injEq, Target.map.injEq, hne, hne.symm, if_false,
          Option.map_id'] at hc ⊢
        omega
  · have hids : (update SubMap.id j (fun s => { s with refCount := s.refCount - 1 })
        k.maps).map SubMap.id = k.maps.map SubMap.id :=
      map_update (f := fun s => { s with refCount := s.refCount - 1 }) (g := SubMap.id)
        (fun _ => rfl) j k.maps
    unfold Distinct
    rw [hids]
    exact h.counted.distinct
  · intro s hs
    obtain ⟨a, ha, rfl⟩ := mem_map.mp hs
    split_ifs
    · exact h.subMaps a ha
    · exact h.subMaps a ha
  · simpa [update] using h.few

theorem releases_vmMapDeallocate (α : Type*) (turns : ℕ) :
    Releases turns (@Kernel.releaseEntry α (Kernel.vmMapDeallocate turns)) := by
  induction turns with
  | zero =>
    intro k e out h
    unfold Kernel.releaseEntry
    cases ht : e.target with
    | none => simpa [ht] using h
    | some t =>
      rw [ht] at h
      cases t with
      | object o => exact Kernel.Sound.vmObjectDeallocate (x := some o) h
      | map j =>
        -- there is no map left to point to
        have hpos := h.counted.refCount_pos (t := .map j) (by simp [Held])
        have hnil := eq_nil_of_length_eq_zero (Nat.le_zero.mp h.few)
        simp [Kernel.refCount_map, hnil] at hpos
  | succ turns ih =>
    intro k e out h
    unfold Kernel.releaseEntry
    cases ht : e.target with
    | none => simpa [ht] using h
    | some t =>
      rw [ht] at h
      cases t with
      | object o => exact Kernel.Sound.vmObjectDeallocate (x := some o) h
      | map j =>
        have hpos := h.counted.refCount_pos (t := .map j) (by simp [Held])
        obtain ⟨sm, hsm, -⟩ := Kernel.maps_of_refCount hpos
        simp only [Kernel.vmMapDeallocate, hsm]
        split_ifs with hmore
        · exact h.dropMap
        · have htake := h.takeMap hsm hmore
          obtain ⟨hwf, htrans⟩ := h.subMaps sm (mem_of_find?_eq_some hsm)
          let _ := bytes
          have hsm : MapState.Ok turns out
              ⟨{ k with maps := k.maps.filter fun s => s.id ≠ j }, sm.map⟩ := ⟨hwf, htake⟩
          obtain ⟨hok, hu⟩ := hsm.deleteRange ih (bytes_aligned sm.map.minOffset)
            (bytes_aligned sm.map.maxOffset) htrans
          -- nothing is left in the map
          have hnil := eq_nil_of_view hok.map.nonempty fun x => by
            rw [hu x]
            split_ifs with hx
            · rfl
            · by_contra hmapped
              exact hx (hwf.view_bounds hmapped)
          have hsound := hok.kernel
          simp only [hnil, Kernel.refsTo_nil, Nat.add_zero] at hsound
          exact ⟨hsound.counted, hsound.subMaps, hsound.few.trans (Nat.le_succ _)⟩

end

/-! ## Merging two entries -/

section
variable [PageSize] {α : Type*} {s : MapState α} {turns : ℕ} {out : Target → ℕ}
variable {pre post : List VmMapEntry} {a b : VmMapEntry} {start : ℕ} {isMainMap : Bool}

omit [PageSize] in
theorem view_merge (hm : MapState.mergeable isMainMap start a b) (hab : b.vmeStart = start)
    (ha : a.vmeStart ≤ start) (hb : start ≤ b.vmeEnd) (hmod : b.vmeEnd < modulus) (x : ℕ) :
    view [{ a with vmeEnd := b.vmeEnd }] x = view [a, b] x := by
  obtain ⟨hend, -, hamap, hasub, hbmap, hbsub, hinh, hprot, hmax, hwired, huser, hneeds, hobj,
    hoff⟩ := hm
  have hlow : a = ({ a with vmeEnd := b.vmeEnd } : VmMapEntry).low a.id start := by
    rw [VmMapEntry.low, ← hend]
  have htarget : a.target = b.target := by
    simp only [VmMapEntry.target, hamap, hasub, hbmap, hbsub, hobj]
  have hpage : ∀ x, b.page x =
      (({ a with vmeEnd := b.vmeEnd } : VmMapEntry).high b.id start).page x := by
    intro x
    have hoff' : add a.offset (sub start a.vmeStart) = b.offset := by rw [← hend, hoff]
    have htarget' : (({ a with vmeEnd := b.vmeEnd } : VmMapEntry).high b.id start).target =
        b.target := htarget
    simp only [VmMapEntry.page, htarget']
    simp only [VmMapEntry.high, hoff', hab, hinh, hprot, hmax, hwired, huser, hneeds]
  have hcovers : b.Covers x ↔ (({ a with vmeEnd := b.vmeEnd } : VmMapEntry).high b.id start).Covers
      x := by
    simp only [VmMapEntry.Covers, VmMapEntry.high, hab]
  have hhigh : view [b] x =
      view [({ a with vmeEnd := b.vmeEnd } : VmMapEntry).high b.id start] x := by
    simp only [view_cons, view_nil, hcovers, hpage]
  rw [← view_split (e := { a with vmeEnd := b.vmeEnd }) ha hb hmod a.id b.id x,
    ← singleton_append, view_append, ← hhigh, ← hlow, ← view_append, singleton_append]

theorem VmMap.WellFormed.merge {m m' : VmMap} (h : m.WellFormed)
    (hsplit : m.entries = pre ++ a :: b :: post) (hab : a.vmeEnd = b.vmeStart)
    (hentries : m'.entries = pre ++ { a with vmeEnd := b.vmeEnd } :: post)
    (hhead : m'.minOffset = m.minOffset ∧ m'.maxOffset = m.maxOffset ∧ m'.size = m.size ∧
      m'.nextId = m.nextId) (hn : m'.nentries = m.nentries - 1)
    (hhints : m'.HintsIn m'.entries) : m'.WellFormed := by
  obtain ⟨hmin, hmax, hsize, hnext⟩ := hhead
  have hmem : a ∈ m.entries ∧ b ∈ m.entries := by
    rw [hsplit]
    simp
  have hina := h.inside a hmem.1
  have hinb := h.inside b hmem.2
  have hnea := h.nonempty a hmem.1
  have hneb := h.nonempty b hmem.2
  have hseg := h.segment
  rw [hsplit] at hseg
  have hasc := hseg.ascending
  have hseg' : Segment m.minOffset m.maxOffset m'.entries := by
    have hpre : Segment m.minOffset a.vmeStart pre :=
      hseg.left fun c hc => hasc.le_of_mem hc mem_cons_self
    have hpost : Segment b.vmeEnd m.maxOffset post := by
      have hassoc : pre ++ a :: b :: post = (pre ++ [a, b]) ++ post := by simp
      rw [hassoc] at hseg hasc
      exact hseg.right fun c hc => hasc.le_of_mem (by simp) hc
    have hmid : Segment a.vmeStart b.vmeEnd [{ a with vmeEnd := b.vmeEnd }] :=
      Segment.single rfl rfl (by omega) (h.aligned a hmem.1).1 (h.aligned b hmem.2).2
    rw [hentries, append_cons]
    exact (hpre.append hmid hina.1 (by omega)).append hpost (by omega) hinb.2
  have hnames : ∀ c ∈ m'.entries, ∃ d ∈ m.entries, d.id = c.id := by
    intro c hc
    rw [hentries] at hc
    rw [hsplit]
    rcases mem_append.mp hc with hc | hc
    · exact ⟨c, by simp [hc], rfl⟩
    · rcases mem_cons.mp hc with rfl | hc
      · exact ⟨a, by simp, rfl⟩
      · exact ⟨c, by simp [hc], rfl⟩
  refine ⟨hseg'.ascending, hseg'.nonempty, hseg'.aligned, ?_, ?_, ?_, ?_, ?_, ?_, hhints.1,
    hhints.2⟩
  · rw [hmin, hmax]
    exact hseg'.inside
  · have := h.nentries
    rw [hsplit] at this
    simp only [length_append, length_cons] at this
    rw [hn, hentries]
    simp only [length_append, length_cons]
    omega
  · have := h.size
    rw [hsplit] at this
    rw [hsize, hentries]
    simp only [sizeSum_append, sizeSum_cons] at this ⊢
    omega
  · rw [hmin, hmax]
    exact h.bounds
  · have hd := h.distinct
    rw [hsplit] at hd
    have hsub : (m'.entries.map VmMapEntry.id).Sublist
        ((pre ++ a :: b :: post).map VmMapEntry.id) := by
      rw [hentries]
      simp only [map_append, map_cons]
      exact ((sublist_cons_self b.id _).cons_cons a.id).append_left _
    exact List.Nodup.sublist hsub hd
  · intro c hc
    obtain ⟨d, hdm, hid⟩ := hnames c hc
    rw [hnext, ← hid]
    exact h.nextId d hdm

theorem MapState.Ok.merge (h : s.Ok turns out) (hsplit : s.map.entries = pre ++ a :: b :: post)
    (hm : MapState.mergeable isMainMap start a b) (hc : b.Covers start) :
    (s.merge a b).Ok turns out ∧ ∀ x, view (s.merge a b).map.entries x = view s.map.entries x := by
  have hmem : a ∈ s.map.entries ∧ b ∈ s.map.entries := by
    rw [hsplit]
    simp
  have hasc := h.map.ascending
  have hd := h.map.distinct
  rw [hsplit] at hasc hd
  have hle : a.vmeEnd ≤ b.vmeStart := by
    rw [append_cons] at hasc
    exact hasc.le_of_mem (by simp) mem_cons_self
  have hstart : a.vmeEnd = start := hm.1
  have hab : b.vmeStart = start := le_antisymm hc.1 (by omega)
  have hnea := h.map.nonempty a hmem.1
  have hinb := h.map.inside b hmem.2
  have hbound := h.map.bounds
  have htarget : b.target = b.object.map .object := by
    simp [VmMapEntry.target, hm.2.2.2.2.1, hm.2.2.2.2.2.1]
  have hentries : (s.merge a b).map.entries = pre ++ { a with vmeEnd := b.vmeEnd } :: post := by
    have hfilter : (pre ++ a :: b :: post).filter (fun e => e.id ≠ b.id) = pre ++ a :: post := by
      rw [append_cons] at hd ⊢
      rw [filter_split hd]
      simp
    have hd' : Distinct VmMapEntry.id (pre ++ a :: post) := by
      rw [← hfilter]
      exact hd.sublist (filter_sublist.map _)
    have hupdate : Linked.update VmMapEntry.id a.id (fun e => { e with vmeEnd := b.vmeEnd })
        (pre ++ a :: post) = pre ++ { a with vmeEnd := b.vmeEnd } :: post := update_split hd' _
    unfold MapState.merge VmMap.entryUnlink VmMap.saveHint
    dsimp only
    split_ifs
    · dsimp only
      rw [hsplit, hfilter, hupdate]
    · rw [hsplit, hfilter, hupdate]
  have hfirstFree : (s.merge a b).map.firstFree = some a.id ∨
      (s.merge a b).map.firstFree = s.map.firstFree ∧ s.map.firstFree ≠ some b.id := by
    unfold MapState.merge VmMap.entryUnlink VmMap.saveHint
    dsimp only
    split_ifs with hff
    · exact .inl rfl
    · exact .inr ⟨rfl, hff⟩
  have hhead : (s.merge a b).map.minOffset = s.map.minOffset ∧
      (s.merge a b).map.maxOffset = s.map.maxOffset ∧ (s.merge a b).map.size = s.map.size ∧
      (s.merge a b).map.nextId = s.map.nextId ∧
      (s.merge a b).map.nentries = s.map.nentries - 1 := by
    unfold MapState.merge VmMap.entryUnlink VmMap.saveHint
    dsimp only
    split_ifs <;> exact ⟨rfl, rfl, rfl, rfl, rfl⟩
  have hhints : (s.merge a b).map.HintsIn (s.merge a b).map.entries := by
    rw [hentries]
    refine ⟨fun i hi => ?_, fun i hi => ?_⟩
    · cases some.inj (show some a.id = some i from hi)
      simp
    · rcases hfirstFree with heq | ⟨heq, hne⟩
      · rw [hi] at heq
        cases some.inj heq
        simp
      · rw [heq] at hi
        have hold := h.map.firstFree i hi
        rw [hsplit] at hold
        simp only [map_append, map_cons, mem_append, mem_cons] at hold ⊢
        rcases hold with hold | rfl | rfl | hold
        · exact .inl hold
        · exact .inr (.inl rfl)
        · exact absurd hi hne
        · exact .inr (.inr hold)
  refine ⟨⟨h.map.merge hsplit (by omega) hentries
    ⟨hhead.1, hhead.2.1, hhead.2.2.1, hhead.2.2.2.1⟩ hhead.2.2.2.2 hhints, ?_⟩, fun x => ?_⟩
  · have hkernel : (s.merge a b).kernel = s.kernel.vmObjectDeallocate b.object := rfl
    rw [hkernel]
    refine Kernel.Sound.vmObjectDeallocate ?_
    have hsum : Held (fun t => out t + refsTo t (s.merge a b).map.entries) (b.object.map .object) =
        fun t => out t + refsTo t s.map.entries := by
      funext t
      have ha' : ({ a with vmeEnd := b.vmeEnd } : VmMapEntry).target = a.target := rfl
      simp only [Held, hentries, hsplit, Kernel.refsTo_append, Kernel.refsTo_cons, htarget, ha']
      omega
    rw [hsum]
    exact h.kernel
  · have htwo : pre ++ a :: b :: post = pre ++ ([a, b] ++ post) := rfl
    rw [hentries, hsplit, htwo, ← singleton_append, view_append, view_append, view_append,
      view_append, view_merge hm hab (by omega) hc.2.le (by omega)]

/-- `vm_map_simplify` changes no page. -/
theorem MapState.Ok.vmMapSimplify (h : s.Ok turns out) (isMainMap : Bool) (start : ℕ) :
    (s.vmMapSimplify isMainMap start).Ok turns out ∧
      ∀ x, view (s.vmMapSimplify isMainMap start).map.entries x = view s.map.entries x := by
  obtain ⟨found, hint, pre, post, hlook, hhint, hsplit, hpost, hcase⟩ :=
    h.map.lock.lookupEntry_spec start
  have hs : MapState.Ok turns out ⟨s.kernel, s.map.lock.saveHint hint⟩ :=
    ⟨h.map.lock.saveHint hhint, h.kernel⟩
  unfold MapState.vmMapSimplify
  rcases hcase with ⟨rfl, -⟩ | ⟨rfl, init, b, rfl, -, hlo, hhi⟩
  · rw [hlook]
    exact ⟨hs, fun _ => rfl⟩
  · have hplace : last VmMapEntry.id (init ++ [b]) = some b.id := by simp [last]
    rw [hlook, hplace]
    have hsplit' : (s.map.lock.saveHint hint).entries = init ++ b :: post := by
      rw [append_cons]
      exact hsplit
    have hd := hs.map.distinct
    rw [hsplit'] at hd
    have hprev : (s.map.lock.saveHint hint).prev (some b.id) = last VmMapEntry.id init := by
      rw [VmMap.prev, hsplit', takeWhile_split hd]
    have hat := hs.entryAt_split hsplit'
    simp only at hat
    simp only [hprev, hat]
    rcases eq_nil_or_concat' init with rfl | ⟨init, a, rfl⟩
    · exact ⟨hs, fun _ => rfl⟩
    · have hlast : last VmMapEntry.id (init ++ [a]) = some a.id := by simp [last]
      have hsplit'' : (s.map.lock.saveHint hint).entries = init ++ a :: b :: post := by
        rw [hsplit']
        simp
      have hata := hs.entryAt_split hsplit''
      simp only at hata
      simp only [hlast, bind_some, hata]
      split_ifs with hm
      · exact hs.merge hsplit'' hm ⟨hlo, hhi⟩
      · exact ⟨hs, fun _ => rfl⟩

end

/-! ## Ranges of a map -/

section
variable {α : Type*} {s : MapState α} {out : Target → ℕ}

/-- A well-formed map whose entries, with the references `out`, are what is counted. -/
def MapState.Accounted (s : MapState α) (out : Target → ℕ) : Prop :=
  ∃ turns, @MapState.Ok bytes α turns out s

/-- An operation keeps the map well formed and every count right, and updates a range. -/
def MapState.Updates (s : MapState α) (out : Target → ℕ) (s' : MapState α) (start stop : ℕ)
    (g : Option PageView → Option PageView) : Prop :=
  s'.Accounted out ∧ UpdatesRange s.map.entries s'.map.entries start stop g

/-- An operation keeps the map well formed, every count right and every page as it is. -/
def MapState.SamePages (s : MapState α) (out : Target → ℕ) (s' : MapState α) : Prop :=
  s'.Accounted out ∧ ∀ x, view s'.map.entries x = view s.map.entries x

/-- The protections of a page that `vm_map_protect` has changed: with a new maximum the current
protection is cut down to it. -/
def PageView.protect (newProt : VmProt) (setMax : Bool) (p : PageView) : PageView :=
  if setMax then { p with maxProtection := newProt, protection := newProt.and p.protection }
  else { p with protection := newProt }

def PageView.inherit (newInheritance : VmInherit) (p : PageView) : PageView :=
  { p with inheritance := newInheritance }

variable {turns start stop : ℕ}

theorem MapState.Ok.vmMapDelete [PageSize] (h : s.Ok turns out)
    (hstart : PageAligned start) (hstop : PageAligned stop)
    (htrans : ∀ e ∈ s.map.entries, e.inTransition = false) :
    (s.vmMapDelete start stop).2.Ok s.kernel.maps.length out ∧
      UpdatesRange s.map.entries (s.vmMapDelete start stop).2.map.entries start stop
        fun _ => none := by
  have h' : s.Ok s.kernel.maps.length out := ⟨h.map, h.kernel.counted, h.kernel.subMaps, le_refl _⟩
  exact h'.deleteRange (releases_vmMapDeallocate α _) hstart hstop htrans

theorem VmMap.WellFormed.rangeCheck_aligned [PageSize] {m : VmMap} (h : m.WellFormed)
    (hstart : PageAligned start) (hstop : PageAligned stop)
    (hmax : PageAligned m.maxOffset) : PageAligned (m.rangeCheck start stop).1 ∧
      PageAligned (m.rangeCheck start stop).2 := by
  have hmin := h.bounds.2.2
  simp only [VmMap.rangeCheck]
  split_ifs <;> exact ⟨by assumption, by assumption⟩

theorem vmMapRange_aligned [PageSize] (h : s.Ok turns out)
    (hstart : PageAligned start) (hstop : PageAligned stop) (hmax : PageAligned s.map.maxOffset) :
    (∀ newProt setMax, (s.vmMapProtect start stop newProt setMax).2.map.WellFormed) ∧
    (∀ value, (s.vmMapInherit start stop value).2.map.WellFormed) ∧
    ((∀ e ∈ s.map.entries, e.inTransition = false) →
      (s.vmMapDelete start stop).2.map.WellFormed ∧ (s.vmMapRemove start stop).2.map.WellFormed) ∧
    ∀ isMainMap, (s.vmMapSimplify isMainMap start).map.WellFormed := by
  obtain ⟨hlo, hhi⟩ := h.map.rangeCheck_aligned hstart hstop hmax
  refine ⟨fun newProt setMax => ?_, fun value => ?_, fun htrans => ⟨?_, ?_⟩, fun isMainMap => ?_⟩
  · exact (h.vmMapProtect newProt setMax hlo hhi).1.map
  · exact (h.vmMapInherit value hlo hhi).1.map
  · exact (h.vmMapDelete hstart hstop htrans).1.map
  · exact (h.lock.vmMapDelete hlo hhi htrans).1.map
  · exact (h.vmMapSimplify isMainMap start).1.map

/-- The operations on a range, page by page; from a map that is well formed with respect to pages
they leave one that is. -/
theorem vmMapRange_pages (h : s.Accounted out) (start stop : ℕ) :
    (∀ newProt setMax, let r := s.vmMapProtect start stop newProt setMax
      r.1 = .success ∧ s.Updates out r.2 start stop (Option.map (PageView.protect newProt setMax)) ∨
        (r.1 = .invalidArgument ∨ r.1 = .protectionFailure) ∧ s.SamePages out r.2) ∧
    (∀ value, let r := s.vmMapInherit start stop value
      r = (.invalidArgument, s) ∧ vmInheritOf value = none ∨
        ∃ i, vmInheritOf value = some i ∧ r.1 = .success ∧
          s.Updates out r.2 start stop (Option.map (PageView.inherit i))) ∧
    ((∀ e ∈ s.map.entries, e.inTransition = false) →
      s.Updates out (s.vmMapDelete start stop).2 start stop (fun _ => none) ∧
        s.Updates out (s.vmMapRemove start stop).2 start stop fun _ => none) ∧
    (∀ e ∈ s.map.entries, e.Covers start → s.SamePages out (s.clipStart e.id start)) ∧
    (∀ e ∈ s.map.entries, e.vmeStart < stop → s.SamePages out (s.clipEnd e.id stop)) ∧
    (∀ isMainMap, s.SamePages out (s.vmMapSimplify isMainMap start)) ∧
    ∀ [PageSize], s.map.WellFormed → PageAligned start → PageAligned stop →
      PageAligned s.map.maxOffset →
      (∀ newProt setMax, (s.vmMapProtect start stop newProt setMax).2.map.WellFormed) ∧
      (∀ value, (s.vmMapInherit start stop value).2.map.WellFormed) ∧
      ((∀ e ∈ s.map.entries, e.inTransition = false) →
        (s.vmMapDelete start stop).2.map.WellFormed ∧ (s.vmMapRemove start stop).2.map.WellFormed) ∧
      ∀ isMainMap, (s.vmMapSimplify isMainMap start).map.WellFormed := by
  obtain ⟨turns, h⟩ := h
  have hkernel := @MapState.Ok.kernel bytes _ _ _ _ h
  have hpages : ∀ [PageSize], s.map.WellFormed → s.Ok turns out := fun hwf => ⟨hwf, hkernel⟩
  let _ := bytes
  refine ⟨fun newProt setMax => ?_, fun value => ?_, fun htrans => ⟨?_, ?_⟩, fun e he hc => ?_,
    fun e he hlt => ?_, fun isMainMap => ?_,
    fun hwf hstart hstop hmax => vmMapRange_aligned (hpages hwf) hstart hstop hmax⟩
  · obtain ⟨hok, ⟨hr, hu⟩ | ⟨hr, hsame⟩⟩ := h.vmMapProtect newProt setMax (bytes_aligned _)
      (bytes_aligned _)
    · exact .inl ⟨hr, ⟨turns, hok⟩, hu⟩
    · exact .inr ⟨hr, ⟨turns, hok⟩, hsame⟩
  · obtain ⟨hok, hr | ⟨i, hi, hr, hu⟩⟩ := h.vmMapInherit value (bytes_aligned _) (bytes_aligned _)
    · exact .inl hr
    · exact .inr ⟨i, hi, hr, ⟨turns, hok⟩, hu⟩
  · obtain ⟨hok, hu⟩ := h.vmMapDelete (bytes_aligned start) (bytes_aligned stop) htrans
    exact ⟨⟨_, hok⟩, hu⟩
  · obtain ⟨hok, hu⟩ := h.lock.vmMapDelete (bytes_aligned (s.map.rangeCheck start stop).1)
      (bytes_aligned (s.map.rangeCheck start stop).2) htrans
    exact ⟨⟨_, hok⟩, UpdatesRange.rangeCheck h.map rfl hu⟩
  · obtain ⟨pre, post, hsplit⟩ := append_of_mem he
    obtain ⟨e', front, hcut⟩ := h.clipStart hsplit (bytes_aligned start) hc
    refine ⟨⟨turns, hcut.ok⟩, fun x => ?_⟩
    have hnew : pre ++ front ++ e' :: post = pre ++ ((front ++ [e']) ++ post) := by simp
    have hold : pre ++ e :: post = pre ++ ([e] ++ post) := rfl
    rw [hcut.entries, hsplit, hnew, hold]
    simp only [view_append, ← hcut.view]
  · obtain ⟨pre, post, hsplit⟩ := append_of_mem he
    obtain ⟨e', back, hcut⟩ := h.clipEnd hsplit (bytes_aligned stop) hlt
    refine ⟨⟨turns, hcut.ok⟩, fun x => ?_⟩
    have hnew : pre ++ e' :: (back ++ post) = pre ++ ((e' :: back) ++ post) := rfl
    have hold : pre ++ e :: post = pre ++ ([e] ++ post) := rfl
    rw [hcut.entries, hsplit, hnew, hold]
    rw [view_append, view_append, view_append, view_append, hcut.view]
  · obtain ⟨hok, hsame⟩ := h.vmMapSimplify isMainMap start
    exact ⟨⟨turns, hok⟩, hsame⟩

/-- Sixteen bytes of memory that may be written, in a map of 32. -/
def writableEntry : VmMapEntry where
  id := 0
  vmeStart := 0
  vmeEnd := 16
  object := none
  offset := 0
  isAMap := false
  isSubMap := false
  inTransition := false
  needsWakeup := false
  needsCopy := false
  protection := vmProtDefault
  maxProtection := vmProtAll
  inheritance := vmInheritDefault
  wiredCount := 0
  userWiredCount := 0

def writableMap : MapState ℕ where
  kernel :=
    { store := ⟨fun _ => none, 0, fun _ => none, fun _ _ => none⟩
      canPersist := fun _ => false
      cachedList := []
      cachedMax := 100
      maps := [] }
  map :=
    { VmMap.create 0 32 with
      entries := [writableEntry]
      nentries := 1
      size := 16
      nextId := 1 }

theorem writableMap_accounted : writableMap.Accounted fun _ => 0 := by
  let _ := bytes
  refine ⟨0, ⟨?_, ?_, ?_, ?_, rfl, rfl, ?_, ?_, ?_, ?_, ?_⟩,
    ⟨⟨fun t => ?_, ?_, ?_, .nil, .nil⟩, ?_, ?_⟩⟩
  · exact pairwise_singleton _ _
  · simp [writableMap, writableEntry]
  · exact fun e _ => ⟨bytes_aligned _, bytes_aligned _⟩
  · simp [writableMap, writableEntry, VmMap.create]
  · exact ⟨by decide, by decide, bytes_aligned _⟩
  · simp [writableMap, Distinct]
  · simp [writableMap, writableEntry]
  · simp [writableMap, VmMap.create]
  · simp [writableMap, VmMap.create]
  · cases t with
    | object o => rfl
    | map j => rfl
  · simp [writableMap]
  · simp [writableMap]
  · simp [writableMap]
  · simp [writableMap]

theorem vmMapRange_pages_writable : view (writableMap.vmMapDelete 4 8).2.map.entries 5 =
    if 4 ≤ 5 ∧ 5 < 8 then none else view writableMap.map.entries 5 :=
  ((vmMapRange_pages writableMap_accounted 4 8).2.2.1 (by simp [writableMap, writableEntry])).1.2 5

/-- A new maximum takes the right to write away, so more than the maximum changes. -/
theorem vmMapProtect_setMax :
    let readOnly : VmProt := ⟨true, false, false⟩
    let r := writableMap.vmMapProtect 0 16 readOnly true
    writableMap.Accounted (fun _ => 0) ∧ r.1 = .success ∧
      ∃ p q, view writableMap.map.entries 0 = some p ∧ view r.2.map.entries 0 = some q ∧
        q.maxProtection = readOnly ∧ p.protection ≠ q.protection := by
  refine ⟨writableMap_accounted, by decide, writableEntry.page 0,
    { writableEntry.page 0 with
      maxProtection := ⟨true, false, false⟩, protection := ⟨true, false, false⟩ }, ?_⟩
  decide

end

/-! ## Runs of calls on ranges -/

/-- A call on a range of a map. -/
inductive RangeCall
  | protect (start stop : ℕ) (newProt : VmProt) (setMax : Bool)
  | inherit (start stop value : ℕ)
  | remove (start stop : ℕ)
  | simplify (isMainMap : Bool) (start : ℕ)

namespace RangeCall
variable {α : Type*} {s : MapState α} {out : Target → ℕ}

def step (s : MapState α) : RangeCall → Option (KernReturn × MapState α)
  | .protect start stop newProt setMax => some (s.vmMapProtect start stop newProt setMax)
  | .inherit start stop value => some (s.vmMapInherit start stop value)
  | .remove start stop => some (s.vmMapRemove start stop)
  | .simplify isMainMap start => some (.success, s.vmMapSimplify isMainMap start)

/-- A range is removed only when no entry of the map is in transition. -/
def Quiet (s : MapState α) : RangeCall → Prop
  | .remove _ _ => ∀ e ∈ s.map.entries, e.inTransition = false
  | _ => True

/-- What a call that succeeds makes of the page at an address. -/
def page (x : ℕ) (p : Option PageView) : RangeCall → Option PageView
  | .protect start stop newProt setMax =>
    if start ≤ x ∧ x < stop then p.map (.protect newProt setMax) else p
  | .inherit start stop value =>
    if start ≤ x ∧ x < stop then (vmInheritOf value).elim p fun i => p.map (.inherit i) else p
  | .remove start stop => if start ≤ x ∧ x < stop then none else p
  | .simplify _ _ => p

/-- The pages change as the call says, or stay as they are when it fails. -/
def Pages (out : Target → ℕ) (v : ℕ → Option PageView) (c : RangeCall) (r : KernReturn)
    (v' : ℕ → Option PageView) (s' : MapState α) : Prop :=
  s'.Accounted out ∧ view s'.map.entries = v' ∧
    ∀ x, v' x = if r = .success then c.page x (v x) else v x

theorem step_pages (h : s.Accounted out) {c : RangeCall} (hc : c.Quiet s) : ∃ q, c.step s = some q ∧
    Pages out (view s.map.entries) c q.1 (view q.2.map.entries) q.2 := by
  obtain ⟨turns, h⟩ := h
  let _ := bytes
  cases c with
  | protect start stop newProt setMax =>
    obtain ⟨hok, hu⟩ := h.vmMapProtect newProt setMax (bytes_aligned _) (bytes_aligned _)
    refine ⟨s.vmMapProtect start stop newProt setMax, rfl, ⟨_, hok⟩, rfl, fun x => ?_⟩
    obtain ⟨hr, hu⟩ | ⟨hr | hr, hsame⟩ := hu
    · rw [if_pos hr]
      exact hu x
    all_goals
      rw [if_neg (by simp [hr])]
      exact hsame x
  | inherit start stop value =>
    obtain ⟨hok, hu⟩ := h.vmMapInherit value (bytes_aligned _) (bytes_aligned _)
    refine ⟨s.vmMapInherit start stop value, rfl, ⟨_, hok⟩, rfl, fun x => ?_⟩
    obtain ⟨hr, -⟩ | ⟨i, hi, hr, hu⟩ := hu
    · rw [hr]
      rfl
    · rw [if_pos hr, page, hi]
      exact hu x
  | remove start stop =>
    obtain ⟨hok, hu⟩ := h.lock.vmMapDelete (bytes_aligned _) (bytes_aligned _) hc
    exact ⟨s.vmMapRemove start stop, rfl, ⟨_, hok⟩, rfl, UpdatesRange.rangeCheck h.map rfl hu⟩
  | simplify isMainMap start =>
    obtain ⟨hok, hsame⟩ := h.vmMapSimplify isMainMap start
    exact ⟨(.success, s.vmMapSimplify isMainMap start), rfl, ⟨_, hok⟩, rfl, hsame⟩

/-- A map under any sequence of such calls is, page by page, what the calls that succeed make of it
one after the other; it stays well formed, and every reference stays counted. -/
theorem run_pages {calls : List RangeCall} (h : s.Accounted out)
    (hcalls : Runs.Along step Quiet s calls) :
    Runs.Does step (Pages out) s (view s.map.entries) calls :=
  Runs.Does.of_simulation (fun s v => s.Accounted out ∧ view s.map.entries = v)
    (fun _ _ _ ⟨h, hv⟩ hc => by
      obtain ⟨q, hstep, hpages⟩ := step_pages h hc
      exact ⟨q.1, q.2, _, hstep, hv ▸ hpages, hpages.1, rfl⟩) ⟨h, rfl⟩ hcalls

theorem run_pages_writable : Runs.Does step (Pages fun _ => 0) writableMap
    (view writableMap.map.entries) [.protect 4 8 ⟨true, false, false⟩ false, .simplify true 8] :=
  run_pages writableMap_accounted ⟨trivial, fun _ _ => ⟨trivial, fun _ _ => trivial⟩⟩

end RangeCall

end MachKernel.Vm
