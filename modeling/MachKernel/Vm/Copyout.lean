import MachKernel.Vm.MapCopyOwned

/-! What `vm_map_copyout` and `vm_map_copy_overwrite` leave of a copy. -/

namespace MachKernel.Vm
open Function List
open Word32 Linked Links

/-! ## The contract -/

def PagePlace.isStolen : PagePlace → Bool
  | .stolen _ => true
  | _ => false

/-- The continuation, with those that it leads to, returns the last `n` pages of a list. -/
def Cont.Delivers : ℕ → Cont → Prop
  | _, .fails result => result ≠ .success
  | n, .null => n = 0
  | n, .pageList _ _ pages none => pages.length = n
  | n, .pageList _ _ pages (some cont) => pages.length ≤ n ∧ cont.Delivers (n - pages.length)

/-- No continuation of the chain fails. -/
def Cont.Succeeds : Cont → Prop
  | .fails _ => False
  | .null => True
  | .pageList _ _ _ none => True
  | .pageList _ _ _ (some cont) => cont.Succeeds

namespace MapCopy
variable (copy : MapCopy)

/-- The references that a copy holds. -/
def refs (t : Target) : ℕ :=
  match copy.body with
  | .entryList entries => refsTo t entries
  | .object object => if object.map .object = some t then 1 else 0
  | .pageList _ _ _ => 0

/-- The pages that a copy holds. -/
def pages : List PageId :=
  match copy.body with
  | .pageList pageList npages _ => (pageList.take npages).reduceOption
  | _ => []

/-- The entries of a copy are plain memory; its pages and those that its continuations return are
as many as its size takes. -/
def WellFormed [PageSize] : Prop :=
  match copy.body with
  | .entryList entries => ∀ e ∈ entries, e.isAMap = false ∧ e.isSubMap = false
  | .object _ => True
  | .pageList pageList npages cont =>
    let n := sub (roundPage (add copy.offset copy.size)) (truncPage copy.offset) / pageSize
    ∃ pages : List PageId, pageList = pages.map some ∧ npages = pages.length ∧
      match cont with
      | none => npages = n
      | some cont => npages ≤ n ∧ cont.Delivers (n - npages)

end MapCopy

namespace CopyoutState
variable {α : Type*}

/-- The copy `c` is gone, and with it the references and the pages that it held: the counts are
right for the references `out` of others, and a page that is in no object was so before and was
not one of the copy. -/
structure Settled (out : Target → ℕ) (base : CopyoutState α) (c : CopyId) (copy : MapCopy)
    (s : CopyoutState α) : Prop where
  zone : s.zone = update base.zone c none
  owned : s.toMapState.Owned out
  pages : ∀ m, (s.pages m).isStolen → (base.pages m).isStolen ∧ m ∉ copy.pages

/-- A success consumes the copy; after an error the caller's discard does. -/
def Consumes (out : Target → ℕ) (base : CopyoutState α) (c : CopyId) (copy : MapCopy)
    (result : KernReturn) (s : CopyoutState α) : Prop :=
  if result = .success then Settled out base c copy s
  else ∃ s', s.vmMapCopyDiscard (some c) = some s' ∧ Settled out base c copy s'

/-- A routine may be called with the copy `c`: it is a good one, and the references that it holds
are counted. -/
structure Ready [PageSize] (out : Target → ℕ) (s : CopyoutState α) (c : CopyId) (copy : MapCopy) :
    Prop where
  zone : s.zone c = some copy
  wellFormed : copy.WellFormed
  owned : s.toMapState.Owned fun t => out t + copy.refs t
  fresh : ∀ i, s.nextCopy ≤ i → s.zone i = none

end CopyoutState

/-! ## Linking in -/

section
variable {m n : VmMap} {l : List VmMapEntry} {place : Option ℕ}

theorem VmMap.Named.link (h : m.Named) (hplace : ∀ i, place = some i → i ∈ m.entries.map VmMapEntry.id)
    (hentries : n.entries = l.foldr (insertAfter VmMapEntry.id place) m.entries)
    (hd : Distinct VmMapEntry.id l) (hnew : ∀ e ∈ l, m.nextId ≤ e.id ∧ e.id < n.nextId)
    (hnext : m.nextId ≤ n.nextId)
    (hfirst : ∀ i, n.firstFree = some i → m.firstFree = some i ∨ i ∈ l.map VmMapEntry.id) :
    n.Named ∧ ∀ t, refsTo t n.entries = refsTo t m.entries + refsTo t l := by
  have hall : Distinct VmMapEntry.id (l ++ m.entries) := by
    unfold Distinct
    rw [map_append]
    refine List.Nodup.append hd h.distinct fun i hi hi' => ?_
    obtain ⟨e, he, rfl⟩ := mem_map.mp hi
    obtain ⟨a, ha, hid⟩ := mem_map.mp hi'
    have := h.nextId a ha
    have := (hnew e he).1
    omega
  have hperm := foldr_insertAfter_perm hall hplace
  rw [← hentries] at hperm
  refine ⟨⟨(hperm.map VmMapEntry.id).nodup_iff.mpr hall, fun e he => ?_, fun i hi => ?_⟩, fun t => ?_⟩
  · rcases mem_append.mp (hperm.mem_iff.mp he) with he | he
    · exact (hnew e he).2
    · exact (h.nextId e he).trans_le hnext
  · rw [(hperm.map VmMapEntry.id).mem_iff, map_append]
    rcases hfirst i hi with hi | hi
    · exact mem_append_right _ (h.firstFree i hi)
    · exact mem_append_left _ hi
  · have hcount : refsTo t n.entries = refsTo t (l ++ m.entries) := hperm.countP_eq _
    rw [hcount, Kernel.refsTo_append, Nat.add_comm]

theorem copyoutSpace_last {size maxOffset start room : ℕ} {last last' : Option ℕ}
    {post : List VmMapEntry}
    (h : copyoutSpace size maxOffset start last post = some (room, last')) :
    last' = last ∨ ∃ e ∈ post, last' = some e.id := by
  induction post generalizing start last with
  | nil =>
    unfold copyoutSpace at h
    dsimp only at h
    split_ifs at h
    cases h
    exact .inl rfl
  | cons next rest ih =>
    unfold copyoutSpace at h
    dsimp only at h
    split_ifs at h
    · cases h
      exact .inl rfl
    · rcases ih h with hlast | ⟨e, he, hlast⟩
      · exact .inr ⟨next, mem_cons_self, hlast⟩
      · exact .inr ⟨e, mem_cons_of_mem _ he, hlast⟩

end

namespace MapState
variable {α : Type*} {s s' : MapState α} {out : Target → ℕ} {size : ℕ}

theorem Owned.findRoom {ws ws' : List (Unlocked α)} {room : Option (ℕ × Option ℕ)}
    (h : s.Owned out) (hws : ∀ w ∈ ws, w.Fair) (hr : s.findRoom size ws = some (room, s', ws')) :
    s'.Owned out ∧ (∀ w ∈ ws', w.Fair) ∧ ∀ start last, room = some (start, last) →
      ∀ i, last = some i → i ∈ s'.map.entries.map VmMapEntry.id := by
  fun_induction MapState.findRoom size ws s with
  | case1 ws s m found hfound =>
    cases hr
    refine ⟨h.lock, hws, fun start last heq i hi => ?_⟩
    cases heq
    rcases copyoutSpace_last hfound with hlast | ⟨e, he, hlast⟩
    · exact h.named.firstFree i (hlast.symm.trans hi)
    · cases hlast.symm.trans hi
      exact mem_map_of_mem (mem_of_mem_after he)
  | case2 => cases hr
  | case3 s m hfull hwait w ws ih =>
    exact ih (hws w mem_cons_self _ _ h.lock) (fun w hw => hws w (mem_cons_of_mem _ hw)) hr
  | case4 ws s m hfull hwait =>
    cases hr
    exact ⟨h.lock, hws, fun start last heq => by cases heq⟩

end MapState

/-! ## Lists of entries -/

section
variable {m : VmMap} {entries : List VmMapEntry}

theorem relocate_id (m : VmMap) (entries : List VmMapEntry) (adjustment : ℕ) :
    (m.relocate adjustment entries).map VmMapEntry.id =
      (List.range' 0 entries.length).map fun i => m.nextId + i := by
  unfold VmMap.relocate
  rw [map_map, ← List.zipIdx_map_snd 0 entries, map_map]
  rfl

theorem relocate_refsTo (adjustment : ℕ) (t : Target) :
    refsTo t (m.relocate adjustment entries) = refsTo t entries := by
  refine refsTo_congr ?_ t
  unfold VmMap.relocate
  rw [map_map]
  have hfst := List.zipIdx_map_fst 0 entries
  conv_rhs => rw [← hfst, map_map]
  rfl

theorem VmMap.Named.copyInsert (h : m.Named) {last : Option ℕ}
    (hlast : ∀ i, last = some i → i ∈ m.entries.map VmMapEntry.id)
    (entries : List VmMapEntry) (adjustment size : ℕ) :
    (m.copyInsert last (m.relocate adjustment entries) size).Named ∧
      ∀ t, refsTo t (m.copyInsert last (m.relocate adjustment entries) size).entries =
        refsTo t m.entries + refsTo t entries := by
  have hids := relocate_id m entries adjustment
  have hlength : (m.relocate adjustment entries).length = entries.length := by
    simp [VmMap.relocate]
  have hd : Distinct VmMapEntry.id (m.relocate adjustment entries) := by
    unfold Distinct
    rw [hids]
    exact (List.nodup_range').map fun a b hab => Nat.add_left_cancel hab
  obtain ⟨hnamed, hrefs⟩ := h.link
    (n := m.copyInsert last (m.relocate adjustment entries) size) hlast rfl hd (fun e he => by
      have hmem := mem_map_of_mem (f := VmMapEntry.id) he
      rw [hids] at hmem
      obtain ⟨i, hi, hid⟩ := mem_map.mp hmem
      obtain ⟨-, hi⟩ := List.mem_range'_1.mp hi
      change m.nextId ≤ e.id ∧ e.id < m.nextId + (m.relocate adjustment entries).length
      omega) (Nat.le_add_right _ _) (fun i hi => by
      unfold VmMap.copyInsert at hi
      dsimp only at hi
      split_ifs at hi
      · exact .inr (last_mem hi)
      · exact .inl hi)
  exact ⟨hnamed, fun t => by rw [hrefs, relocate_refsTo]⟩

end

namespace CopyoutState
variable {α : Type*} {s s' : CopyoutState α} {out : Target → ℕ} {c : CopyId} {copy : MapCopy}
  {entries : List VmMapEntry} {ws : List (Unlocked α)} {kr : KernReturn} {address : ℕ}

theorem Overwritten.settled {base : CopyoutState α} (h : Overwritten out base c s)
    (hpages : copy.pages = []) : Settled out base c copy s := by
  refine ⟨h.zone, h.owned, fun m hm => ?_⟩
  rw [h.pages] at hm
  exact ⟨hm, by simp [hpages]⟩

theorem Overwriting.consumes {base : CopyoutState α} (h : Overwriting out base c entries s)
    (hkr : kr ≠ .success) (hpages : copy.pages = []) : Consumes out base c copy kr s := by
  obtain ⟨s', hs', hdone⟩ := h.discard
  unfold Consumes
  rw [if_neg hkr]
  exact ⟨s', hs', hdone.settled hpages⟩

section
variable [PageSize]

theorem Ready.overwriting (h : Ready out s c copy) (hbody : copy.body = .entryList entries) :
    Overwriting out s c entries s := by
  have hwf := h.wellFormed
  have howned := h.owned
  unfold MapCopy.WellFormed at hwf
  unfold MapCopy.refs at howned
  rw [hbody] at hwf howned
  exact ⟨⟨copy, hbody, by rw [← h.zone, update_eq_self]⟩, rfl, hwf, howned⟩

theorem Ready.copyoutEntries (h : Ready out s c copy) (hws : ∀ w ∈ ws, w.Fair)
    (hbody : copy.body = .entryList entries)
    (hr : s.copyoutEntries ws c copy entries = some (kr, address, s')) :
    Consumes out s c copy kr s' := by
  have hpages : copy.pages = [] := by rw [MapCopy.pages, hbody]
  have hover := h.overwriting hbody
  unfold CopyoutState.copyoutEntries at hr
  dsimp only at hr
  split at hr
  · cases hr
  · next t _ hroom =>
    cases hr
    exact (hover.inMap (hover.owned.findRoom hws hroom).1).consumes (by decide) hpages
  · next start last t _ hroom =>
    obtain ⟨howned, -, hlast⟩ := hover.owned.findRoom hws hroom
    cases hr
    unfold Consumes
    rw [if_pos rfl]
    obtain ⟨hnamed, hrefs⟩ := howned.named.copyInsert (hlast start last rfl) entries
      (sub start (truncPage copy.offset))
      (sub (roundPage (add copy.offset copy.size)) (truncPage copy.offset))
    exact ⟨rfl, howned.congr hnamed fun t => by rw [hrefs]; omega,
      fun m hm => ⟨hm, by simp [hpages]⟩⟩

end

end CopyoutState

/-! ## Objects -/

section
variable [PageSize] {α : Type*} {k : Kernel α} {m m' : VmMap} {out : Target → ℕ}
  {st : ObjectStore α} {args : EnterArgs} {run : CollapseRun} {start stop : ℕ} {place : Option ℕ}

omit [PageSize] in
theorem Kernel.Counted.setObject (h : k.Counted out) {o : ObjId} {ob : VmObject α}
    (hob : k.store.objs o = some ob) (ob' : VmObject α) (hcount : ob'.refCount = ob.refCount)
    (hshadow : ob'.shadow = ob.shadow) : { k with store := k.store.set o ob' }.Counted out := by
  refine h.congr rfl ?_ fun i => ?_
  · rw [k.store.shadowOf_set, hshadow, ← k.store.shadowOf_eq hob, update_eq_self]
  · rcases eq_or_ne i o with rfl | hne
    · rw [ObjectStore.objs_set_self, hob, Option.map_some, Option.map_some, hcount]
    · rw [ObjectStore.objs_set_of_ne _ hne]

theorem pageRemoveLookup_frame (ob : VmObject α) (start n : ℕ) :
    (pageRemoveLookup ob start n).refCount = ob.refCount ∧
      (pageRemoveLookup ob start n).shadow = ob.shadow := by
  induction n generalizing ob start with
  | zero => exact ⟨rfl, rfl⟩
  | succ n ih => exact ih (ob.pageFree start) (add start pageSize)

theorem vmObjectPageRemove_frame (ob : VmObject α) (start stop : ℕ) :
    (vmObjectPageRemove ob start stop).refCount = ob.refCount ∧
      (vmObjectPageRemove ob start stop).shadow = ob.shadow := by
  unfold vmObjectPageRemove
  split_ifs
  · exact pageRemoveLookup_frame ob start _
  · exact ⟨rfl, rfl⟩
  · exact ⟨rfl, rfl⟩

theorem Kernel.Counted.coalesce (h : k.Counted out) {g : CollapseGlobals} {lockTry : ℕ → Bool}
    {turns prevOffset prevSize nextSize : ℕ} {o : Option ObjId} {extended : Bool}
    (hc : vmObjectCoalesce k.store g lockTry turns o prevOffset prevSize nextSize =
      some (extended, st)) : { k with store := st }.Counted out := by
  unfold vmObjectCoalesce at hc
  cases o with
  | none =>
    cases hc
    exact h
  | some o =>
    dsimp only at hc
    split at hc
    · cases hc
    · next st' hcollapse =>
      have hcounted := h.collapse hcollapse
      split at hc
      · cases hc
      · next ob hob =>
        split_ifs at hc
        · cases hc
          exact hcounted
        · cases hc
          have hframe := vmObjectPageRemove_frame ob (add prevOffset prevSize)
            (add (add prevOffset prevSize) nextSize)
          exact Counted.setObject hcounted hob _ hframe.1 hframe.2

/-- How a pass of `vm_map_enter` ends: the map has taken over the reference to the object, or it is
held yet. -/
def EnterEnds (out : Target → ℕ) (k : Kernel α) (object : Option ObjId) : EnterPass α → Prop
  | .ret kr _ m st =>
    kr = .success ∧ MapState.Owned out ⟨{ k with store := st }, m⟩ ∨
      kr ≠ .success ∧ MapState.Owned (Held out (object.map .object)) ⟨{ k with store := st }, m⟩
  | .wait m => MapState.Owned (Held out (object.map .object)) ⟨k, m⟩
  | .collapsing => True

omit [PageSize] in
theorem enterNew_owned (h : MapState.Owned (Held out (args.object.map .object)) ⟨k, m⟩)
    (hplace : ∀ i, place = some i → i ∈ m.entries.map VmMapEntry.id) :
    MapState.Owned out ⟨k, m.enterNew args start stop place⟩ := by
  obtain ⟨hnamed, hrefs⟩ := h.named.link (l := [m.newEntry args start stop])
    (n := m.enterNew args start stop place) hplace rfl (nodup_singleton _)
    (fun e he => by
      rw [mem_singleton.mp he]
      exact ⟨le_refl _, Nat.lt_succ_self _⟩) (Nat.le_succ _) (fun i hi => by
      unfold VmMap.enterNew at hi
      dsimp only at hi
      split_ifs at hi
      · cases hi
        exact .inr mem_cons_self
      · exact .inl hi)
  refine h.congr hnamed fun t => ?_
  rw [hrefs, Kernel.refsTo_cons, Kernel.refsTo_nil]
  have htarget : (m.newEntry args start stop).target = args.object.map .object :=
    CopyoutState.target_of_plain ⟨rfl, rfl⟩
  simp only [htarget, Held]
  omega

theorem enterAt_ends (h : MapState.Owned (Held out (args.object.map .object)) ⟨k, m⟩)
    (hplace : ∀ i, place = some i → i ∈ m.entries.map VmMapEntry.id) : EnterEnds out k args.object
      (m.enterAt k.store run.globals run.lockTry run.turns args start stop place) := by
  unfold VmMap.enterAt
  split
  · exact .inl ⟨rfl, enterNew_owned h hplace⟩
  · next e he =>
    have hat : m.entryAt e.id = some e := by
      obtain ⟨i, -, hfind⟩ := Option.bind_eq_some_iff.mp he
      have hid : e.id = i := by simpa using find?_some hfind
      rw [hid]
      exact hfind
    split_ifs with hext
    · split
      · trivial
      · next st hcoalesce =>
        have hcounted := h.counted.coalesce hcoalesce
        have hobject : args.object = none := by
          unfold VmMap.extendable at hext
          simp only [decide_eq_true_eq, Option.isNone_iff_eq_none] at hext
          exact hext.1
        refine .inl ⟨rfl, ?_⟩
        have howned : MapState.Owned (Held out (args.object.map .object))
            ⟨{ k with store := st }, m⟩ := ⟨h.named, hcounted, h.share⟩
        have hentries : (m.extend e stop).entries.map VmMapEntry.id = m.entries.map VmMapEntry.id :=
          map_update (f := fun e : VmMapEntry => { e with vmeEnd := stop }) (fun _ => rfl) e.id
            m.entries
        have htargets : (m.extend e stop).entries.map VmMapEntry.target =
            m.entries.map VmMapEntry.target :=
          map_update (f := fun e : VmMapEntry => { e with vmeEnd := stop }) (fun _ => rfl) e.id
            m.entries
        refine howned.congr (h.named.congr hentries rfl rfl) fun t => ?_
        rw [refsTo_congr htargets, hobject]
        simp [Held]
      · next st hcoalesce =>
        have hcounted := h.counted.coalesce hcoalesce
        exact .inl ⟨rfl, enterNew_owned (k := { k with store := st })
          ⟨h.named, hcounted, h.share⟩ hplace⟩
    · exact .inl ⟨rfl, enterNew_owned h hplace⟩

end

/-! The search of `vm_map_enter` for any address. -/

section
variable {m : VmMap} {args : EnterArgs}

theorem findSpace_last {size mask maxOffset start room : ℕ} {entry entry' : Option ℕ}
    {post : List VmMapEntry}
    (h : findSpace size mask maxOffset start entry post = some (room, entry')) :
    entry' = entry ∨ ∃ e ∈ post, entry' = some e.id := by
  induction post generalizing start entry with
  | nil =>
    unfold findSpace at h
    dsimp only at h
    split_ifs at h
    cases h
    exact .inl rfl
  | cons next rest ih =>
    unfold findSpace at h
    dsimp only at h
    split_ifs at h
    · cases h
      exact .inl rfl
    · rcases ih h with hentry | ⟨e, he, hentry⟩
      · exact .inr ⟨next, mem_cons_self, hentry⟩
      · exact .inr ⟨e, mem_cons_of_mem _ he, hentry⟩

variable [PageSize] {α : Type*} {k : Kernel α} {out : Target → ℕ} {run : CollapseRun}

theorem enterPass_ends (run : CollapseRun) (h : MapState.Owned (Held out (args.object.map .object))
    ⟨k, m⟩) (hany : args.anywhere = true) :
    EnterEnds out k args.object (m.enterPass k.store run.globals run.lockTry run.turns 0 args) := by
  have hlock := h.lock
  have hstart : (if 0 < m.lock.minOffset then m.lock.minOffset else 0) = m.lock.minOffset := by
    split_ifs with hpos
    · rfl
    · omega
  have hsearch : (m.lock.searchStart m.lock.minOffset).2.2 = m.lock ∧
      (m.lock.searchStart m.lock.minOffset).2.1 = m.lock.firstFree := by
    unfold VmMap.searchStart
    rw [if_pos rfl]
    cases m.lock.firstFree <;> exact ⟨rfl, rfl⟩
  unfold VmMap.enterPass
  rw [if_pos hany]
  dsimp only
  rw [hstart]
  by_cases hout : m.lock.maxOffset < m.lock.minOffset
  · rw [if_pos hout]
    exact .inr ⟨by decide, hlock⟩
  · rw [if_neg hout]
    generalize m.lock.searchStart m.lock.minOffset = r at hsearch ⊢
    obtain ⟨start, entry, m'⟩ := r
    obtain ⟨rfl, rfl⟩ := hsearch
    dsimp only
    split
    · split_ifs
      · exact hlock
      · exact .inr ⟨by decide, hlock⟩
    · next room place hfind =>
      refine enterAt_ends hlock fun i hi => ?_
      rcases findSpace_last hfind with hplace | ⟨e, he, hplace⟩
      · exact hlock.named.firstFree i (hplace.symm.trans hi)
      · cases hplace.symm.trans hi
        exact mem_map_of_mem (mem_of_mem_after he)

theorem MapState.Owned.vmMapEnter {s s' : MapState α} {ws : List (Unlocked α)} {kr : KernReturn}
    {address : ℕ} {object : Option ObjId} (h : s.Owned (Held out (object.map .object)))
    (hobject : args.object = object) (hany : args.anywhere = true) (hws : ∀ w ∈ ws, w.Fair)
    (hr : s.vmMapEnter run 0 args ws = some (kr, address, s')) :
    kr = .success ∧ s'.Owned out ∨ kr ≠ .success ∧ s'.Owned (Held out (object.map .object)) := by
  subst hobject
  have hends := fun s : MapState α => fun h : s.Owned (Held out (args.object.map .object)) =>
    enterPass_ends run h hany
  fun_induction MapState.vmMapEnter run 0 args ws s with
  | case1 ws s kr' address' m store hpass =>
    have := hends s h
    rw [hpass] at this
    cases hr
    exact this
  | case2 => cases hr
  | case3 s m hpass w ws ih =>
    have := hends s h
    rw [hpass] at this
    exact ih (fun w hw => hws w (mem_cons_of_mem _ hw)) hr (hws w mem_cons_self _ _ this)
  | case4 => cases hr

end

namespace CopyoutState
variable {α : Type*} [PageSize] {s s' : CopyoutState α} {out : Target → ℕ} {c : CopyId}
  {copy : MapCopy} {ws : List (Unlocked α)} {kr : KernReturn} {address : ℕ} {run : CollapseRun}
  {object : Option ObjId}

theorem Ready.copyoutObject (h : Ready out s c copy) (hws : ∀ w ∈ ws, w.Fair)
    (hbody : copy.body = .object object)
    (hr : s.copyoutObject run ws c copy object = some (kr, address, s')) :
    Consumes out s c copy kr s' := by
  have hpages : copy.pages = [] := by rw [MapCopy.pages, hbody]
  have hstolen : ∀ m, (s.pages m).isStolen → (s.pages m).isStolen ∧ m ∉ copy.pages :=
    fun m hm => ⟨hm, by simp [hpages]⟩
  have howned : s.toMapState.Owned (Held out (object.map .object)) := by
    have howned := h.owned
    unfold MapCopy.refs at howned
    rw [hbody] at howned
    exact howned
  unfold CopyoutState.copyoutObject at hr
  dsimp only at hr
  split at hr
  · cases hr
  · next kr' address' t henter =>
    unfold Consumes
    rcases howned.vmMapEnter rfl rfl hws henter with ⟨rfl, ht⟩ | ⟨hkr, ht⟩
    · rw [if_neg (not_not.mpr rfl)] at hr
      cases hr
      rw [if_pos rfl]
      exact ⟨rfl, ht, hstolen⟩
    · rw [if_pos hkr] at hr
      cases hr
      rw [if_neg hkr]
      refine ⟨CopyoutState.zfree { s with
        toMapState := ⟨t.kernel.vmObjectDeallocate object, t.map⟩ } c, ?_, rfl, ht.deallocate,
        hstolen⟩
      unfold CopyoutState.vmMapCopyDiscard
      dsimp only
      rw [h.zone]
      dsimp only
      rw [hbody]

end CopyoutState

/-! ## Page lists -/

namespace Kernel
variable {α : Type*} {k : Kernel α} {out : Target → ℕ}

theorem Counted.modifyObject (h : k.Counted out) (o : ObjId) {f : VmObject α → VmObject α}
    (hcount : ∀ ob, (f ob).refCount = ob.refCount) (hshadow : ∀ ob, (f ob).shadow = ob.shadow) :
    { k with store := k.store.modify o f }.Counted out := by
  refine h.congr rfl (k.store.shadowOf_modify o hshadow) fun i => ?_
  rw [ObjectStore.objs_modify, apply_ite (Option.map VmObject.refCount), Option.map_map]
  have hcomp : VmObject.refCount ∘ f = VmObject.refCount := funext hcount
  rw [hcomp, ite_self]

end Kernel

namespace CopyoutState
variable {α : Type*} {s s' base : CopyoutState α} {out : Target → ℕ} {place : Option ℕ}
  {run : CollapseRun} {last : VmMapEntry}

/-- What is not in the map or the kernel is left alone. -/
structure SamePages (s s' : CopyoutState α) : Prop where
  zone : s'.zone = s.zone
  pages : s'.pages = s.pages
  nextCopy : s'.nextCopy = s.nextCopy

theorem held_none (out : Target → ℕ) : Held out none = out := by
  funext t
  simp [Held]

theorem createLast_owned (h : s.toMapState.Owned out) (start size : ℕ)
    (hplace : ∀ i, place = some i → i ∈ s.map.entries.map VmMapEntry.id) :
    (s.createLast start size place).2.2.toMapState.Owned out := by
  have hcounted := h.counted.allocate size
  obtain ⟨hnamed, hrefs⟩ := h.named.link (n := (s.createLast start size place).2.2.map) hplace
    (l := [_]) rfl (nodup_singleton _)
    (fun e he => by
      rw [mem_singleton.mp he]
      exact ⟨le_refl _, Nat.lt_succ_self _⟩) (Nat.le_succ _) (fun i hi => by
      unfold CopyoutState.createLast at hi
      dsimp only at hi
      split_ifs at hi
      · cases hi
        exact .inr mem_cons_self
      · exact .inl hi)
  refine ⟨hnamed, ?_, h.share⟩
  have heq : (fun t => out t + refsTo t (s.createLast start size place).2.2.map.entries) =
      Held (fun t => out t + refsTo t s.map.entries)
        (some (.object (s.kernel.store.vmObjectAllocate size).1)) := by
    funext t
    rw [hrefs, Kernel.refsTo_cons, Kernel.refsTo_nil]
    change out t + (_ + (0 + if some (Target.object (s.kernel.store.vmObjectAllocate size).1) = some t
      then 1 else 0)) = _
    simp only [Held]
    omega
  rw [heq]
  exact hcounted

/-- The entry below comes to hold `object`, with what it held and a reference at hand. -/
theorem extendLast_owned {x : Option Target} {store : ObjectStore α} {object : ObjId}
    (hmem : last ∈ s.map.entries) (hplain : last.isAMap = false ∧ last.isSubMap = false)
    (hnamed : s.map.Named) (hshare : ∀ sm ∈ s.kernel.maps, sm.map.Named)
    (hcounted : { s.kernel with store := store }.Counted
      (Held (fun t => out t + refsTo t s.map.entries) x))
    (hx : ∀ t, (if last.target = some t then 1 else 0) + (if x = some t then 1 else 0) =
      if some (Target.object object) = some t then 1 else 0)
    (offset start size : ℕ) :
    (s.extendLast last store object offset start size).toMapState.Owned out := by
  let f : VmMapEntry → VmMapEntry := fun last => { last with
    object := some object, offset := offset, vmeEnd := add start size, inTransition := true }
  refine ⟨hnamed.congr (map_update (f := f) (fun _ => rfl) last.id s.map.entries) rfl rfl, ?_,
    hshare⟩
  have heq : (fun t => out t + refsTo t (Linked.update VmMapEntry.id last.id f s.map.entries)) =
      Held (fun t => out t + refsTo t s.map.entries) x := by
    funext t
    have hrefs := refsTo_update hnamed.distinct hmem f t
    have htarget : (f last).target = some (.object object) := target_of_plain (e := f last) hplain
    rw [htarget] at hrefs
    have hheld := hx t
    simp only [Held]
    omega
  exact heq ▸ hcounted

end CopyoutState

namespace CopyoutState
variable {α : Type*} {s s' base : CopyoutState α} {out : Target → ℕ} {place : Option ℕ}
  {run : CollapseRun} {start size i offset : ℕ} {object : ObjId}

theorem pageListEntry_owned (h : s.toMapState.Owned out)
    (hplace : ∀ i, place = some i → i ∈ s.map.entries.map VmMapEntry.id)
    (hr : s.pageListEntry run start size place = some (object, i, offset, s')) :
    s'.toMapState.Owned out ∧ SamePages s s' := by
  unfold CopyoutState.pageListEntry at hr
  dsimp only at hr
  split at hr
  · cases hr
    exact ⟨createLast_owned h start size hplace, ⟨rfl, rfl, rfl⟩⟩
  · next last hlast =>
    obtain ⟨i, rfl, hat⟩ := Option.bind_eq_some_iff.mp hlast
    obtain ⟨hmem, -⟩ := VmMap.entryAt_mem hat
    by_cases hext : extensible start last = true
    · rw [if_pos hext] at hr
      have hplain : last.isAMap = false ∧ last.isSubMap = false := by
        unfold extensible at hext
        simp only [decide_eq_true_eq] at hext
        exact ⟨hext.2.1, hext.2.2.1⟩
      have htarget := target_of_plain hplain
      cases hobject : last.object with
      | none =>
        rw [hobject] at hr htarget
        cases hr
        exact ⟨extendLast_owned hmem hplain h.named h.share (h.counted.allocate _)
          (fun t => by rw [htarget]; simp) _ _ _, ⟨rfl, rfl, rfl⟩⟩
      | some o =>
        rw [hobject] at hr htarget
        dsimp only at hr
        split at hr
        · cases hr
        · next store hcollapse =>
          have hcounted := h.counted.collapse hcollapse
          split at hr
          · cases hr
          · next ob hob =>
            split_ifs at hr
            · cases hr
              exact ⟨createLast_owned (s := { s with kernel := { s.kernel with store := store } })
                ⟨h.named, hcounted, h.share⟩ start size hplace, ⟨rfl, rfl, rfl⟩⟩
            · cases hr
              have hset := Kernel.Counted.setObject hcounted hob
                { ob with size := max (add (add last.offset (sub start last.vmeStart)) size) ob.size }
                rfl rfl
              refine ⟨extendLast_owned (x := none) hmem hplain h.named h.share ?_
                (fun t => by rw [htarget]; simp) _ _ _, ⟨rfl, rfl, rfl⟩⟩
              rw [held_none]
              exact hset
    · rw [if_neg hext] at hr
      cases hr
      exact ⟨createLast_owned h start size hplace, ⟨rfl, rfl, rfl⟩⟩

end CopyoutState

/-! ## Pages that are in no object -/

namespace CopyoutState
variable {α : Type*} {s s' base : CopyoutState α} {out : Target → ℕ} {c : CopyId}
  {held l l' : List PageId} {m : PageId} {object : ObjId} {offset size : ℕ} {cont : Option Cont}

/-- A page in no object is one of `l`, or it was in none before, and is not one of `held`. -/
def StolenIn (base : CopyoutState α) (held l : List PageId) (s : CopyoutState α) : Prop :=
  ∀ m, (s.pages m).isStolen → m ∈ l ∨ (base.pages m).isStolen ∧ m ∉ held

theorem StolenIn.mono (h : StolenIn base held l s) (hl : ∀ m ∈ l, m ∈ l')
    (hs : ∀ m, (s'.pages m).isStolen → (s.pages m).isStolen ∨ m ∈ l') :
    StolenIn base held l' s' := by
  intro m hm
  rcases hs m hm with hs | hs
  · exact (h m hs).imp_left (hl m)
  · exact .inl hs

theorem isStolen_setPage {p : PagePlace} (hp : p.isStolen = false) {m' : PageId}
    (h : ((s.setPage m p).pages m').isStolen) : m' ≠ m ∧ (s.pages m').isStolen := by
  change (update s.pages m p m').isStolen at h
  rcases eq_or_ne m' m with rfl | hne
  · rw [update_self, hp] at h
    cases h
  · rw [update_of_ne hne] at h
    exact ⟨hne, h⟩

theorem pagingEnd_owned (h : s.toMapState.Owned out) (object : ObjId) :
    (s.pagingEnd object).toMapState.Owned out :=
  ⟨h.named, Kernel.Counted.modifyObject h.counted object (fun _ => rfl) fun _ => rfl, h.share⟩

/-- What a step on the pages leaves as it was. -/
structure PageStep (s s' : CopyoutState α) : Prop where
  zone : s'.zone = s.zone
  nextCopy : s'.nextCopy = s.nextCopy
  owned : ∀ out, s.toMapState.Owned out → s'.toMapState.Owned out

theorem PageStep.refl (s : CopyoutState α) : PageStep s s := ⟨rfl, rfl, fun _ => id⟩

theorem PageStep.trans {s₁ s₂ s₃ : CopyoutState α} (h : PageStep s₁ s₂) (h' : PageStep s₂ s₃) :
    PageStep s₁ s₃ :=
  ⟨h'.zone.trans h.zone, h'.nextCopy.trans h.nextCopy, fun out hs => h'.owned out (h.owned out hs)⟩

theorem stealPage_spec {m' : PageId} (hr : s.stealPage m = some (m', s')) :
    PageStep s s' ∧ ∀ q, (s'.pages q).isStolen → q = m' ∨ q ≠ m ∧ (s.pages q).isStolen := by
  unfold CopyoutState.stealPage at hr
  split at hr
  · split at hr
    · cases hr
    · cases hr
      refine ⟨⟨rfl, rfl, fun _ h => pagingEnd_owned h _⟩, fun q hq => ?_⟩
      rcases eq_or_ne q m' with rfl | hne
      · exact .inl rfl
      · change (update (s.setPage m (.tabled _ _ false)).pages m' _ q).isStolen at hq
        rw [update_of_ne hne] at hq
        exact .inr (isStolen_setPage (p := .tabled _ _ false) rfl hq)
  · cases hr
    refine ⟨PageStep.refl s, fun q hq => ?_⟩
    rcases eq_or_ne q m with rfl | hne
    · exact .inl rfl
    · exact .inr ⟨hne, hq⟩

theorem stealPages_spec {l : List PageId} : ∀ {s : CopyoutState α} {l' : List (Option PageId)}
    (pre : List PageId), StolenIn base held (pre ++ l) s →
    s.stealPages (l.map some) l.length = some (l', s') →
    PageStep s s' ∧ ∃ left : List PageId, l' = left.map some ∧ left.length = l.length ∧
      StolenIn base held (pre ++ left) s' := by
  induction l with
  | nil =>
    intro s l' pre h hr
    cases hr
    exact ⟨PageStep.refl _, [], rfl, rfl, h⟩
  | cons m l ih =>
    intro s l' pre h hr
    unfold CopyoutState.stealPages at hr
    obtain ⟨⟨m', s₁⟩, hsteal, hr⟩ := Option.bind_eq_some_iff.mp hr
    obtain ⟨⟨l₂, s₂⟩, hrest, hr⟩ := Option.map_eq_some_iff.mp hr
    cases hr
    obtain ⟨hstep, hstolen⟩ := stealPage_spec hsteal
    have h₁ : StolenIn base held ((pre ++ [m']) ++ l) s₁ := by
      intro q hq
      rcases hstolen q hq with rfl | ⟨hne, hq⟩
      · exact .inl (by simp)
      · refine (h q hq).imp_left fun hmem => ?_
        simp only [mem_append, mem_cons] at hmem ⊢
        tauto
    obtain ⟨hsteps, left, rfl, hlength, hleft⟩ := ih _ h₁ hrest
    refine ⟨hstep.trans hsteps, m' :: left, rfl, by simp [hlength], ?_⟩
    rw [append_cons]
    exact hleft

theorem stealTabled_spec (h : StolenIn base held l s)
    (hzone : s.zone c = some ⟨offset, size, .pageList (l.map some) l.length cont⟩)
    (hr : s.stealTabled c = some s') :
    ∃ left : List PageId, left ≠ [] ∧ left.length = l.length ∧ StolenIn base held left s' ∧
      s'.zone = update s.zone c (some ⟨offset, size, .pageList (left.map some) left.length cont⟩) ∧
      s'.nextCopy = s.nextCopy ∧ ∀ out, s.toMapState.Owned out → s'.toMapState.Owned out := by
  unfold CopyoutState.stealTabled at hr
  rw [hzone] at hr
  cases l with
  | nil => cases hr
  | cons m l =>
    simp only [map_cons] at hr
    split at hr
    · obtain ⟨⟨l', s₁⟩, hsteal, hr⟩ := Option.map_eq_some_iff.mp hr
      cases hr
      obtain ⟨hstep, left, rfl, hlength, hleft⟩ :=
        stealPages_spec (l := m :: l) [] h hsteal
      refine ⟨left, ?_, hlength, hleft, ?_, hstep.nextCopy, hstep.owned⟩
      · rintro rfl
        cases hlength
      · rw [hlength, ← hstep.zone]
        rfl
    · cases hr
      refine ⟨m :: l, cons_ne_nil _ _, rfl, h, ?_, rfl, fun _ => id⟩
      conv_lhs => rw [← update_eq_self c s.zone, hzone]

theorem vmPageReplace_spec (hr : s.vmPageReplace m object offset = some s') :
    s'.zone = s.zone ∧ s'.nextCopy = s.nextCopy ∧ s'.toMapState = s.toMapState ∧
      ∀ q, (s'.pages q).isStolen → q ≠ m ∧ (s.pages q).isStolen := by
  have hnone : ∀ {busy : Bool}, s' = s.setPage m (.tabled object offset busy) →
      s'.zone = s.zone ∧ s'.nextCopy = s.nextCopy ∧ s'.toMapState = s.toMapState ∧
        ∀ q, (s'.pages q).isStolen → q ≠ m ∧ (s.pages q).isStolen := by
    rintro busy rfl
    exact ⟨rfl, rfl, rfl, fun q hq => isStolen_setPage rfl hq⟩
  have hsome : ∀ {busy : Bool} {p : ℕ},
      s' = { (s.setPage p .free).setPage m (.tabled object offset busy) with
        queueFree := p :: s.queueFree } →
      s'.zone = s.zone ∧ s'.nextCopy = s.nextCopy ∧ s'.toMapState = s.toMapState ∧
        ∀ q, (s'.pages q).isStolen → q ≠ m ∧ (s.pages q).isStolen := by
    rintro busy p rfl
    refine ⟨rfl, rfl, rfl, fun q hq => ?_⟩
    obtain ⟨hne, hq⟩ := isStolen_setPage (s := s.setPage p .free) (m := m)
      (p := .tabled object offset busy) rfl hq
    exact ⟨hne, (isStolen_setPage (s := s) rfl hq).2⟩
  unfold CopyoutState.vmPageReplace at hr
  dsimp only at hr
  split at hr
  · cases hr
  all_goals
    split at hr
    · exact hnone (Option.some.inj hr).symm
    · exact hsome (Option.some.inj hr).symm

end CopyoutState

/-! ## Inserting the pages -/

namespace CopyoutState
variable {α : Type*} {s s' base : CopyoutState α} {out : Target → ℕ} {c₀ c c' : CopyId}
  {held left : List PageId} {m : PageId} {object : ObjId} {i turns : ℕ} {cont : Option Cont}
  {w : Unlocked α} {ws : List (Unlocked α)} {result : KernReturn}

/-- The loop has come to page `i` of the copy `c`, which stands for the copy `c₀` that was to be
copied out: the pages `left` are left of it. -/
structure Inserting (out : Target → ℕ) (base : CopyoutState α) (c₀ : CopyId) (held : List PageId)
    (c : CopyId) (i : ℕ) (left : List PageId) (cont : Option Cont) (s : CopyoutState α) : Prop where
  zone : ∃ offset size, s.zone = update (update base.zone c₀ none) c
    (some ⟨offset, size, .pageList (List.replicate i none ++ left.map some) left.length cont⟩)
  mine : c = c₀ ∨ base.zone c = none
  below : c < s.nextCopy
  fresh : ∀ j, s.nextCopy ≤ j → base.zone j = none
  pages : StolenIn base held left s
  owned : s.toMapState.Owned out

theorem update_mine {base : CopyId → Option MapCopy} (h : c = c₀ ∨ base c = none) :
    update (update base c₀ none) c none = update base c₀ none := by
  refine update_eq_self_iff.mpr ?_
  rcases eq_or_ne c c₀ with rfl | hne
  · rw [update_self]
  · rw [update_of_ne hne]
    exact (h.resolve_left hne).symm

theorem Inserting.zone_self (h : Inserting out base c₀ held c i left cont s) :
    ∃ offset size, s.zone c = some
      ⟨offset, size, .pageList (List.replicate i none ++ left.map some) left.length cont⟩ := by
  obtain ⟨offset, size, hzone⟩ := h.zone
  exact ⟨offset, size, by rw [hzone, update_self]⟩

theorem Inserting.inMap (h : Inserting out base c₀ held c i left cont s) {t : MapState α}
    (ht : t.Owned out) : Inserting out base c₀ held c i left cont { s with toMapState := t } :=
  ⟨h.zone, h.mine, h.below, h.fresh, h.pages, ht⟩

theorem Inserting.zfree (h : Inserting out base c₀ held c i left cont s) :
    (s.zfree c).zone = update base.zone c₀ none := by
  obtain ⟨offset, size, hzone⟩ := h.zone
  unfold CopyoutState.zfree
  dsimp only
  rw [hzone, update_idem, update_mine h.mine]

theorem Inserting.insert {offset : ℕ} (h : Inserting out base c₀ held c i (m :: left) cont s)
    (hr : s.vmPageReplace m object offset = some s') (cont' : Option Cont) (copyOffset size : ℕ) :
    Inserting out base c₀ held c (i + 1) left cont' (s'.setCopy c ⟨copyOffset, size,
        .pageList ((List.replicate i none ++ (m :: left).map some).set i none)
          ((m :: left).length - 1) cont'⟩) := by
  obtain ⟨hz, hnext, hmap, hstolen⟩ := vmPageReplace_spec hr
  obtain ⟨offset', size', hzone⟩ := h.zone
  have hset : (List.replicate i none ++ (m :: left).map some).set i none =
      List.replicate (i + 1) none ++ left.map some := by
    rw [List.set_append_right _ _ (by simp)]
    simp [List.replicate_succ', append_assoc]
  refine ⟨⟨copyOffset, size, ?_⟩, h.mine, ?_, ?_, fun q hq => ?_, ?_⟩
  · unfold CopyoutState.setCopy
    dsimp only
    rw [hz, hzone, update_idem, hset, length_cons, Nat.add_sub_cancel]
  · exact h.below.trans_eq hnext.symm
  · intro j hj
    exact h.fresh j (hnext.symm.trans_le hj)
  · obtain ⟨hne, hq⟩ := hstolen q hq
    exact (h.pages q hq).imp_left fun hmem => (mem_cons.mp hmem).resolve_left hne
  · change s'.toMapState.Owned out
    rw [hmap]
    exact h.owned

theorem takePages_spec (pages : List (PageId × PagePlace)) :
    (s.takePages pages).zone = s.zone ∧ (s.takePages pages).nextCopy = s.nextCopy ∧
      (s.takePages pages).toMapState = s.toMapState ∧
      ∀ q, ((s.takePages pages).pages q).isStolen → q ∈ pages.map Prod.fst ∨ (s.pages q).isStolen := by
  unfold CopyoutState.takePages
  induction pages generalizing s with
  | nil => exact ⟨rfl, rfl, rfl, fun q hq => .inr hq⟩
  | cons p pages ih =>
    obtain ⟨hzone, hnext, hmap, hstolen⟩ :=
      ih (s := { s.setPage p.1 p.2 with queueFree := s.queueFree.erase p.1 })
    refine ⟨hzone, hnext, hmap, fun q hq => ?_⟩
    rcases hstolen q hq with hmem | hq
    · exact .inl (mem_cons_of_mem _ hmem)
    · rcases eq_or_ne q p.1 with rfl | hne
      · exact .inl mem_cons_self
      · change (update s.pages p.1 p.2 q).isStolen at hq
        rw [update_of_ne hne] at hq
        exact .inr hq

theorem vmMapCopyDiscard_usedUp {pageList : List (Option PageId)} {offset size : ℕ}
    (hc : s.zone c = some ⟨offset, size, .pageList pageList 0 cont⟩) :
    s.vmMapCopyDiscard (some c) = some (s.zfree c) := by
  unfold CopyoutState.vmMapCopyDiscard
  dsimp only
  rw [hc]
  rfl

theorem Inserting.next (h : Inserting out base c₀ held c i [] none s) {taken : CopyoutState α}
    {l : List PageId} {offset size : ℕ} (hz : taken.zone = s.zone) (hmap : taken.toMapState.Owned out)
    (hstolen : ∀ q, (taken.pages q).isStolen → q ∈ l ∨ (s.pages q).isStolen)
    (hr : ((({ taken with nextCopy := s.nextCopy + 1 } : CopyoutState α).setCopy s.nextCopy
      ⟨offset, size, .pageList (l.map some) l.length cont⟩).vmMapCopyDiscard (some c)).bind
        (fun s₁ => s₁.stealTabled s.nextCopy) = some s') :
    ∃ left : List PageId, left ≠ [] ∧ left.length = l.length ∧
      Inserting out base c₀ held s.nextCopy 0 left cont s' := by
  obtain ⟨oldOffset, oldSize, hzone⟩ := h.zone
  have hne : c ≠ s.nextCopy := h.below.ne
  generalize hcopy : (⟨offset, size, .pageList (l.map some) l.length cont⟩ : MapCopy) = new at hr
  have hold : (({ taken with nextCopy := s.nextCopy + 1 } : CopyoutState α).setCopy s.nextCopy
      new).zone c = some ⟨oldOffset, oldSize, .pageList (List.replicate i none ++ [].map some) 0
        none⟩ := by
    change update taken.zone s.nextCopy (some new) c = _
    rw [update_of_ne hne, hz, hzone, update_self]
    rfl
  rw [vmMapCopyDiscard_usedUp hold, Option.bind_some] at hr
  have hzone' : update (update taken.zone s.nextCopy (some new)) c none =
      update (update base.zone c₀ none) s.nextCopy (some new) := by
    rw [hz, hzone, update_comm hne.symm, update_idem, update_mine h.mine]
  generalize hs : CopyoutState.zfree _ c = s₀ at hr
  have hz₀ : s₀.zone = update (update base.zone c₀ none) s.nextCopy (some new) := by
    rw [← hs]
    exact hzone'
  have hstart : StolenIn base held l s₀ := by
    rw [← hs]
    intro q hq
    rcases hstolen q hq with hq | hq
    · exact .inl hq
    · exact .inr ((h.pages q hq).resolve_left not_mem_nil)
  have hnew : s₀.zone s.nextCopy = some new := by rw [hz₀, update_self]
  subst hcopy
  obtain ⟨left, hnonempty, hlength, hleft, hz', hnext, howned⟩ := stealTabled_spec hstart hnew hr
  rw [← hs] at hnext
  refine ⟨left, hnonempty, hlength, ⟨offset, size, ?_⟩, .inr (h.fresh _ le_rfl), ?_,
    fun j hj => h.fresh j ?_, hleft, howned out ?_⟩
  · rw [hz', hz₀, update_idem]
    rfl
  · rw [hnext]
    exact Nat.lt_succ_self _
  · rw [hnext] at hj
    exact (Nat.le_succ _).trans hj
  · rw [← hs]
    exact hmap

theorem Inserting.invokeCont {k : Cont} (h : Inserting out base c₀ held c i [] none s)
    (hw : w.Fair) {copy : Option CopyId} (hr : s.invokeCont w c k = some (result, copy, s')) :
    k = .fails result ∧ copy = some c ∧ Inserting out base c₀ held c i [] none s' ∨
      k = .null ∧ result = .success ∧ copy = none ∨
      ∃ offset size pages cont new left, k = .pageList offset size pages cont ∧
        result = .success ∧ copy = some new ∧ left ≠ [] ∧ left.length = pages.length ∧
        Inserting out base c₀ held new 0 left cont s' := by
  have howned := hw _ _ h.owned
  unfold CopyoutState.invokeCont at hr
  dsimp only at hr
  cases k with
  | fails r =>
    cases hr
    exact .inl ⟨rfl, rfl, h.inMap howned.lock⟩
  | null =>
    obtain ⟨s₁, -, hr⟩ := Option.map_eq_some_iff.mp hr
    cases hr
    exact .inr (.inl ⟨rfl, rfl, rfl⟩)
  | pageList offset size pages cont =>
    refine .inr (.inr ?_)
    dsimp only at hr
    obtain ⟨s₃, hdiscard, hr⟩ := Option.bind_eq_some_iff.mp hr
    obtain ⟨s₄, hsteal, hr⟩ := Option.map_eq_some_iff.mp hr
    cases hr
    obtain ⟨hz, hnext, hmap, hstolen⟩ :=
      takePages_spec (s := { s with toMapState := w.others s.toMapState }) pages
    have hfst : (pages.map fun p => some p.1) = (pages.map Prod.fst).map some := by
      rw [map_map]
      rfl
    rw [hfst, ← length_map (f := Prod.fst)] at hdiscard
    obtain ⟨left, hnonempty, hlength, hnew⟩ := h.next hz (hmap ▸ howned) hstolen
      (Option.bind_eq_some_iff.mpr ⟨s₃, hdiscard, hsteal⟩)
    exact ⟨offset, size, pages, cont, s.nextCopy, left, rfl, rfl, rfl, hnonempty,
      hlength.trans (length_map _), hnew.inMap hnew.owned.lock⟩

/-- What is left of the list and the continuations takes the turns that are left. -/
def Covers (turns : ℕ) (left : List PageId) : Option Cont → Prop
  | none => left.length = turns
  | some k => left ≠ [] ∧ left.length ≤ turns ∧ k.Delivers (turns - left.length)

theorem Covers.tail (h : Covers (turns + 1) (m :: left) cont) (hleft : left ≠ [] ∨ cont = none) :
    Covers turns left cont := by
  cases cont with
  | none => exact Nat.succ.inj h
  | some k =>
    obtain ⟨-, hle, hdelivers⟩ := h
    rw [length_cons] at hle hdelivers
    refine ⟨hleft.resolve_right (by simp), by omega, ?_⟩
    rwa [Nat.add_sub_add_right] at hdelivers

theorem insertPages_spec [PageSize] (object : ObjId) (turns : ℕ) : ∀ {offset : ℕ}
    {ws : List (Unlocked α)} {r r' : Inserted α} {i : ℕ} {c c' : CopyId} {left : List PageId}
    {cont : Option Cont}, r.copy = some c → r.result = .success →
    Inserting out base c₀ held c i left cont r.state → Covers turns left cont →
    (∀ w ∈ ws, w.Fair) → insertPages object turns offset ws r i = some r' → r'.copy = some c' →
    (∃ j, Inserting out base c₀ held c' j [] none r'.state) ∧
      (r'.result = .success ↔ ∀ k, cont = some k → k.Succeeds) := by
  induction turns with
  | zero =>
    intro offset ws r r' i c c' left cont hcopy hresult h hcovers hws hr hcopy'
    cases hr
    cases hcopy.symm.trans hcopy'
    cases cont with
    | none =>
      cases length_eq_zero_iff.mp hcovers
      exact ⟨⟨i, h⟩, by simp [hresult]⟩
    | some k =>
      obtain ⟨hne, hle, -⟩ := hcovers
      exact absurd (length_eq_zero_iff.mp (Nat.le_zero.mp hle)) hne
  | succ turns ih =>
    intro offset ws r r' i c c' left cont hcopy hresult h hcovers hws hr hcopy'
    obtain ⟨copyOffset, size, hzone⟩ := h.zone_self
    unfold CopyoutState.insertPages at hr
    rw [hcopy] at hr
    dsimp only at hr
    rw [hzone] at hr
    cases left with
    | nil =>
      cases cont with
      | none => cases hcovers
      | some k => exact absurd rfl hcovers.1
    | cons m left =>
      have hget : (List.replicate i none ++ (m :: left).map some)[i]? = some (some m) := by
        rw [List.getElem?_append_right (by simp)]
        simp
      dsimp only at hr
      rw [hget] at hr
      dsimp only at hr
      split at hr
      · cases hr
      · next s hreplace =>
        split at hr
        · next k hlength =>
          -- the last page of the copy has gone, and there is a continuation
          have hnil : left = [] := length_eq_zero_iff.mp hlength
          subst hnil
          have hinsert := h.insert hreplace none copyOffset size
          have hdelivers : k.Delivers turns := hcovers.2.2
          cases ws with
          | nil => cases hr
          | cons w ws =>
            have hfair : ∀ w ∈ ws, w.Fair := fun w hw => hws w (mem_cons_of_mem _ hw)
            dsimp only at hr
            split at hr
            · cases hr
            · next copy s₁ hinvoke =>
              rcases hinsert.invokeCont (hws w mem_cons_self) hinvoke with
                ⟨rfl, -, -⟩ | ⟨rfl, -, rfl⟩ |
                ⟨offset, size, pages, cont, new, left, rfl, -, rfl, hne, hlength, hnew⟩
              · exact absurd rfl hdelivers
              · have hturns : turns = 0 := hdelivers
                subst hturns
                cases hr
                cases hcopy'
              · have hcovers' : Covers turns left cont := by
                  cases cont with
                  | none => exact hlength.trans hdelivers
                  | some k =>
                    obtain ⟨hle, hk⟩ := hdelivers
                    exact ⟨hne, hlength.trans_le hle, hlength ▸ hk⟩
                obtain ⟨hdone, hiff⟩ := ih rfl rfl hnew hcovers' hfair hr hcopy'
                refine ⟨hdone, hiff.trans ?_⟩
                cases cont <;> simp [Cont.Succeeds]
            · next result copy s₁ hresult' hinvoke =>
              rcases hinsert.invokeCont (hws w mem_cons_self) hinvoke with
                ⟨rfl, rfl, hleft⟩ | ⟨-, rfl, -⟩ | ⟨_, _, _, _, _, _, -, rfl, -⟩
              · cases hr
                cases hcopy'
                refine ⟨⟨_, hleft⟩, ?_⟩
                simp only [Option.some.injEq, forall_eq', Cont.Succeeds, iff_false]
                exact hdelivers
              · exact (hresult' rfl).elim
              · exact (hresult' rfl).elim
        · next cont _ _ hmore =>
          have hleft : left ≠ [] ∨ cont = none := by
            by_contra hcon
            obtain ⟨hnil, hcont⟩ := not_or.mp hcon
            obtain ⟨k, rfl⟩ := Option.ne_none_iff_exists'.mp hcont
            exact hmore k (by simp [not_not.mp hnil]) rfl
          exact ih (r := ⟨r.result, some c, r.contInvoked, _⟩) rfl hresult
            (h.insert hreplace cont _ _) (hcovers.tail hleft) hws hr hcopy'

end CopyoutState

/-! ## The copy out -/

namespace CopyoutState
variable {α : Type*} {s s' base : CopyoutState α} {out : Target → ℕ} {c : CopyId} {copy : MapCopy}
  {ws : List (Unlocked α)} {kr : KernReturn} {address : ℕ} {run : CollapseRun}
  {pageList : List (Option PageId)} {npages : ℕ} {cont : Option Cont}

theorem map_segment {β γ : Type*} {g : β → γ} {f : β → β} (hf : ∀ a, g (f a) = g a) (p q : β → Bool)
    (l : List β) : (l.takeWhile p ++ ((l.dropWhile p).takeWhile q).map f ++
      (l.dropWhile p).dropWhile q).map g = l.map g := by
  rw [map_append, map_append, map_map, comp_def,
    map_congr_left fun a _ => hf a, append_assoc, ← map_append,
    List.takeWhile_append_dropWhile, ← map_append, List.takeWhile_append_dropWhile]

theorem clearTransition_owned {t t' : MapState α} {contInvoked : Bool} {last start stop : ℕ}
    (h : t.Owned out) (hr : t.clearTransition contInvoked last start stop = some t') :
    t'.Owned out := by
  unfold MapState.clearTransition at hr
  split_ifs at hr
  · have hlook := h.lookupEntry start
    split at hr
    · next i m hfound =>
      rw [hfound] at hlook
      cases hr
      let clear : VmMapEntry → VmMapEntry :=
        fun entry => { entry with inTransition := false, needsWakeup := false }
      refine hlook.congr (hlook.named.congr (map_segment (f := clear) (fun _ => rfl) _ _ _) rfl rfl)
        fun t => ?_
      rw [refsTo_congr (map_segment (f := clear) (fun _ => rfl) _ _ _)]
    · cases hr
  · cases hr
    exact h.update last (fun _ => rfl) fun _ => rfl

theorem zfree_zone_self (s : CopyoutState α) (c : CopyId) : (s.zfree c).zone c = none := by
  simp [CopyoutState.zfree]

theorem discard_zone (hr : s.vmMapCopyDiscard (some c) = some s') : s'.zone c = none := by
  unfold CopyoutState.vmMapCopyDiscard at hr
  dsimp only at hr
  split at hr
  · cases hr
  · split at hr
    · cases hr
      exact zfree_zone_self _ c
    · cases hr
      exact zfree_zone_self _ c
    · obtain ⟨s₁, -, hr⟩ := Option.map_eq_some_iff.mp hr
      cases hr
      exact zfree_zone_self _ c

theorem not_consumes (hkr : kr ≠ .success) (hzone : s.zone c = none) :
    ¬ Consumes out base c copy kr s := by
  unfold Consumes
  rw [if_neg hkr]
  rintro ⟨s', hdiscard, -⟩
  unfold CopyoutState.vmMapCopyDiscard at hdiscard
  dsimp only at hdiscard
  rw [hzone] at hdiscard
  cases hdiscard

section
variable [PageSize]

/-- There is room for the pages of the copy, when they have been made to be in no object. -/
def FindsRoom (s : CopyoutState α) (c : CopyId) (copy : MapCopy) (ws : List (Unlocked α)) : Prop :=
  ∃ s₁ room t ws', s.stealTabled c = some s₁ ∧
    s₁.toMapState.findRoom (sub (roundPage (add copy.offset copy.size)) (truncPage copy.offset)) ws =
      some (some room, t, ws')

/-- A page list needs room, and continuations that do not fail. -/
def ConsumesWhen (s : CopyoutState α) (c : CopyId) (copy : MapCopy) (ws : List (Unlocked α)) : Prop :=
  match copy.body with
  | .pageList _ _ cont => FindsRoom s c copy ws ∧ ∀ k, cont = some k → k.Succeeds
  | _ => True

theorem Ready.inserting (h : Ready out s c copy) (hbody : copy.body = .pageList pageList npages cont)
    (hr : s.stealTabled c = some s') :
    ∃ left, Inserting out s c copy.pages c 0 left cont s' ∧ Covers
      (sub (roundPage (add copy.offset copy.size)) (truncPage copy.offset) / pageSize) left cont := by
  have hwf := h.wellFormed
  have howned := h.owned
  unfold MapCopy.WellFormed at hwf
  unfold MapCopy.refs at howned
  rw [hbody] at hwf howned
  obtain ⟨pages, rfl, rfl, hcovers⟩ := hwf
  have hpages : copy.pages = pages := by
    unfold MapCopy.pages
    rw [hbody]
    dsimp only
    rw [List.take_of_length_le (by simp)]
    delta List.reduceOption
    rw [List.filterMap_map]
    exact List.filterMap_some
  rw [hpages]
  have hstart : StolenIn s pages pages s := fun m hm => by
    by_cases hmem : m ∈ pages
    · exact .inl hmem
    · exact .inr ⟨hm, hmem⟩
  have hzone : s.zone c = some ⟨copy.offset, copy.size, .pageList (pages.map some) pages.length
      cont⟩ := by
    rw [h.zone, ← hbody]
  obtain ⟨left, hne, hlength, hleft, hz, hnext, hkeep⟩ := stealTabled_spec hstart hzone hr
  refine ⟨left, ⟨⟨copy.offset, copy.size, ?_⟩, .inl rfl, ?_, fun j hj => h.fresh j ?_, hleft,
    hkeep out howned⟩, ?_⟩
  · rw [hz, update_idem]
    rfl
  · rw [hnext]
    by_contra hle
    have := h.fresh c (not_lt.mp hle)
    rw [h.zone] at this
    cases this
  · exact hnext ▸ hj
  · cases cont with
    | none => exact hlength.trans hcovers
    | some k => exact ⟨hne, hlength.trans_le hcovers.1, hlength ▸ hcovers.2⟩

theorem Ready.copyoutPageList (h : Ready out s c copy) (hws : ∀ w ∈ ws, w.Fair)
    (hbody : copy.body = .pageList pageList npages cont)
    (hr : s.vmMapCopyoutPageList run ws c copy = some (kr, address, s')) :
    Consumes out s c copy kr s' ↔ ConsumesWhen s c copy ws := by
  unfold ConsumesWhen
  rw [hbody]
  dsimp only
  unfold CopyoutState.vmMapCopyoutPageList at hr
  split at hr
  · cases hr
  · next s₁ hsteal =>
    obtain ⟨left, hstart, hcovers⟩ := h.inserting hbody hsteal
    dsimp only at hr
    split at hr
    · cases hr
    · next t ws' hroom =>
      -- no room: the copy is discarded
      obtain ⟨s₂, hdiscard, hr⟩ := Option.map_eq_some_iff.mp hr
      cases hr
      refine iff_of_false (not_consumes (by decide) ?_) ?_
      · exact discard_zone hdiscard
      · rintro ⟨⟨s₁', room, t', ws'', hsteal', hroom'⟩, -⟩
        cases hsteal.symm.trans hsteal'
        cases hroom.symm.trans hroom'
    · next start last t ws' hroom =>
      obtain ⟨howned, hfair, hlast⟩ := hstart.owned.findRoom hws hroom
      split at hr
      · cases hr
      · next object i offset s₂ hentry =>
        obtain ⟨howned₂, hsame⟩ := pageListEntry_owned howned (hlast start last rfl) hentry
        have hbegin : Inserting out s c copy.pages c 0 left cont s₂ :=
          ⟨hsame.zone ▸ hstart.zone, hstart.mine, hsame.nextCopy ▸ hstart.below,
            hsame.nextCopy ▸ hstart.fresh, fun m hm => hstart.pages m (hsame.pages ▸ hm), howned₂⟩
        split at hr
        · next result c' contInvoked s₃ hinsert =>
          obtain ⟨⟨j, hdone⟩, hiff⟩ := insertPages_spec object _ rfl rfl hbegin hcovers hfair hinsert rfl
          split at hr
          · next copy' t' hzone hclear =>
            have hcleared := clearTransition_owned hdone.owned hclear
            have hfinds : FindsRoom s c copy ws := ⟨s₁, (start, last), t, ws', hsteal, hroom⟩
            rw [and_iff_right hfinds, ← hiff]
            split_ifs at hr with hsuccess
            · cases hr
              refine iff_of_true ?_ hsuccess
              unfold Consumes
              rw [if_pos rfl]
              exact ⟨hdone.zfree, hcleared, fun m hm => (hdone.pages m hm).resolve_left not_mem_nil⟩
            · cases hr
              refine iff_of_false (not_consumes hsuccess ?_) hsuccess
              have hgone := congrFun hdone.zfree c
              rw [update_self] at hgone
              exact hgone
          · cases hr
        · cases hr

theorem vmMapCopyout_consumes (h : Ready out s c copy) (hws : ∀ w ∈ ws, w.Fair)
    (hr : s.vmMapCopyout run ws (some c) = some (kr, address, s')) :
    Consumes out s c copy kr s' ↔ ConsumesWhen s c copy ws := by
  unfold CopyoutState.vmMapCopyout at hr
  dsimp only at hr
  rw [h.zone] at hr
  dsimp only at hr
  split at hr
  · next object hbody =>
    unfold ConsumesWhen
    rw [hbody]
    exact iff_of_true (h.copyoutObject hws hbody hr) trivial
  · next hbody => exact h.copyoutPageList hws hbody hr
  · next entries hbody =>
    unfold ConsumesWhen
    rw [hbody]
    exact iff_of_true (h.copyoutEntries hws hbody hr) trivial

theorem vmMapCopyOverwrite_consumes {turns dstAddr : ℕ} (h : Ready out s c copy)
    (hws : ∀ w ∈ ws, w.Fair) (hr : s.vmMapCopyOverwrite turns ws dstAddr (some c) = some (kr, s')) :
    Consumes out s c copy kr s' := by
  obtain ⟨entries, hbody⟩ : ∃ entries, copy.body = .entryList entries := by
    unfold CopyoutState.vmMapCopyOverwrite at hr
    dsimp only at hr
    rw [h.zone] at hr
    obtain ⟨offset, size, body⟩ := copy
    cases body with
    | entryList entries => exact ⟨entries, rfl⟩
    | object object => cases hr
    | pageList pageList npages cont => cases hr
  have hpages : copy.pages = [] := by rw [MapCopy.pages, hbody]
  rcases (h.overwriting hbody).vmMapCopyOverwrite hws hr with ⟨hkr, hdone⟩ | ⟨hkr, entries, hleft⟩
  · unfold Consumes
    rw [if_pos hkr]
    exact hdone.settled hpages
  · exact hleft.consumes hkr hpages

end

end CopyoutState

/-! ## Who frees a copy -/

namespace CopyoutState

/-- A page in a list, and a second one that the continuation returns. -/
def twoPages : MapCopy :=
  ⟨0, 8192, .pageList [some 0] 1 (some (.pageList 4096 4096 [(1, .stolen true)] none))⟩

/-- The copy of two pages, and a map that ends at `maxOffset`. -/
def twoPagesState (maxOffset : ℕ) : CopyoutState ℕ where
  kernel := ⟨noObjects, fun _ => false, [], 0, []⟩
  map := VmMap.create 0 maxOffset
  pages m := if m = 0 then .stolen true else .free
  npages := 2
  queueFree := [1]
  zone c := if c = 0 then some twoPages else none
  nextCopy := 1

theorem twoPages_size : letI := pages4096
    sub (roundPage (add twoPages.offset twoPages.size)) (truncPage twoPages.offset) = 8192 := by
  decide

theorem twoPagesState_ready (maxOffset : ℕ) : letI := pages4096
    Ready (fun _ => 0) (twoPagesState maxOffset) 0 twoPages := by
  let _ := pages4096
  have hnamed : (VmMap.create 0 maxOffset).Named :=
    ⟨nodup_nil, fun _ he => absurd he not_mem_nil, fun _ hi => by cases hi⟩
  have hcounted : (⟨noObjects, fun _ => false, [], 0, []⟩ : Kernel ℕ).Counted fun _ => 0 :=
    ⟨fun t => by cases t <;> rfl, fun _ _ hi => (by cases hi), fun _ hi => absurd hi not_mem_nil,
      nodup_nil, nodup_nil⟩
  refine ⟨rfl, ⟨[0], rfl, rfl, ?_⟩,
    ⟨hnamed, hcounted, fun _ hsm => absurd hsm not_mem_nil⟩, fun i hi => if_neg ?_⟩
  · rw [twoPages_size]
    refine ⟨by decide, ?_⟩
    rw [Cont.Delivers]
    decide
  · exact Nat.one_le_iff_ne_zero.mp hi

/-- Nothing happens while the map is unlocked. -/
def undisturbed : Unlocked ℕ := ⟨id, .success, 0⟩

def noCollapse : CollapseRun := ⟨⟨true, true⟩, fun _ => true, 1⟩

end CopyoutState

end MachKernel.Vm
