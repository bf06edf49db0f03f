import MachKernel.Vm.CopyoutPlace
import MachKernel.Vm.Fragments

/-! The entry that `vm_map_copyout_page_list` has in transition while it runs continuations. -/

namespace MachKernel.Vm
open List Option
open Word32 Linked

/-- The entries from the one with a name up to an address. -/
def swept (l : List VmMapEntry) (i stop : ℕ) : List VmMapEntry :=
  (l.dropWhile fun e => e.id ≠ i).takeWhile fun e => e.vmeStart < stop

namespace MapState
variable {α : Type*}

/-- `needs_wakeup` when the bits have been cleared. After a continuation nothing sets it in front of
the loop; `stale` is what it held. -/
def needsWakeup (s : MapState α) (stale contInvoked : Bool) (start stop : ℕ) : Bool :=
  if contInvoked then
    match s.map.lookupEntry start with
    | (true, some i, m) => stale || (swept m.entries i stop).any VmMapEntry.needsWakeup
    | _ => stale
  else false

end MapState

namespace CopyoutState
variable {α : Type*} [PageSize]

/-- The maps that the loop finds when it has the lock again. -/
def windowsFrom (object : ObjId) : ℕ → ℕ → Turn α → List VmMap
  | 0, _, _ => []
  | turns + 1, offset, t =>
    match insertTurn object offset t with
    | none => []
    | some (.inr r) => [r.state.map]
    | some (.inl next) =>
      let rest := windowsFrom object turns (add offset pageSize) next
      if next.ws.length < t.ws.length then next.inserted.state.map :: rest else rest

variable (s : CopyoutState α) (run : CollapseRun) (ws : List (Unlocked α)) (c : CopyId)
  (copy : MapCopy)

def windows : List VmMap :=
  match s.prepare run ws c copy with
  | none => []
  | some p =>
    windowsFrom p.object (copy.span / pageSize) p.offset
      ⟨p.ws, ⟨.success, some c, false, p.state⟩, 0⟩

/-- Whether the call ends with `vm_map_entry_wakeup`. -/
def wakes (stale : Bool) : Bool :=
  match s.prepare run ws c copy with
  | none => false
  | some p =>
    match insertPages p.object (copy.span / pageSize) p.offset p.ws
      ⟨.success, some c, false, p.state⟩ 0 with
    | none => false
    | some r =>
      r.state.toMapState.needsWakeup stale r.contInvoked p.start (add p.start copy.span)

/-- The entry `e` and what has been clipped from it are in transition no longer, and whoever has
come to wait for them in a window has been woken. -/
structure Settles (e : VmMapEntry) (left : VmMap) (stale : Bool) : Prop where
  cleared : ∀ a ∈ left.entries, e.vmeStart ≤ a.vmeStart → a.vmeStart < e.vmeEnd →
    a.inTransition = false
  woken : (∃ m ∈ s.windows run ws c copy, ∃ a ∈ m.entries, e.vmeStart ≤ a.vmeStart ∧
    a.vmeStart < e.vmeEnd ∧ a.needsWakeup = true) → s.wakes run ws c copy stale = true

end CopyoutState

/-! ## A range in transition -/

/-- The addresses of a range are in entries in transition, which lie in it. -/
structure TransitRange (l : List VmMapEntry) (lo hi : ℕ) : Prop where
  covered : ∀ x, lo ≤ x → x < hi → ∃ e ∈ l, e.inTransition = true ∧ e.Covers x
  within : ∀ e ∈ l, e.vmeEnd ≤ lo ∨ hi ≤ e.vmeStart ∨ lo ≤ e.vmeStart ∧ e.vmeEnd ≤ hi

section
variable [PageSize] {m : VmMap} {l l' : List VmMapEntry} {e a b : VmMapEntry} {lo hi start x : ℕ}

theorem VmMap.WellFormed.apart (h : m.WellFormed) (ha : a ∈ m.entries) (hb : b ∈ m.entries) :
    a = b ∨ a.vmeEnd ≤ b.vmeStart ∨ b.vmeEnd ≤ a.vmeStart := by
  have hla := h.nonempty a ha
  have hlb := h.nonempty b hb
  by_cases hmeet : a.vmeStart < b.vmeEnd ∧ b.vmeStart < a.vmeEnd
  · exact .inl (h.eq_of_maps (x := max a.vmeStart b.vmeStart) ha hb (by omega) (by omega))
  · exact .inr (by omega)

theorem TransitRange.entry (h : m.WellFormed) (he : e ∈ m.entries) (ht : e.inTransition = true) :
    TransitRange m.entries e.vmeStart e.vmeEnd := by
  refine ⟨fun x hlo hhi => ⟨e, he, ht, hlo, hhi⟩, fun a ha => ?_⟩
  rcases h.apart ha he with rfl | hle | hle
  · exact .inr (.inr ⟨le_rfl, le_rfl⟩)
  · exact .inl hle
  · exact .inr (.inl hle)

omit [PageSize] in
theorem TransitRange.fragments (h : TransitRange l lo hi) (hf : Fragments l l') :
    TransitRange l' lo hi := by
  constructor
  · intro x hx hx'
    obtain ⟨e, he, ht, hc⟩ := h.covered x hx hx'
    obtain ⟨a, ha, hac, hea⟩ := hf.covered e he ht x hc
    exact ⟨a, ha, hea.inTransition.trans ht, hac⟩
  · intro a ha
    obtain ⟨e, he, hea⟩ := hf.fragment a ha
    have hin := hea.inside
    have := h.within e he
    omega

theorem TransitRange.inTransition (h : TransitRange m.entries lo hi) (hwf : m.WellFormed)
    (ha : a ∈ m.entries) (hlo : lo ≤ a.vmeStart) (hhi : a.vmeStart < hi) :
    a.inTransition = true := by
  obtain ⟨e, he, ht, hc⟩ := h.covered a.vmeStart hlo hhi
  have hpos := hwf.nonempty a ha
  rw [hwf.eq_of_maps ha he ⟨le_rfl, hpos⟩ hc]
  exact ht

omit [PageSize] in
theorem TransitRange.first (h : TransitRange m.entries lo hi) (hlt : lo < hi) :
    ∃ e ∈ m.entries, e.inTransition = true ∧ e.vmeStart = lo ∧ e.vmeStart < e.vmeEnd := by
  obtain ⟨e, he, ht, hc⟩ := h.covered lo le_rfl hlt
  have hlo := hc.1
  have hhi := hc.2
  have := h.within e he
  exact ⟨e, he, ht, by omega, by omega⟩

/-- An entry that begins above the range's first address and not above another one: it has been cut
there. -/
def CutAt (l : List VmMapEntry) (lo start : ℕ) : Prop :=
  ∃ a ∈ l, lo < a.vmeStart ∧ a.vmeStart ≤ start

theorem CutAt.fragments (h : CutAt m.entries lo start) (hwf : m.WellFormed)
    (hheld : TransitRange m.entries lo hi) (hlt : start < hi) (hf : Fragments m.entries l') :
    CutAt l' lo start := by
  obtain ⟨a, ha, hlo, hhi⟩ := h
  have hpos := hwf.nonempty a ha
  have ht := hheld.inTransition hwf ha hlo.le (by omega)
  obtain ⟨b, hb, hc, hab⟩ := hf.covered a ha ht a.vmeStart ⟨le_rfl, hpos⟩
  have hin := hab.inside
  have hle := hc.1
  exact ⟨b, hb, by omega, by omega⟩

end

section
variable [PageSize] {m : VmMap} {b : VmMapEntry} {lo hi start x : ℕ}

theorem TransitRange.above (h : TransitRange m.entries lo hi) (hwf : m.WellFormed)
    (hstart : lo ≤ start ∧ start < hi) (hcut : ¬ CutAt m.entries lo start) (hb : b ∈ m.entries)
    (hx : b.Covers x) (hlo : lo ≤ x) (hhi : x < hi) : start < b.vmeEnd ∧ b.vmeStart < hi := by
  have hxlo := hx.1
  have hxhi := hx.2
  refine ⟨?_, by omega⟩
  by_contra hend
  obtain ⟨d, hd, -, hc⟩ := h.covered start hstart.1 hstart.2
  have hdlo := hc.1
  have hdhi := hc.2
  have hle : ¬ lo < d.vmeStart := fun hlt => hcut ⟨d, hd, hlt, hdlo⟩
  have hin := h.within b hb
  have hsame : d = b := hwf.eq_of_maps (x := x) hd hb (by omega) hx
  rw [hsame] at hdhi
  omega

theorem TransitRange.cut (h : TransitRange m.entries lo hi) (hwf : m.WellFormed) (hlt : lo < hi)
    (hcut : CutAt m.entries lo start) :
    ∃ b ∈ m.entries, b.inTransition = true ∧ b.Covers lo ∧ b.vmeStart = lo ∧ b.vmeEnd ≤ start := by
  obtain ⟨b, hb, ht, hlo, hpos⟩ := h.first hlt
  obtain ⟨a, ha, hlo', hle⟩ := hcut
  have hpos' := hwf.nonempty a ha
  refine ⟨b, hb, ht, ⟨by omega, by omega⟩, hlo, ?_⟩
  rcases hwf.apart hb ha with rfl | hle' | hle'
  · omega
  · omega
  · omega

end

/-! ## The loop -/

namespace CopyoutState
variable {α : Type*} [PageSize] {s s' : CopyoutState α} {run : CollapseRun}
  {ws ws' : List (Unlocked α)} {c : CopyId} {copy : MapCopy} {p : Prepared α}

omit [PageSize] in
theorem findRoom_windows {s s' : MapState α} {size : ℕ} {room : Option (ℕ × Option ℕ)}
    (hr : s.findRoom size ws = some (room, s', ws')) : ws' ⊆ ws := by
  fun_induction MapState.findRoom size ws s with
  | case1 ws s m found hfound =>
    cases hr
    exact List.Subset.refl _
  | case2 => cases hr
  | case3 s m hfull hwait w ws ih => exact subset_cons_of_subset w (ih hr)
  | case4 =>
    cases hr
    exact List.Subset.refl _

theorem prepare_windows (hp : s.prepare run ws c copy = some p) : p.ws ⊆ ws := by
  unfold CopyoutState.prepare at hp
  obtain ⟨s₁, -, hp⟩ := bind_eq_some_iff.mp hp
  split at hp
  · next start last' t ws' hroom =>
    obtain ⟨r, -, hp⟩ := map_eq_some_iff.mp hp
    cases hp
    exact findRoom_windows hroom
  · cases hp

/-- What the loop leaves of the map that it begins with. -/
structure Transits (m : VmMap) (ms : List VmMap) (contInvoked : Bool) (r : Inserted α) : Prop where
  wellFormed : r.state.map.WellFormed
  fragments : Fragments m.entries r.state.map.entries
  window : ∀ m' ∈ ms, m'.WellFormed ∧ Fragments m.entries m'.entries ∧
    Fragments m'.entries r.state.map.entries
  last : ms = [] ∧ r.contInvoked = contInvoked ∧ r.state.map = m ∨
    r.contInvoked = true ∧ r.state.map ∈ ms

theorem insertPages_transits {object : ObjId} {turns offset : ℕ} {t : Turn α} {r : Inserted α}
    (hws : ∀ w ∈ t.ws, w.Ranges) (h : t.inserted.state.map.WellFormed)
    (hr : insertPages object turns offset t.ws t.inserted t.i = some r) :
    Transits t.inserted.state.map (windowsFrom object turns offset t) t.inserted.contInvoked r := by
  induction turns generalizing offset t with
  | zero =>
    cases hr
    exact ⟨h, .refl _, by simp [windowsFrom], .inl ⟨rfl, rfl, rfl⟩⟩
  | succ turns ih =>
    rw [insertPages_succ] at hr
    unfold windowsFrom
    cases hturn : insertTurn object offset t with
    | none =>
      rw [hturn] at hr
      cases hr
    | some next =>
      rw [hturn] at hr
      rcases insertTurn_map hturn with ⟨t', rfl, hsame, hmap, hcont, -⟩ |
        ⟨w, ws, k, r', heq, hmap, hinvoked, hnext⟩
      · dsimp only
        rw [if_neg (by rw [hsame]; omega)]
        have := ih (hsame ▸ hws) (hmap ▸ h) hr
        rw [hmap, hcont] at this
        exact this
      · -- the lock has been given up and taken again
        obtain ⟨hwf, hfrag⟩ := (hws w (by rw [heq]; exact mem_cons_self)).fragments
          (s := ⟨k, t.inserted.state.map⟩) h
        have hwf' : r'.state.map.WellFormed := by
          rw [hmap]
          exact hwf.lock
        have hfrag' : Fragments t.inserted.state.map.entries r'.state.map.entries := by
          rw [hmap]
          exact hfrag
        rcases hnext with ⟨-, rfl⟩ | ⟨-, rfl⟩
        · dsimp only
          rw [if_pos (by rw [heq]; exact Nat.lt_succ_self _)]
          obtain ⟨hdone, hleft, hwindow, hlast⟩ := ih (fun w hw => hws w (by
            rw [heq]
            exact mem_cons_of_mem _ hw)) hwf' hr
          refine ⟨hdone, hfrag'.trans hleft, fun m' hm' => ?_, .inr ?_⟩
          · rcases mem_cons.mp hm' with rfl | hm'
            · exact ⟨hwf', hfrag', hleft⟩
            · obtain ⟨hm, hbefore, hafter⟩ := hwindow m' hm'
              exact ⟨hm, hfrag'.trans hbefore, hafter⟩
          · rcases hlast with ⟨-, hcont, hmap⟩ | ⟨hcont, hmap⟩
            · exact ⟨hcont.trans hinvoked, by rw [hmap]; exact mem_cons_self⟩
            · exact ⟨hcont, mem_cons_of_mem _ hmap⟩
        · cases hr
          refine ⟨hwf', hfrag', fun m' hm' => ?_, .inr ⟨hinvoked, mem_singleton_self _⟩⟩
          rw [mem_singleton.mp hm']
          exact ⟨hwf', hfrag', .refl _⟩

end CopyoutState

/-! ## The bits are cleared -/

section
variable [PageSize] {m : VmMap} {l init post : List VmMapEntry} {e : VmMapEntry} {start stop : ℕ}

/-- What clearing the bits makes of an entry. -/
def VmMapEntry.settle (start stop : ℕ) (e : VmMapEntry) : VmMapEntry :=
  if start < e.vmeEnd ∧ e.vmeStart < stop then
    { e with inTransition := false, needsWakeup := false }
  else e

section
omit [PageSize]

theorem VmMapEntry.settle_range (start stop : ℕ) (e : VmMapEntry) :
    (e.settle start stop).id = e.id ∧ (e.settle start stop).vmeStart = e.vmeStart ∧
      (e.settle start stop).vmeEnd = e.vmeEnd := by
  unfold VmMapEntry.settle
  split_ifs <;> exact ⟨rfl, rfl, rfl⟩

theorem takeWhile_settle (hasc : Ascending l) (hne : ∀ e ∈ l, e.vmeStart < e.vmeEnd)
    (habove : ∀ e ∈ l, start < e.vmeEnd) :
    (l.takeWhile fun e => e.vmeStart < stop).map (fun e =>
        { e with inTransition := false, needsWakeup := false }) ++
      (l.dropWhile fun e => e.vmeStart < stop) = l.map (VmMapEntry.settle start stop) := by
  induction l with
  | nil => rfl
  | cons e l ih =>
    obtain ⟨hfirst, hrest⟩ := pairwise_cons.mp hasc
    have hend := habove e mem_cons_self
    by_cases hlt : e.vmeStart < stop
    · rw [List.takeWhile_cons_of_pos (by simpa using hlt), List.dropWhile_cons_of_pos
        (by simpa using hlt), map_cons, map_cons, cons_append,
        ih hrest (fun a ha => hne a (mem_cons_of_mem _ ha))
          fun a ha => habove a (mem_cons_of_mem _ ha)]
      unfold VmMapEntry.settle
      rw [if_pos ⟨hend, hlt⟩]
    · have hid : ∀ a ∈ e :: l, a.settle start stop = a := fun a ha => by
        have hle : stop ≤ a.vmeStart := by
          rcases mem_cons.mp ha with rfl | ha
          · omega
          · have := hfirst a ha
            have := hne e mem_cons_self
            omega
        unfold VmMapEntry.settle
        rw [if_neg (by omega)]
      rw [List.takeWhile_cons_of_neg (by simpa using hlt), List.dropWhile_cons_of_neg
        (by simpa using hlt), map_congr_left hid, List.map_id']
      rfl

theorem mem_takeWhile_start (hasc : Ascending l) (hne : ∀ e ∈ l, e.vmeStart < e.vmeEnd)
    (he : e ∈ l) (hlt : e.vmeStart < stop) : e ∈ l.takeWhile fun e => e.vmeStart < stop := by
  induction l with
  | nil => cases he
  | cons a l ih =>
    obtain ⟨hfirst, hrest⟩ := pairwise_cons.mp hasc
    have hstart : a.vmeStart < stop := by
      rcases mem_cons.mp he with rfl | he
      · exact hlt
      · have := hfirst e he
        have := hne a mem_cons_self
        omega
    rw [takeWhile_cons_of_pos (by simpa using hstart)]
    rcases mem_cons.mp he with rfl | he
    · exact mem_cons_self
    · exact mem_cons_of_mem _ (ih hrest (fun b hb => hne b (mem_cons_of_mem _ hb)) he)

end

theorem clearTransition_swept {α : Type*} {s t : MapState α} {last : ℕ} (h : s.map.WellFormed)
    (hmaps : s.map.Maps start) (hr : s.clearTransition true last start stop = some t) :
    t.map.WellFormed ∧ t.map.entries = s.map.entries.map (VmMapEntry.settle start stop) ∧
      ∀ stale, (∃ e ∈ s.map.entries, start < e.vmeEnd ∧ e.vmeStart < stop ∧ e.needsWakeup = true) →
        s.needsWakeup stale true start stop = true := by
  obtain ⟨found, hint, pre, post, hlook, hhint, hsplit, hpost, hcase⟩ := h.lookupEntry_spec start
  rcases hcase with ⟨-, hpre⟩ | ⟨rfl, init, e, rfl, hinit, hlo, hhi⟩
  · obtain ⟨a, ha, hax⟩ := hmaps
    rw [hsplit] at ha
    rcases mem_append.mp ha with ha | ha
    · have := hpre a ha
      omega
    · have := hpost a ha
      omega
  · have hplace : Linked.last VmMapEntry.id (init ++ [e]) = some e.id := by simp [Linked.last]
    have hone : s.map.entries = init ++ e :: post := by rw [hsplit]; simp
    have hd := h.distinct
    have hasc := h.ascending
    rw [hone] at hd hasc
    have hne := h.nonempty
    rw [hone] at hne
    have htake := takeWhile_split hd
    have hdrop : ((init ++ e :: post).dropWhile fun b => b.id ≠ e.id) = e :: post := by
      rw [List.dropWhile_append_of_pos (by simpa using hd.ne_of_split.1)]
      simp
    have habove : ∀ a ∈ e :: post, start < a.vmeEnd := by
      intro a ha
      rcases mem_cons.mp ha with rfl | ha
      · exact hhi
      · have := hpost a ha
        have := hne a (by simp [ha])
        omega
    have hbelow : ∀ a ∈ init, a.settle start stop = a := fun a ha => by
      have := hinit a ha
      unfold VmMapEntry.settle
      rw [if_neg (by omega)]
    have hrest : Ascending (e :: post) := (pairwise_append.mp hasc).2.1
    have hsettle : (_ ++ (e :: post).dropWhile fun e => e.vmeStart < stop) = _ :=
      takeWhile_settle hrest (fun a ha => hne a (mem_append_right _ ha)) habove
    have hentries : t.map.entries = s.map.entries.map (VmMapEntry.settle start stop) := by
      unfold MapState.clearTransition at hr
      rw [if_pos rfl, hlook, hplace] at hr
      cases hr
      dsimp only [VmMap.saveHint]
      rw [hone, htake, hdrop, append_assoc, hsettle, map_append,
        map_congr_left hbelow, List.map_id']
    refine ⟨?_, hentries, fun stale hwait => ?_⟩
    · have hmap : t.map = { s.map.saveHint hint with
          entries := s.map.entries.map (VmMapEntry.settle start stop) } := by
        rw [← hentries]
        unfold MapState.clearTransition at hr
        rw [if_pos rfl, hlook, hplace] at hr
        cases hr
        rfl
      rw [hmap]
      exact (h.saveHint hhint).mapEntries (VmMapEntry.settle_range start stop)
    · obtain ⟨a, ha, hstart, hstop, hneeds⟩ := hwait
      unfold MapState.needsWakeup
      rw [if_pos rfl, hlook, hplace]
      dsimp only [VmMap.saveHint]
      unfold swept
      rw [hone, hdrop, Bool.or_eq_true, List.any_eq_true]
      rw [hone] at ha
      have hin : a ∈ e :: post := by
        rcases mem_append.mp ha with ha | ha
        · have := hinit a ha
          omega
        · exact ha
      exact .inr ⟨a, mem_takeWhile_start (pairwise_append.mp hasc).2.1
        (fun b hb => hne b (mem_append_right _ hb)) hin hstop, hneeds⟩

end

/-! ## A call -/

namespace CopyoutState
variable {α : Type*} [PageSize] {s s' : CopyoutState α} {run : CollapseRun}
  {ws : List (Unlocked α)} {c : CopyId} {copy : MapCopy} {kr : KernReturn} {address : ℕ}
  {p : Prepared α} {e : VmMapEntry}

theorem Returned.fragments {r : Inserted α} {c' : CopyId} {last : MapCopy} {t : MapState α}
    (hret : Returned s s' run ws c copy kr address p r c' last t) (h : t.map.WellFormed)
    (hstart : PageAligned p.start) (hstop : PageAligned (add p.start copy.span)) :
    s'.map.WellFormed ∧ Fragments t.map.entries s'.map.entries := by
  by_cases hkr : kr = .success
  · obtain ⟨-, rfl⟩ := hret.success hkr
    exact ⟨h, .refl _⟩
  · have hs' := hret.failure hkr
    have hmap : s'.map = (t.vmMapDelete p.start (add p.start copy.span)).2.map := by
      rw [hs']
      rfl
    have hpass : (t.vmMapDelete p.start (add p.start copy.span)).2 = (runPass
        (Kernel.releaseEntry (Kernel.vmMapDeallocate t.kernel.maps.length))
        (add p.start copy.span) t (t.deleteStart p.start)).after := by
      have hfirst := vmMapDelete_firstPass t p.start (add p.start copy.span) []
      unfold MapState.vmMapDeletePasses at hfirst
      rw [deletePasses_cons] at hfirst
      exact (some.inj hfirst).symm
    obtain ⟨pre, post, hb, -⟩ := deleteStart_begins h hstart
    rw [hmap, hpass]
    exact ⟨(deleteStart_deletes _ h hstart hstop).2,
      (deleteStart_fragments h hstart).trans (hb.fragments hstop _)⟩

/-- A call that runs continuations leaves nothing of its entry in transition, and wakes whoever
waits for it, if and only if in no window the entry is cut above its start and not above the start
of the new range. -/
theorem vmMapCopyoutPageList_settles (hwf : s.map.WellFormed) (hoffset : copy.offset < modulus)
    (hsize : 0 < copy.span) (hws : ∀ w ∈ ws, w.Ranges) (hp : s.prepare run ws c copy = some p)
    (he : p.state.map.entryAt p.entry = some e)
    (hr : s.vmMapCopyoutPageList run ws c copy = some (kr, address, s')) (stale : Bool) :
    Settles s run ws c copy e s'.map stale ↔
      ∀ m ∈ s.windows run ws c copy, ¬ CutAt m.entries e.vmeStart p.start := by
  rcases vmMapCopyoutPageList_returned hr with ⟨-, hnone⟩ | ⟨p', r, c', last, t, hret⟩
  · rw [hp] at hnone
    cases hnone
  · obtain rfl : p' = p := some.inj (hret.prepare.symm.trans hp)
    have hal := MapCopy.span_aligned hoffset
    obtain ⟨pre, post, e', s₁, hbefore, hrange, hmarks, -⟩ :=
      prepare_marks hwf hsize hal (fun w hw => (hws w hw).heeds) hp
    have hfound := hmarks.takes.wellFormed
    obtain rfl : e' = e := by
      have hat := hfound.entryAt hmarks.mem
      rw [hmarks.id, he] at hat
      exact (some.inj hat).symm
    have hbounds := hbefore.bounds
    have hinside := hrange.inside
    have hstop : add p'.start copy.span = e'.vmeEnd := by
      rw [hmarks.stop, add_of_lt (by omega)]
    obtain ⟨hlo, hhi⟩ := hmarks.places.inside
    have hheld := TransitRange.entry hfound hmarks.mem hmarks.inTransition
    obtain ⟨hM, hfrag, hwindow, hlast⟩ := insertPages_transits
      (t := ⟨p'.ws, ⟨.success, some c, false, p'.state⟩, 0⟩)
      (fun w hw => hws w (prepare_windows hp hw)) hfound hret.insertPages
    have hheldM := hheld.fragments hfrag
    have hwindows : s.windows run ws c copy = windowsFrom p'.object (copy.span / pageSize) p'.offset
        ⟨p'.ws, ⟨.success, some c, false, p'.state⟩, 0⟩ := by
      unfold CopyoutState.windows
      rw [hp]
    have hwakes : s.wakes run ws c copy stale =
        r.state.toMapState.needsWakeup stale r.contInvoked p'.start e'.vmeEnd := by
      unfold CopyoutState.wakes
      rw [hp]
      dsimp only
      rw [hret.insertPages, hstop]
    rw [← hwindows] at hwindow hlast
    have hclear := hret.clear
    rw [hstop] at hclear
    have halStop : PageAligned (add p'.start copy.span) := by
      rw [hstop]
      exact (hfound.aligned e' hmarks.mem).2
    rcases hlast with ⟨hnone, hcont, hsame⟩ | ⟨hcont, hmem⟩
    · -- no window: the entry is as it was
      rw [hnone]
      let g (entry : VmMapEntry) : VmMapEntry :=
        if entry.id = p'.entry then { entry with inTransition := false } else entry
      have hg : ∀ b, (g b).id = b.id ∧ (g b).vmeStart = b.vmeStart ∧ (g b).vmeEnd = b.vmeEnd := by
        intro b
        simp only [g]
        split_ifs <;> exact ⟨rfl, rfl, rfl⟩
      have ht : t.map = { r.state.map with entries := r.state.map.entries.map g } := by
        rw [hcont] at hclear
        rw [← some.inj hclear]
        rfl
      obtain ⟨hwf', hfrag'⟩ := hret.fragments (by rw [ht]; exact hM.mapEntries hg) hrange.aligned.1
        halStop
      refine iff_of_true ⟨fun a ha hloa hhia => ?_, fun hwait => ?_⟩ (by simp)
      · obtain ⟨a₀, ha₀, hfa⟩ := hfrag'.fragment a ha
        rw [ht] at ha₀
        obtain ⟨b, hb, rfl⟩ := mem_map.mp ha₀
        have hc := hfa.covers ⟨le_rfl, hwf'.nonempty a ha⟩
        unfold VmMapEntry.Covers at hc
        rw [(hg b).2.1, (hg b).2.2] at hc
        rw [hsame] at hb
        obtain rfl := hfound.eq_of_maps hb hmarks.mem hc ⟨hloa, hhia⟩
        rw [hfa.inTransition]
        simp only [g, if_pos hmarks.id]
      · rw [hnone] at hwait
        obtain ⟨m, hm, -⟩ := hwait
        cases hm
    · rw [hcont] at hclear
      have hmaps : r.state.map.Maps p'.start := by
        obtain ⟨b, hb, -, hc⟩ := hheldM.covered p'.start hlo hhi
        exact ⟨b, hb, hc⟩
      obtain ⟨hwfT, hentries, hneeds⟩ := clearTransition_swept hM hmaps hclear
      obtain ⟨hwf', hfrag'⟩ := hret.fragments hwfT hrange.aligned.1 halStop
      have hcuts : (∀ m ∈ s.windows run ws c copy, ¬ CutAt m.entries e'.vmeStart p'.start) ↔
          ¬ CutAt r.state.map.entries e'.vmeStart p'.start := by
        refine ⟨fun h => h _ hmem, fun h m hm hcut => h ?_⟩
        obtain ⟨hwfm, hbeforem, hafter⟩ := hwindow m hm
        exact hcut.fragments hwfm (hheld.fragments hbeforem) hhi hafter
      rw [hcuts]
      constructor
      · intro hsettled hcut
        obtain ⟨b, hb, htrans, hc, hblo, hbhi⟩ := hheldM.cut hM (by omega) hcut
        have hkept : b.settle p'.start e'.vmeEnd = b := by
          unfold VmMapEntry.settle
          rw [if_neg (by omega)]
        have hbt : b ∈ t.map.entries := by
          rw [hentries, ← hkept]
          exact mem_map_of_mem hb
        obtain ⟨a, ha, hca, hba⟩ := hfrag'.covered b hbt htrans _ hc
        have hin := hba.inside
        have hloa := hca.1
        have hfalse := hsettled.cleared a ha (by omega) (by omega)
        rw [hba.inTransition, htrans] at hfalse
        cases hfalse
      · intro hcut
        refine ⟨fun a ha hloa hhia => ?_, fun hwait => ?_⟩
        · obtain ⟨a₀, ha₀, hfa⟩ := hfrag'.fragment a ha
          rw [hentries] at ha₀
          obtain ⟨b, hb, rfl⟩ := mem_map.mp ha₀
          obtain ⟨-, hbs, hbe⟩ := b.settle_range p'.start e'.vmeEnd
          have hc := hfa.covers ⟨le_rfl, hwf'.nonempty a ha⟩
          unfold VmMapEntry.Covers at hc
          rw [hbs, hbe] at hc
          have habove := hheldM.above hM ⟨hlo, hhi⟩ hcut hb hc hloa hhia
          rw [hfa.inTransition]
          unfold VmMapEntry.settle
          rw [if_pos habove]
        · obtain ⟨m, hm, a, ha, hloa, hhia, hwaits⟩ := hwait
          obtain ⟨hwfm, hbeforem, hafter⟩ := hwindow m hm
          have htrans := (hheld.fragments hbeforem).inTransition hwfm ha hloa hhia
          obtain ⟨b, hb, hc, hab⟩ := hafter.covered a ha htrans a.vmeStart
            ⟨le_rfl, hwfm.nonempty a ha⟩
          obtain ⟨habove, hbelow⟩ := hheldM.above hM ⟨hlo, hhi⟩ hcut hb hc hloa hhia
          rw [hwakes, hcont]
          exact hneeds stale ⟨b, hb, habove, hbelow, hab.needsWakeup hwaits⟩

end CopyoutState

namespace CopyoutState

/-- A map with one page of memory, which a copy of two pages goes on. -/
def appendedState : CopyoutState ℕ :=
  { twoPagesState 65536 with
    map :=
      { VmMap.create 0 65536 with
        entries := [⟨0, 0, 4096, none, 0, false, false, false, false, false, vmProtDefault,
          vmProtAll, vmInheritDefault, 0, 0⟩]
        nentries := 1
        size := 4096
        firstFree := some 0
        nextId := 1 } }

/-- While the continuation runs, another thread does one thing to a range. -/
def window (op : RangeOp) : Unlocked ℕ := ⟨fun s => [op].foldl RangeOp.run s, .success, 0⟩

theorem window_ranges [PageSize] {op : RangeOp} (h : op.Aligned) : (window op).Ranges :=
  ⟨[op], by simpa using h, rfl⟩

theorem appendedState_wellFormed : letI := pages4096
    appendedState.map.WellFormed := by
  let _ := pages4096
  refine ⟨pairwise_singleton _ _, ?_, ?_, ?_, rfl, rfl, ⟨by decide, by decide, by decide⟩,
    nodup_singleton 0, ?_, nofun, ?_⟩
  · simp [appendedState]
  · simp only [appendedState, mem_singleton, forall_eq]
    decide
  · simp [appendedState, VmMap.create]
  · simp [appendedState]
  · simp [appendedState]

/-- Another thread clips the second page of the copy off the first. -/
theorem vmMapCopyoutPageList_settles_second : letI := pages4096
    ∃ p e s', appendedState.prepare noCollapse [window (.clipStart 8192)] 0 twoPages = some p ∧
      p.state.map.entryAt p.entry = some e ∧
      appendedState.vmMapCopyoutPageList noCollapse [window (.clipStart 8192)] 0 twoPages =
        some (.success, 4096, s') ∧
      Settles appendedState noCollapse [window (.clipStart 8192)] 0 twoPages e s'.map false := by
  let _ := pages4096
  have hrun : (appendedState.vmMapCopyoutPageList noCollapse [window (.clipStart 8192)] 0
      twoPages).map (fun r => (r.1, r.2.1)) = some (.success, 4096) := by decide +kernel
  obtain ⟨⟨kr, address, s'⟩, hs', heq⟩ := map_eq_some_iff.mp hrun
  cases heq
  have hprep : (appendedState.prepare noCollapse [window (.clipStart 8192)] 0 twoPages).map
      (fun p => (p.start, (p.state.map.entryAt p.entry).map VmMapEntry.vmeStart)) =
        some (4096, some 0) := by decide +kernel
  obtain ⟨p, hp, heq⟩ := map_eq_some_iff.mp hprep
  obtain ⟨hstart, hentry⟩ := Prod.mk.inj heq
  obtain ⟨e, he, hlo⟩ := map_eq_some_iff.mp hentry
  have hoffset : twoPages.offset < modulus := by decide
  refine ⟨p, e, s', hp, he, hs', (vmMapCopyoutPageList_settles ?_ hoffset (by decide)
    (fun w hw => ?_) hp he hs' false).mpr ?_⟩
  · exact appendedState_wellFormed
  · rw [mem_singleton.mp hw]
    exact window_ranges (show PageAligned 8192 by decide)
  · have hwindows : (appendedState.windows noCollapse [window (.clipStart 8192)] 0 twoPages).map
        (fun m => m.entries.map VmMapEntry.vmeStart) = [[0, 8192]] := by decide +kernel
    rintro m hm ⟨a, ha, habove, hbelow⟩
    have hstarts := mem_map_of_mem (f := fun m : VmMap => m.entries.map VmMapEntry.vmeStart) hm
    rw [hwindows, mem_singleton] at hstarts
    have hin := mem_map_of_mem (f := VmMapEntry.vmeStart) ha
    rw [hstarts] at hin
    simp only [mem_cons, not_mem_nil, or_false] at hin
    omega

theorem vmMapCopyoutPageList_unsettled : letI := pages4096
    ∃ p e s', (∀ w ∈ [window (.protect 4096 8192 ⟨true, false, false⟩ false)], w.Ranges) ∧
      appendedState.prepare noCollapse [window (.protect 4096 8192 ⟨true, false, false⟩ false)] 0
        twoPages = some p ∧
      p.state.map.entryAt p.entry = some e ∧
      appendedState.vmMapCopyoutPageList noCollapse
        [window (.protect 4096 8192 ⟨true, false, false⟩ false)] 0 twoPages =
          some (.success, 4096, s') ∧
      ∀ stale, ¬ Settles appendedState noCollapse
        [window (.protect 4096 8192 ⟨true, false, false⟩ false)] 0 twoPages e s'.map stale := by
  let _ := pages4096
  have hrun : (appendedState.vmMapCopyoutPageList noCollapse
      [window (.protect 4096 8192 ⟨true, false, false⟩ false)] 0 twoPages).map
        (fun r => (r.1, r.2.1, r.2.2.map.entries.map fun a => (a.vmeStart, a.inTransition))) =
      some (.success, 4096, [(0, true), (4096, false), (8192, false)]) := by decide +kernel
  obtain ⟨⟨kr, address, s'⟩, hs', heq⟩ := map_eq_some_iff.mp hrun
  obtain ⟨rfl, rfl, hleft⟩ : kr = .success ∧ address = 4096 ∧ _ := by simpa using heq
  have hprep : (appendedState.prepare noCollapse
      [window (.protect 4096 8192 ⟨true, false, false⟩ false)] 0 twoPages).map
      (fun p => (p.state.map.entryAt p.entry).map fun e => (e.vmeStart, e.vmeEnd)) =
        some (some (0, 12288)) := by decide +kernel
  obtain ⟨p, hp, heq⟩ := map_eq_some_iff.mp hprep
  obtain ⟨e, he, hrange⟩ := map_eq_some_iff.mp heq
  obtain ⟨hlo, hhi⟩ := Prod.mk.inj hrange
  refine ⟨p, e, s', fun w hw => ?_, hp, he, hs', fun stale hsettled => ?_⟩
  · rw [mem_singleton.mp hw]
    exact window_ranges (show PageAligned 4096 ∧ PageAligned 8192 by decide)
  · -- the part below the new range
    have hin : (0, true) ∈ s'.map.entries.map fun a => (a.vmeStart, a.inTransition) := by
      rw [hleft]
      exact mem_cons_self
    obtain ⟨a, ha, heq⟩ := mem_map.mp hin
    obtain ⟨hstart, htrans⟩ := Prod.mk.inj heq
    have hclear := hsettled.cleared a ha (by omega) (by omega)
    rw [htrans] at hclear
    cases hclear

end CopyoutState

end MachKernel.Vm
