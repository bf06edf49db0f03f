import MachKernel.Kern.RunSelect

/-! The scan for stuck threads (`do_runq_scan` and `do_thread_scan` of `kern/sched_prim.c`). -/

namespace MachKernel.Kern.Sched
open Function List
open Word32

def maxStuckThreads : ℕ := 16

/-- The scan looks for these: runnable, and more than one tick behind. -/
def Thread.stuck (schedTick : ℕ) (t : Thread) : Prop :=
  t.state.sched = thRun ∧ 1 < sub schedTick t.schedStamp

instance (schedTick : ℕ) (t : Thread) : Decidable (t.stuck schedTick) :=
  inferInstanceAs (Decidable (_ ∧ _))

namespace System
variable (cfg : Config) (here : ℕ)

/-- The threads of one level; whether there is no more room, and the stuck threads, the last one
that was found first. -/
def scanLevel : List ℕ → List ℕ → System → Bool × List ℕ × System
  | [], stuck, s => (false, stuck, s)
  | th :: ths, stuck, s =>
    let t := s.thread th
    if t.stuck s.schedTick then
      if stuck.length = maxStuckThreads then (true, stuck, s)
      else scanLevel ths (th :: stuck) (s.setThread th { t with refCount := t.refCount + 1 })
    else scanLevel ths stuck s

/-- The levels of a run queue as long as it has threads left; nothing comes of it when the scan
runs off the end of the run queue. -/
def scanLevels (rq : RunQueue) : List ℕ → ℤ → List ℕ → System → Option (Bool × List ℕ × System)
  | [], count, stuck, s => if 0 < count then none else some (false, stuck, s)
  | i :: levels, count, stuck, s =>
    if 0 < count then
      match scanLevel (rq.runq i) stuck s with
      | (true, stuck, s) => some (true, stuck, s)
      | (false, stuck, s) => scanLevels rq levels (count - (rq.runq i).length) stuck s
    else some (false, stuck, s)

def doRunqScan (r : Runq) (stuck : List ℕ) (s : System) : Option (Bool × List ℕ × System) :=
  let rq := s.runq r
  scanLevels rq (List.range' rq.low (nrqs - rq.low)) rq.count stuck s

/-- Pass one, up to the first run queue for which there is no more room. -/
def passOne : List Runq → List ℕ → System → Option (Bool × List ℕ × System)
  | [], stuck, s => some (false, stuck, s)
  | r :: runqs, stuck, s =>
    match doRunqScan r stuck s with
    | none => none
    | some (true, stuck, s) => some (true, stuck, s)
    | some (false, stuck, s) => passOne runqs stuck s

/-- `thread_deallocate`; what it does with the last reference is left out. -/
def threadDeallocate (s : System) (th : ℕ) : Option System :=
  let t := s.thread th
  if 1 < t.refCount then some (s.setThread th { t with refCount := t.refCount - 1 }) else none

/-- The update of a candidate. -/
def fixStuck (s : System) (th : ℕ) : System :=
  if (s.thread th).state = thRun ∧ 1 < sub s.schedTick (s.thread th).schedStamp then
    let s := s.updatePriority cfg th
    if cfg.machFixpri ∧ (s.thread th).policy = .fixedpri then s
    else s.setPri cfg here th (s.thread th).schedPri
  else s

/-- Pass two. -/
def passTwo : List ℕ → System → Option System
  | [], s => some s
  | th :: stuck, s => ((s.fixStuck cfg here th).threadDeallocate th).bind (passTwo stuck)

/-- The run queues that are scanned, where `all_psets` is the list of processor sets. -/
def scanned (allPsets : List ℕ) : List Runq :=
  (if cfg.machHost then allPsets.map Runq.pset else [.pset defaultPset]) ++
    [.processor masterProcessor]

/-- The two passes, and whether a restart is needed. -/
def scanRound (allPsets : List ℕ) (s : System) : Option (Bool × System) :=
  (passOne (scanned cfg allPsets) [] s).bind fun r =>
    (passTwo cfg here r.2.1 r.2.2).map fun s => (r.1, s)

/-- `do_thread_scan`, for at most so many rounds. -/
def doThreadScan (allPsets : List ℕ) : ℕ → System → Option System
  | 0, _ => none
  | n + 1, s =>
    match s.scanRound cfg here allPsets with
    | none => none
    | some (restart, s) => if restart then s.doThreadScan allPsets n else some s

end System

/-! Pass one. -/

/-- With a reference more for each of these. -/
def System.reference (s : System) (ths : List ℕ) : System :=
  { s with
    thread := fun th => { s.thread th with refCount := (s.thread th).refCount + ths.count th } }

/-- On a run queue among these. -/
def System.On (s : System) (runqs : List Runq) (th : ℕ) : Prop :=
  ∃ r ∈ runqs, ∃ i, th ∈ (s.runq r).runq i

/-- A part of pass one that goes through these threads adds references to stuck ones, up to where
there is no more room. -/
def Collects (s : System) (P : ℕ → Prop) (stuck : List ℕ) (r : Bool × List ℕ × System) : Prop :=
  ∃ new, r.2 = (new ++ stuck, s.reference new) ∧
    (∀ th ∈ new, P th ∧ (s.thread th).stuck s.schedTick) ∧
    if r.1 then r.2.1.length = maxStuckThreads
    else ∀ th, P th → (s.thread th).stuck s.schedTick → th ∈ new

section Passes
variable {s s' : System} {a : Runq → Queued} {P Q : ℕ → Prop} {stuck stuck' : List ℕ} {th : ℕ}
  {r : Bool × List ℕ × System}

theorem reference_append (new new' : List ℕ) :
    (s.reference new).reference new' = s.reference (new' ++ new) := by
  unfold System.reference
  dsimp only
  congr 1
  funext x
  rw [List.count_append, Nat.add_assoc, Nat.add_comm (new.count x)]

theorem Inv.reference (h : Inv s a) (new : List ℕ) : Inv (s.reference new) a :=
  h.congr rfl fun _ => rfl

theorem Collects.nil (stuck : List ℕ) (hP : ∀ th, ¬P th) : Collects s P stuck (false, stuck, s) :=
  ⟨[], rfl, nofun, fun th h => absurd h (hP th)⟩

theorem Collects.full (h : Collects s P stuck (true, stuck', s')) (hP : ∀ th, P th → Q th) :
    Collects s Q stuck (true, stuck', s') := by
  obtain ⟨new, heq, hnew, hfull⟩ := h
  exact ⟨new, heq, fun th hth => ⟨hP th (hnew th hth).1, (hnew th hth).2⟩, hfull⟩

theorem Collects.append (h : Collects s P stuck (false, stuck', s'))
    (h' : Collects s' Q stuck' r) : Collects s (fun th => P th ∨ Q th) stuck r := by
  obtain ⟨new, heq, hnew, hall⟩ := h
  obtain ⟨new', heq', hnew', hall'⟩ := h'
  obtain ⟨rfl, rfl⟩ : stuck' = new ++ stuck ∧ s' = s.reference new := Prod.mk.inj heq
  refine ⟨new' ++ new, ?_, fun th hth => ?_, ?_⟩
  · rw [heq', reference_append, append_assoc]
  · rcases mem_append.1 hth with hth | hth
    · exact ⟨.inr (hnew' th hth).1, (hnew' th hth).2⟩
    · exact ⟨.inl (hnew th hth).1, (hnew th hth).2⟩
  · split at hall'
    · next hfull => rwa [if_pos hfull]
    · next hfull =>
      rw [if_neg hfull]
      rintro th (hth | hth) hstuck
      · exact mem_append_right _ (hall th hth hstuck)
      · exact mem_append_left _ (hall' th hth hstuck)

theorem scanLevel_collects (ths stuck : List ℕ) (s : System) :
    Collects s (fun th => th ∈ ths) stuck (System.scanLevel ths stuck s) := by
  induction ths generalizing stuck s with
  | nil => exact Collects.nil stuck fun _ => not_mem_nil
  | cons th ths ih =>
    unfold System.scanLevel
    dsimp only
    split
    · next hstuck =>
      split
      · next hroom => exact ⟨[], rfl, nofun, hroom⟩
      · have hone : Collects s (fun x => x = th) stuck (false, th :: stuck, s.setThread th
            { s.thread th with refCount := (s.thread th).refCount + 1 }) := by
          refine ⟨[th], ?_, fun x hx => ?_, fun x hx _ => mem_singleton.2 hx⟩
          · unfold System.setThread System.reference
            dsimp only
            refine congrArg (Prod.mk (th :: stuck)) ?_
            congr 1
            funext x
            rw [update_apply]
            split
            · next hx => rw [hx, List.count_singleton_self]
            · next hx =>
              rw [List.count_singleton, if_neg (by simpa using Ne.symm hx)]
              rfl
          · obtain rfl := mem_singleton.1 hx
            exact ⟨rfl, hstuck⟩
        simpa only [mem_cons] using hone.append (ih _ _)
    · next hstuck =>
      obtain ⟨new, heq, hnew, hall⟩ := ih stuck s
      refine ⟨new, heq, fun x hx => ⟨mem_cons_of_mem _ (hnew x hx).1, (hnew x hx).2⟩, ?_⟩
      split at hall
      · next hfull => rwa [if_pos hfull]
      · next hfull =>
        rw [if_neg hfull]
        intro x hx hxs
        rcases mem_cons.1 hx with rfl | hx
        · exact absurd hxs hstuck
        · exact hall x hx hxs

theorem scanLevels_collects {rq : RunQueue} {q : Queued} (h : rq.Holds q) (n i : ℕ)
    (hn : i + n = nrqs) (stuck : List ℕ) (s : System) :
    ∃ r, System.scanLevels rq (List.range' i n) (q.filter fun x => i ≤ x.2).length stuck s =
        some r ∧ Collects s (fun th => ∃ j, i ≤ j ∧ th ∈ rq.runq j) stuck r := by
  have hempty : ∀ i, (q.filter fun x => i ≤ x.2).length = 0 → ∀ th,
      ¬∃ j, i ≤ j ∧ th ∈ rq.runq j := by
    rintro i hlen th ⟨j, hj, hth⟩
    rw [h.levels] at hth
    obtain ⟨x, hx, rfl⟩ := mem_map.1 hth
    obtain ⟨hxq, hxj⟩ := mem_filter.1 hx
    rw [← of_decide_eq_true hxj] at hj
    have hmem : x ∈ q.filter fun x => i ≤ x.2 := mem_filter.2 ⟨hxq, decide_eq_true hj⟩
    rw [length_eq_zero_iff.1 hlen] at hmem
    cases hmem
  induction n generalizing i stuck s with
  | zero =>
    have hlen : (q.filter fun x => i ≤ x.2).length = 0 := by
      rw [length_eq_zero_iff, List.filter_eq_nil_iff]
      intro x hx hix
      have hbound := h.bound x hx
      have hix' := of_decide_eq_true hix
      omega
    refine ⟨(false, stuck, s), ?_, Collects.nil stuck (hempty i hlen)⟩
    rw [hlen]
    rfl
  | succ n ih =>
    rw [List.range'_succ]
    unfold System.scanLevels
    split
    · have hlen : ((q.filter fun x => i ≤ x.2).length : ℤ) - (rq.runq i).length =
          (q.filter fun x => i + 1 ≤ x.2).length := by
        have hsplit := List.length_eq_length_filter_add (l := q.filter fun x => i ≤ x.2)
          fun x => x.2 = i
        rw [List.filter_filter, List.filter_filter] at hsplit
        have hfst : q.filter (fun x => decide (x.2 = i) && decide (i ≤ x.2)) =
            q.filter fun x => x.2 = i :=
          List.filter_congr fun x _ => by grind
        have hsnd : q.filter (fun x => !decide (x.2 = i) && decide (i ≤ x.2)) =
            q.filter fun x => i + 1 ≤ x.2 :=
          List.filter_congr fun x _ => by grind
        rw [hfst, hsnd] at hsplit
        rw [h.levels, length_map]
        omega
      have hmore : ∀ th, (th ∈ rq.runq i ∨ ∃ j, i + 1 ≤ j ∧ th ∈ rq.runq j) ↔
          ∃ j, i ≤ j ∧ th ∈ rq.runq j := by
        intro th
        constructor
        · rintro (hth | ⟨j, hj, hth⟩)
          · exact ⟨i, le_rfl, hth⟩
          · exact ⟨j, by omega, hth⟩
        · rintro ⟨j, hj, hth⟩
          rcases hj.eq_or_lt with rfl | hj
          · exact .inl hth
          · exact .inr ⟨j, hj, hth⟩
      have hlevel := scanLevel_collects (rq.runq i) stuck s
      split
      · next stuck' s' heq =>
        rw [heq] at hlevel
        exact ⟨_, rfl, hlevel.full fun th hth => ⟨i, le_rfl, hth⟩⟩
      · next stuck' s' heq =>
        rw [heq] at hlevel
        rw [hlen]
        obtain ⟨r, hr, hrest⟩ := ih (i + 1) (by omega) stuck' s'
        refine ⟨r, hr, ?_⟩
        simpa only [hmore] using hlevel.append hrest
    · next hcount => exact ⟨_, rfl, Collects.nil stuck (hempty i (by omega))⟩

theorem Inv.doRunqScan (h : Inv s a) (q : Runq) (stuck : List ℕ) :
    ∃ r, System.doRunqScan q stuck s = some r ∧
      Collects s (fun th => ∃ i, th ∈ (s.runq q).runq i) stuck r := by
  have hholds := h.holds q
  have hlow : ∀ th, (∃ j, (s.runq q).low ≤ j ∧ th ∈ (s.runq q).runq j) ↔
      ∃ i, th ∈ (s.runq q).runq i := by
    refine fun th => ⟨fun ⟨j, _, hth⟩ => ⟨j, hth⟩, fun ⟨j, hth⟩ => ⟨j, ?_, hth⟩⟩
    rw [hholds.levels] at hth
    obtain ⟨x, hx, -⟩ := mem_map.1 hth
    obtain ⟨hxq, hxj⟩ := mem_filter.1 hx
    exact of_decide_eq_true hxj ▸ hholds.low x hxq
  unfold System.doRunqScan
  dsimp only
  rw [hholds.count]
  rcases (a q).eq_nil_or_concat with hnil | ⟨l, x, hl⟩
  · refine ⟨(false, stuck, s), ?_, Collects.nil stuck ?_⟩
    · rw [hnil]
      cases List.range' (s.runq q).low (nrqs - (s.runq q).low) <;> rfl
    · rintro th ⟨i, hth⟩
      rw [hholds.levels, hnil] at hth
      cases hth
  · have hx : x ∈ a q := hl ▸ by simp
    have hbound := (hholds.low x hx).trans_lt (hholds.bound x hx)
    have hall : (a q).filter (fun x => (s.runq q).low ≤ x.2) = a q :=
      List.filter_eq_self.2 fun x hx => decide_eq_true (hholds.low x hx)
    have hscan := scanLevels_collects hholds (nrqs - (s.runq q).low) (s.runq q).low (by omega)
      stuck s
    simpa only [hall, hlow] using hscan

theorem Inv.passOne (h : Inv s a) (runqs : List Runq) (stuck : List ℕ) :
    ∃ r, System.passOne runqs stuck s = some r ∧ Collects s (s.On runqs) stuck r := by
  induction runqs generalizing stuck s with
  | nil => exact ⟨_, rfl, Collects.nil stuck fun th ⟨r, hr, _⟩ => by cases hr⟩
  | cons q runqs ih =>
    obtain ⟨⟨full, stuck', s'⟩, hscan, hcollects⟩ := h.doRunqScan q stuck
    unfold System.passOne
    rw [hscan]
    cases full with
    | true =>
      exact ⟨_, rfl, hcollects.full fun th hth => ⟨q, mem_cons_self, hth⟩⟩
    | false =>
      obtain ⟨new, heq, -, -⟩ := id hcollects
      obtain ⟨-, rfl⟩ : stuck' = new ++ stuck ∧ s' = s.reference new := Prod.mk.inj heq
      obtain ⟨r, hr, hrest⟩ := ih (h.reference new) stuck'
      refine ⟨r, hr, ?_⟩
      have hon : ∀ th, ((∃ i, th ∈ (s.runq q).runq i) ∨ (s.reference new).On runqs th) ↔
          s.On (q :: runqs) th := by
        intro th
        unfold System.On
        rw [List.exists_mem_cons_iff]
        rfl
      have happend := hcollects.append hrest
      simp only [hon] at happend
      exact happend

/-! Pass two. -/

theorem Inv.mem_level (h : Inv s a) (r : Runq) (i : ℕ) :
    th ∈ (s.runq r).runq i ↔ (th, i) ∈ a r := by
  rw [(h.holds r).levels, mem_map]
  constructor
  · rintro ⟨x, hx, rfl⟩
    obtain ⟨hxr, hxi⟩ := mem_filter.1 hx
    rw [← of_decide_eq_true hxi]
    exact hxr
  · exact fun hth => ⟨(th, i), mem_filter.2 ⟨hth, decide_eq_true rfl⟩, rfl⟩

/-- On no level but that of its priority. -/
def System.Placed (s : System) (th : ℕ) : Prop :=
  ∀ r i, th ∈ (s.runq r).runq i → i = RunQueue.whichq (s.thread th).schedPri

/-- Only this thread changes, and where it is queued. -/
structure Only (th : ℕ) (s s' : System) : Prop where
  tick : s'.schedTick = s.schedTick
  load : ∀ i, (s'.pset i).schedLoad = (s.pset i).schedLoad
  thread : ∀ x ≠ th, s'.thread x = s.thread x
  runq : ∀ x ≠ th, ∀ r i, x ∈ (s'.runq r).runq i ↔ x ∈ (s.runq r).runq i

theorem Only.refl (th : ℕ) (s : System) : Only th s s :=
  ⟨rfl, fun _ => rfl, fun _ _ => rfl, fun _ _ _ _ => Iff.rfl⟩

theorem Only.trans {s'' : System} (h : Only th s s') (h' : Only th s' s'') : Only th s s'' where
  tick := h'.tick.trans h.tick
  load i := (h'.load i).trans (h.load i)
  thread x hx := (h'.thread x hx).trans (h.thread x hx)
  runq x hx r i := (h'.runq x hx r i).trans (h.runq x hx r i)

theorem only_setThread (th : ℕ) (t : Thread) : Only th s (s.setThread th t) :=
  ⟨rfl, fun _ => rfl, fun _ hx => update_of_ne hx .., fun _ _ _ _ => Iff.rfl⟩

theorem setPri_thread (hstamp : (s.thread th).schedStamp = s.schedTick) (cfg : Config) (here : ℕ)
    (pri : ℤ) : (s.setPri cfg here th pri).schedTick = s.schedTick ∧
      (∀ i, ((s.setPri cfg here th pri).pset i).schedLoad = (s.pset i).schedLoad) ∧
      ∃ q, (s.setPri cfg here th pri).thread =
        update s.thread th { s.thread th with schedPri := pri, runq := q } := by
  unfold System.setPri System.remRunq
  cases hq : (s.thread th).runq with
  | none =>
    dsimp only
    refine ⟨rfl, fun _ => rfl, none, ?_⟩
    rw [← hq]
    rfl
  | some q =>
    dsimp only
    have hupdate : (((s.setRunq q ((s.runq q).remove th)).setThread th
        { s.thread th with runq := none }).setThread th
          { ((s.setRunq q ((s.runq q).remove th)).setThread th
            { s.thread th with runq := none }).thread th with schedPri := pri }) =
        (s.setRunq q ((s.runq q).remove th)).setThread th
          { s.thread th with schedPri := pri, runq := none } := by
      unfold System.setThread
      dsimp only
      rw [update_self, update_idem]
    rw [hupdate]
    unfold System.threadSetrun
    rw [if_neg]
    · rcases setrun_same (s := (s.setRunq q ((s.runq q).remove th)).setThread th
        { s.thread th with schedPri := pri, runq := none }) cfg here th true with h | ⟨q', h⟩
      · exact ⟨h.tick, h.load, none, h.thread⟩
      · refine ⟨h.tick, h.load, some q', ?_⟩
        rw [h.thread]
        dsimp only [System.runQueueEnqueue, System.setThread, System.setRunq]
        rw [update_self, update_idem]
    · dsimp only [System.setThread]
      rw [update_self]
      exact not_not.2 hstamp

theorem Inv.setPri_only (h : Inv s a) (hstamp : (s.thread th).schedStamp = s.schedTick)
    (cfg : Config) (here : ℕ) (pri : ℤ) :
    (∃ a', Inv (s.setPri cfg here th pri) a') ∧ Only th s (s.setPri cfg here th pri) ∧
      (∃ q, (s.setPri cfg here th pri).thread th =
        { s.thread th with schedPri := pri, runq := q }) ∧
      (s.setPri cfg here th pri).Placed th := by
  obtain ⟨a', ha', hpri⟩ := h.setPri cfg here th pri
  obtain ⟨htick, hload, q, hthread⟩ := setPri_thread hstamp cfg here pri
  generalize s.setPri cfg here th pri = s' at ha' hpri htick hload hthread ⊢
  have hwithout : ∀ r x i, (x, i) ∈ (a r).without th ↔ (x, i) ∈ a r ∧ x ≠ th := fun r x i =>
    mem_filter.trans (and_congr_right' decide_eq_true_iff)
  have hplace : (a' = fun r => (a r).without th) ∨ ∃ q, a' = update (fun r => (a r).without th) q
        ((a q).without th ++ [(th, RunQueue.whichq (s'.thread th).schedPri)]) := by
    split at hpri
    · exact .inl hpri
    · unfold Enqueued at hpri
      split at hpri
      · exact .inl hpri
      · exact .inr ⟨_, hpri⟩
  have hqueued : ∀ r x i, (x, i) ∈ a' r →
      (x, i) ∈ a r ∧ x ≠ th ∨ x = th ∧ i = RunQueue.whichq (s'.thread th).schedPri := by
    intro r x i hx
    rcases hplace with rfl | ⟨q, rfl⟩
    · exact .inl ((hwithout r x i).1 hx)
    · rw [update_apply] at hx
      split at hx
      · next hr =>
        rcases mem_append.1 hx with hx | hx
        · exact .inl ((hwithout r x i).1 (hr ▸ hx))
        · obtain ⟨rfl, rfl⟩ := Prod.mk.inj (mem_singleton.1 hx)
          exact .inr ⟨rfl, rfl⟩
      · exact .inl ((hwithout r x i).1 hx)
  have hkept : ∀ r x i, x ≠ th → (x, i) ∈ a r → (x, i) ∈ a' r := by
    intro r x i hne hx
    have hx' := (hwithout r x i).2 ⟨hx, hne⟩
    rcases hplace with rfl | ⟨q, rfl⟩
    · exact hx'
    · rw [update_apply]
      split
      · next hr => exact mem_append_left _ (hr ▸ hx')
      · exact hx'
  refine ⟨⟨a', ha'⟩, ⟨htick, hload, fun x hx => ?_, fun x hx r i => ?_⟩, ⟨q, ?_⟩, fun r i hth => ?_⟩
  · rw [hthread, update_of_ne hx]
  · rw [ha'.mem_level, h.mem_level]
    constructor
    · intro hxi
      rcases hqueued r x i hxi with ⟨hxi, -⟩ | ⟨heq, -⟩
      · exact hxi
      · exact absurd heq hx
    · exact hkept r x i hx
  · rw [hthread, update_self]
  · rcases hqueued r th i ((ha'.mem_level r i).1 hth) with ⟨-, hne⟩ | ⟨-, hi⟩
    · exact absurd rfl hne
    · exact hi

/-- A thread with its priority up to date. -/
def System.updated (cfg : Config) (s : System) (th : ℕ) : Thread :=
  (s.thread th).updatePriority cfg s.schedTick (s.pset (s.thread th).processorSet).schedLoad

theorem add_sub_self {a : ℕ} (ha : a < modulus) (b : ℕ) : add b (sub a b) = a := by
  unfold add sub modulus at *
  omega

theorem updatePriority_stamp (cfg : Config) {tick : ℕ} (htick : tick < modulus) (load : ℕ)
    (t : Thread) : (t.updatePriority cfg tick load).schedStamp = tick := by
  have hstamp : (t.updatePriority cfg tick load).schedStamp =
      add t.schedStamp (sub tick t.schedStamp) := by
    unfold Thread.updatePriority
    dsimp only
    split <;> rfl
  rw [hstamp, add_sub_self htick]

theorem updatePriority_refCount (cfg : Config) (tick load n : ℕ) (t : Thread) :
    Thread.updatePriority cfg tick load { t with refCount := n } =
      { t.updatePriority cfg tick load with refCount := n } := by
  unfold Thread.updatePriority
  dsimp only
  split <;> rfl

theorem updated_refCount (cfg : Config) (s : System) (th : ℕ) :
    (s.updated cfg th).refCount = (s.thread th).refCount := by
  unfold System.updated Thread.updatePriority
  dsimp only
  split <;> rfl

theorem updatePriority_fixed {cfg : Config} {t : Thread} {tick load : ℕ}
    (hfixed : cfg.machFixpri ∧ (t.updatePriority cfg tick load).policy = .fixedpri) :
    (t.updatePriority cfg tick load).schedPri = t.schedPri := by
  have hpolicy : (t.updatePriority cfg tick load).policy = t.policy := by
    unfold Thread.updatePriority
    dsimp only
    split <;> rfl
  rw [hpolicy] at hfixed
  unfold Thread.updatePriority
  dsimp only
  rw [if_neg]
  rintro ⟨hpol, -⟩
  rw [hfixed.1, hfixed.2] at hpol
  cases hpol

theorem Inv.fixStuck (h : Inv s a) (hplaced : s.Placed th) (htick : s.schedTick < modulus)
    (cfg : Config) (here : ℕ) :
    (∃ a', Inv (s.fixStuck cfg here th) a') ∧ Only th s (s.fixStuck cfg here th) ∧
      if (s.thread th).state = thRun ∧ 1 < sub s.schedTick (s.thread th).schedStamp then
        (∃ q, (s.fixStuck cfg here th).thread th = { s.updated cfg th with runq := q }) ∧
          (s.fixStuck cfg here th).Placed th
      else s.fixStuck cfg here th = s := by
  unfold System.fixStuck
  split
  · have hupdate : Inv (s.updatePriority cfg th) a :=
      h.congr rfl (System.updatePriority_runq cfg s th)
    have hthread : (s.updatePriority cfg th).thread th = s.updated cfg th :=
      update_self ..
    have honly : Only th s (s.updatePriority cfg th) := only_setThread ..
    dsimp only
    rw [hthread]
    split
    · next hfixed =>
      refine ⟨⟨a, hupdate⟩, honly, ⟨_, hthread⟩, fun r i hth => ?_⟩
      rw [hthread]
      exact (hplaced r i hth).trans (congrArg _ (updatePriority_fixed hfixed).symm)
    · have hstamp : ((s.updatePriority cfg th).thread th).schedStamp =
          (s.updatePriority cfg th).schedTick := by
        rw [hthread]
        exact updatePriority_stamp cfg htick _ _
      obtain ⟨hinv, honly', ⟨q, hq⟩, hplaced'⟩ :=
        hupdate.setPri_only hstamp cfg here (s.updated cfg th).schedPri
      refine ⟨hinv, honly.trans honly', ⟨q, ?_⟩, hplaced'⟩
      rw [hq, hthread]
  · exact ⟨⟨a, h⟩, Only.refl th s, rfl⟩

/-! The scan. -/

/-- Neither the thread nor where it is queued has changed, but for references. -/
def Untouched (s₀ s : System) (th : ℕ) : Prop :=
  (∃ n, s.thread th = { s₀.thread th with refCount := n }) ∧
    ∀ r i, th ∈ (s.runq r).runq i ↔ th ∈ (s₀.runq r).runq i

/-- The priority of the thread is up to date, and it is queued by it. -/
def Updated (cfg : Config) (s₀ s : System) (th : ℕ) : Prop :=
  (s₀.thread th).state = thRun ∧
    (∃ q n, s.thread th = { s₀.updated cfg th with runq := q, refCount := n }) ∧ s.Placed th

/-- Each thread on a run queue is referenced and at the level of its priority. -/
structure Kept (s : System) : Prop where
  inv : ∃ a, Inv s a
  placed : ∀ th, s.Placed th
  live : ∀ r i, ∀ th ∈ (s.runq r).runq i, 0 < (s.thread th).refCount
  tick : s.schedTick < modulus

/-- What a scan has come to, with references to such candidates. -/
structure Scanning (cfg : Config) (runqs : List Runq) (s₀ : System) (stuck : List ℕ) (s : System) :
    Prop where
  inv : ∃ a, Inv s a
  tick : s.schedTick = s₀.schedTick
  load : ∀ i, (s.pset i).schedLoad = (s₀.pset i).schedLoad
  refs : ∀ th, (s.thread th).refCount = (s₀.thread th).refCount + stuck.count th
  queued : ∀ th ∈ stuck, s₀.On runqs th
  each : ∀ th, Untouched s₀ s th ∨ Updated cfg s₀ s th

section Scanning
variable {cfg : Config} {runqs : List Runq} {allPsets : List ℕ} {s₀ : System}

theorem Kept.scanning (h : Kept s₀) : Scanning cfg runqs s₀ [] s₀ where
  inv := h.inv
  tick := rfl
  load _ := rfl
  refs _ := rfl
  queued := nofun
  each _ := .inl ⟨⟨_, rfl⟩, fun _ _ => Iff.rfl⟩

theorem Untouched.setCount (h : Untouched s₀ s th) {n : ℕ}
    (hthread : s'.thread th = { s.thread th with refCount := n })
    (hrunq : ∀ r i, th ∈ (s'.runq r).runq i ↔ th ∈ (s.runq r).runq i) : Untouched s₀ s' th := by
  obtain ⟨⟨_, heq⟩, hplace⟩ := h
  exact ⟨⟨n, by rw [hthread, heq]⟩, fun r i => (hrunq r i).trans (hplace r i)⟩

theorem Updated.setCount (h : Updated cfg s₀ s th) {n : ℕ}
    (hthread : s'.thread th = { s.thread th with refCount := n })
    (hrunq : ∀ r i, th ∈ (s'.runq r).runq i ↔ th ∈ (s.runq r).runq i) :
    Updated cfg s₀ s' th := by
  obtain ⟨hrun, ⟨q, _, heq⟩, hplaced⟩ := h
  refine ⟨hrun, ⟨q, n, by rw [hthread, heq]⟩, fun r i hth => ?_⟩
  rw [hthread]
  exact hplaced r i ((hrunq r i).1 hth)

theorem Untouched.stuck_iff (h : Untouched s₀ s th) (htick : s.schedTick = s₀.schedTick) :
    (s.thread th).stuck s.schedTick ↔ (s₀.thread th).stuck s₀.schedTick := by
  obtain ⟨⟨_, heq⟩, -⟩ := h
  rw [heq, htick]
  exact Iff.rfl

theorem sub_self (a : ℕ) : sub a a = 0 := by
  unfold sub modulus
  omega

theorem Updated.not_behind (h : Updated cfg s₀ s th) (htick : s.schedTick = s₀.schedTick)
    (hlt : s₀.schedTick < modulus) : ¬1 < sub s.schedTick (s.thread th).schedStamp := by
  obtain ⟨-, ⟨_, _, heq⟩, -⟩ := h
  have hstamp : (s.thread th).schedStamp = s₀.schedTick := by
    rw [heq]
    exact updatePriority_stamp cfg hlt _ _
  rw [hstamp, htick, sub_self]
  exact Nat.not_lt_zero 1

theorem Scanning.reference (h : Scanning cfg runqs s₀ stuck s) {new : List ℕ}
    (hnew : ∀ th ∈ new, s₀.On runqs th) :
    Scanning cfg runqs s₀ (new ++ stuck) (s.reference new) where
  inv := h.inv.imp fun _ ha => ha.reference new
  tick := h.tick
  load := h.load
  refs th := by
    rw [List.count_append, Nat.add_comm (new.count th), ← Nat.add_assoc, ← h.refs]
    rfl
  queued th hth := (mem_append.1 hth).elim (hnew th) (h.queued th)
  each th := (h.each th).imp (fun hth => hth.setCount rfl fun _ _ => Iff.rfl)
    fun hth => hth.setCount rfl fun _ _ => Iff.rfl

theorem Scanning.placed (h : Scanning cfg runqs s₀ stuck s) (hs₀ : Kept s₀) (th : ℕ) :
    s.Placed th := by
  rcases h.each th with ⟨⟨n, heq⟩, hplace⟩ | hupdated
  · intro r i hth
    rw [heq]
    exact hs₀.placed th r i ((hplace r i).1 hth)
  · exact hupdated.2.2

theorem Scanning.fix (h : Scanning cfg runqs s₀ (th :: stuck) s) (hs₀ : Kept s₀) (here : ℕ) :
    ∃ s', (s.fixStuck cfg here th).threadDeallocate th = some s' ∧
      Scanning cfg runqs s₀ stuck s' ∧ (∀ x, Updated cfg s₀ s x → Updated cfg s₀ s' x) ∧
      ((s₀.thread th).state = thRun → (s₀.thread th).stuck s₀.schedTick →
        Updated cfg s₀ s' th) := by
  obtain ⟨a, ha⟩ := h.inv
  have hlt : s.schedTick < modulus := h.tick ▸ hs₀.tick
  obtain ⟨⟨a', ha'⟩, honly, hfix⟩ := ha.fixStuck (h.placed hs₀ th) hlt cfg here
  -- what has become of the candidate before its reference is released
  have hcandidate : (Untouched s₀ (s.fixStuck cfg here th) th ∨
      Updated cfg s₀ (s.fixStuck cfg here th) th) ∧
      (Updated cfg s₀ s th → Updated cfg s₀ (s.fixStuck cfg here th) th) ∧
      ((s₀.thread th).state = thRun → (s₀.thread th).stuck s₀.schedTick →
        Updated cfg s₀ (s.fixStuck cfg here th) th) ∧
      ((s.fixStuck cfg here th).thread th).refCount = (s.thread th).refCount := by
    split at hfix
    · next htest =>
      obtain ⟨⟨q, hq⟩, hplaced⟩ := hfix
      rcases h.each th with ⟨⟨n, heq⟩, -⟩ | hupdated
      · have hnew : s.updated cfg th = { s₀.updated cfg th with refCount := n } := by
          unfold System.updated
          rw [heq, h.tick, updatePriority_refCount, h.load]
        have hupdated : Updated cfg s₀ (s.fixStuck cfg here th) th := by
          refine ⟨?_, ⟨q, n, ?_⟩, hplaced⟩
          · have hrun := htest.1
            rw [heq] at hrun
            exact hrun
          · rw [hq, hnew]
        refine ⟨.inr hupdated, fun _ => hupdated, fun _ _ => hupdated, ?_⟩
        rw [hq, hnew, heq]
      · exact absurd htest.2 (hupdated.not_behind h.tick hs₀.tick)
    · next htest =>
      rw [hfix]
      refine ⟨h.each th, id, fun hrun hstuck => ?_, rfl⟩
      rcases h.each th with huntouched | hupdated
      · obtain ⟨⟨_, heq⟩, -⟩ := id huntouched
        refine absurd ⟨?_, ((huntouched.stuck_iff h.tick).2 hstuck).2⟩ htest
        rw [heq]
        exact hrun
      · exact hupdated
  obtain ⟨heach, hkept, hfixed, hrefs⟩ := hcandidate
  generalize s.fixStuck cfg here th = s₁ at ha' honly heach hkept hfixed hrefs
  have hcount : (s₁.thread th).refCount = (s₀.thread th).refCount + stuck.count th + 1 := by
    rw [hrefs, h.refs, List.count_cons_self, Nat.add_assoc]
  have hlive : 0 < (s₀.thread th).refCount := by
    obtain ⟨r, -, i, hth⟩ := h.queued th mem_cons_self
    exact hs₀.live r i th hth
  have hself : ∀ n, (s₁.setThread th { s₁.thread th with refCount := n }).thread th =
      { s₁.thread th with refCount := n } := fun n => update_self ..
  have hother : ∀ n, ∀ x ≠ th, (s₁.setThread th { s₁.thread th with refCount := n }).thread x =
      s.thread x := fun n x hx => (update_of_ne hx ..).trans (honly.thread x hx)
  have hcarry : ∀ n x, Updated cfg s₀ s x →
      Updated cfg s₀ (s₁.setThread th { s₁.thread th with refCount := n }) x := by
    intro n x hupdated
    by_cases hx : x = th
    · rw [hx] at hupdated ⊢
      exact (hkept hupdated).setCount (hself n) fun _ _ => Iff.rfl
    · exact hupdated.setCount (hother n x hx) (honly.runq x hx)
  unfold System.threadDeallocate
  dsimp only
  rw [if_pos (by omega)]
  refine ⟨_, rfl, ⟨⟨a', ha'.congr rfl fun x => ?_⟩, honly.tick.trans h.tick,
    fun i => (honly.load i).trans (h.load i), fun x => ?_,
    fun x hx => h.queued x (mem_cons_of_mem _ hx), fun x => ?_⟩, hcarry _,
    fun hrun hstuck => (hfixed hrun hstuck).setCount (hself _) fun _ _ => Iff.rfl⟩
  · by_cases hx : x = th
    · rw [hx, hself]
    · rw [hother _ x hx, honly.thread x hx]
  · by_cases hx : x = th
    · rw [hx, hself]
      dsimp only
      omega
    · rw [hother _ x hx, h.refs, List.count_cons_of_ne (Ne.symm hx)]
  · by_cases hx : x = th
    · rw [hx]
      exact heach.imp (fun hth => hth.setCount (hself _) fun _ _ => Iff.rfl)
        fun hth => hth.setCount (hself _) fun _ _ => Iff.rfl
    · exact (h.each x).imp (fun hth => hth.setCount (hother _ x hx) (honly.runq x hx)) (hcarry _ x)

theorem Scanning.passTwo (h : Scanning cfg runqs s₀ stuck s) (hs₀ : Kept s₀) (here : ℕ) :
    ∃ s', System.passTwo cfg here stuck s = some s' ∧ Scanning cfg runqs s₀ [] s' ∧
      (∀ x, Updated cfg s₀ s x → Updated cfg s₀ s' x) ∧
      ∀ th ∈ stuck, (s₀.thread th).state = thRun → (s₀.thread th).stuck s₀.schedTick →
        Updated cfg s₀ s' th := by
  induction stuck generalizing s with
  | nil => exact ⟨s, rfl, h, fun _ => id, nofun⟩
  | cons th stuck ih =>
    obtain ⟨s₁, hfix, h₁, hkept, hfixed⟩ := h.fix hs₀ here
    obtain ⟨s', hpass, h', hkept', hfixed'⟩ := ih h₁
    refine ⟨s', ?_, h', fun x hx => hkept' x (hkept x hx), fun x hx hrun hstuck => ?_⟩
    · unfold System.passTwo
      rw [hfix]
      exact hpass
    · rcases mem_cons.1 hx with rfl | hx
      · exact hkept' x (hfixed hrun hstuck)
      · exact hfixed' x hx hrun hstuck

theorem Scanning.round (h : Scanning cfg (System.scanned cfg allPsets) s₀ [] s) (hs₀ : Kept s₀)
    (here : ℕ) : ∃ restart s', s.scanRound cfg here allPsets = some (restart, s') ∧
      Scanning cfg (System.scanned cfg allPsets) s₀ [] s' ∧
      (∀ x, Updated cfg s₀ s x → Updated cfg s₀ s' x) ∧
      if restart then ∃ th, ¬Updated cfg s₀ s th ∧ s₀.On (System.scanned cfg allPsets) th ∧
        (s₀.thread th).stuck s₀.schedTick ∧ ((s₀.thread th).state = thRun → Updated cfg s₀ s' th)
      else ∀ th, s₀.On (System.scanned cfg allPsets) th → (s₀.thread th).stuck s₀.schedTick →
        (s₀.thread th).state = thRun → Updated cfg s₀ s' th := by
  obtain ⟨a, ha⟩ := h.inv
  obtain ⟨⟨restart, found, s₁⟩, hpass, new, heq, hnew, hfull⟩ :=
    ha.passOne (System.scanned cfg allPsets) []
  obtain ⟨rfl, rfl⟩ : found = new ++ [] ∧ s₁ = s.reference new := Prod.mk.inj heq
  rw [append_nil] at hpass hfull
  have hon : ∀ th, Untouched s₀ s th →
      (s.On (System.scanned cfg allPsets) th ↔ s₀.On (System.scanned cfg allPsets) th) := by
    intro th huntouched
    unfold System.On
    simp only [huntouched.2]
  -- what is found was there at the start, and was not updated
  have hfound : ∀ th ∈ new, ¬Updated cfg s₀ s th ∧ s₀.On (System.scanned cfg allPsets) th ∧
      (s₀.thread th).stuck s₀.schedTick := by
    intro th hth
    obtain ⟨hth, hstuck⟩ := hnew th hth
    have hnot : ¬Updated cfg s₀ s th := fun hupdated =>
      hupdated.not_behind h.tick hs₀.tick hstuck.2
    have huntouched := (h.each th).resolve_right hnot
    exact ⟨hnot, (hon th huntouched).1 hth, (huntouched.stuck_iff h.tick).1 hstuck⟩
  have hreference := h.reference fun th hth => (hfound th hth).2.1
  rw [append_nil] at hreference
  obtain ⟨s', hpass', h', hkept, hfixed⟩ := hreference.passTwo hs₀ here
  have hkept' : ∀ x, Updated cfg s₀ s x → Updated cfg s₀ s' x := fun x hx =>
    hkept x (hx.setCount rfl fun _ _ => Iff.rfl)
  refine ⟨restart, s', ?_, h', hkept', ?_⟩
  · unfold System.scanRound
    rw [hpass, Option.bind_some, hpass']
    rfl
  · split at hfull
    · next hrestart =>
      rw [if_pos hrestart]
      obtain ⟨th, hth⟩ : ∃ th, th ∈ new := by
        refine List.exists_mem_of_ne_nil _ fun hnil => ?_
        rw [hnil] at hfull
        cases hfull
      obtain ⟨hnot, hon₀, hstuck⟩ := hfound th hth
      exact ⟨th, hnot, hon₀, hstuck, fun hrun => hfixed th hth hrun hstuck⟩
    · next hrestart =>
      rw [if_neg hrestart]
      intro th hon₀ hstuck hrun
      rcases h.each th with huntouched | hupdated
      · exact hfixed th (hfull th ((hon th huntouched).2 hon₀)
          ((huntouched.stuck_iff h.tick).2 hstuck)) hrun hstuck
      · exact hkept' th hupdated

theorem Scanning.scan (hs₀ : Kept s₀) (here n : ℕ)
    (h : Scanning cfg (System.scanned cfg allPsets) s₀ [] s)
    (hscan : s.doThreadScan cfg here allPsets n = some s') :
    Scanning cfg (System.scanned cfg allPsets) s₀ [] s' := by
  induction n generalizing s with
  | zero => cases hscan
  | succ n ih =>
    obtain ⟨restart, s₁, hround, h₁, -⟩ := h.round hs₀ here
    unfold System.doThreadScan at hscan
    rw [hround] at hscan
    dsimp only at hscan
    split at hscan
    · exact ih h₁ hscan
    · obtain rfl := Option.some.inj hscan
      exact h₁

theorem Scanning.ends (hs₀ : Kept s₀) (hrun : ∀ th, s₀.On (System.scanned cfg allPsets) th →
      (s₀.thread th).stuck s₀.schedTick → (s₀.thread th).state = thRun)
    (here : ℕ) (todo : Finset ℕ) (h : Scanning cfg (System.scanned cfg allPsets) s₀ [] s)
    (htodo : ∀ th, s₀.On (System.scanned cfg allPsets) th → (s₀.thread th).stuck s₀.schedTick →
      ¬Updated cfg s₀ s th → th ∈ todo) : ∃ n s', s.doThreadScan cfg here allPsets n = some s' ∧
      Scanning cfg (System.scanned cfg allPsets) s₀ [] s' ∧
      ∀ th, s₀.On (System.scanned cfg allPsets) th → (s₀.thread th).stuck s₀.schedTick →
        Updated cfg s₀ s' th := by
  induction todo using Finset.strongInduction generalizing s with
  | H todo ih =>
    obtain ⟨restart, s₁, hround, h₁, hkept, hdone⟩ := h.round hs₀ here
    cases restart with
    | true =>
      obtain ⟨th, hnot, hon, hstuck, hupdated⟩ := hdone
      have hmem := htodo th hon hstuck hnot
      obtain ⟨n, s', hscan, h', hall⟩ := ih (todo.erase th) (Finset.erase_ssubset hmem) h₁
        fun x hx hxs hxn => Finset.mem_erase.2
          ⟨fun heq => hxn (heq ▸ hupdated (hrun th hon hstuck)),
            htodo x hx hxs fun hxu => hxn (hkept x hxu)⟩
      refine ⟨n + 1, s', ?_, h', hall⟩
      unfold System.doThreadScan
      rw [hround]
      exact hscan
    | false =>
      refine ⟨1, s₁, ?_, h₁, fun th hon hstuck => hdone th hon hstuck (hrun th hon hstuck)⟩
      unfold System.doThreadScan
      rw [hround]
      rfl

end Scanning

end Passes

/-- What a scan does: references are as before, and every stuck thread that was and is on a run
queue of the scan has its priority updated and is at its level. -/
structure Unstuck (cfg : Config) (runqs : List Runq) (s s' : System) : Prop where
  refs : ∀ th, (s'.thread th).refCount = (s.thread th).refCount
  updated : ∀ th, s.On runqs th → (s.thread th).stuck s.schedTick →
    ∀ r ∈ runqs, ∀ i, th ∈ (s'.runq r).runq i →
      s'.thread th = { s.updated cfg th with runq := some r } ∧
        i = RunQueue.whichq (s'.thread th).schedPri

theorem passTwo_idle {s : System} {stuck : List ℕ} (cfg : Config) (here : ℕ)
    (hstuck : ∀ th ∈ stuck, (s.thread th).state ≠ thRun ∧ 0 < (s.thread th).refCount) :
    System.passTwo cfg here stuck (s.reference stuck) = some s := by
  induction stuck with
  | nil => rfl
  | cons th stuck ih =>
    have hidle : (s.reference (th :: stuck)).fixStuck cfg here th = s.reference (th :: stuck) :=
      if_neg fun htest => (hstuck th mem_cons_self).1 htest.1
    have hrelease : (s.reference (th :: stuck)).threadDeallocate th = some (s.reference stuck) := by
      have hlive := (hstuck th mem_cons_self).2
      unfold System.threadDeallocate System.reference
      dsimp only
      rw [List.count_cons_self, if_pos (by omega)]
      refine congrArg some ?_
      unfold System.setThread
      congr 1
      funext x
      rw [update_apply]
      split
      · next hx => rw [hx, ← Nat.add_assoc, Nat.add_sub_cancel]
      · next hx =>
        dsimp only
        rw [List.count_cons_of_ne (Ne.symm hx)]
    unfold System.passTwo
    rw [hidle, hrelease, Option.bind_some]
    exact ih fun x hx => hstuck x (mem_cons_of_mem _ hx)

theorem doThreadScan_forever {s : System} {stuck : List ℕ} {cfg : Config} {allPsets : List ℕ}
    (hpass : System.passOne (System.scanned cfg allPsets) [] s =
      some (true, stuck, s.reference stuck))
    (hstuck : ∀ th ∈ stuck, (s.thread th).state ≠ thRun ∧ 0 < (s.thread th).refCount)
    (here n : ℕ) : s.doThreadScan cfg here allPsets n = none := by
  have hround : s.scanRound cfg here allPsets = some (true, s) := by
    unfold System.scanRound
    rw [hpass, Option.bind_some, passTwo_idle cfg here hstuck]
    rfl
  induction n with
  | zero => rfl
  | succ n ih =>
    unfold System.doThreadScan
    rw [hround]
    exact ih

/-- So many threads in such states on the first level of the default processor set, two ticks
behind. -/
def waiting (n : ℕ) (state : ℕ → ThreadState) : System where
  runq r := if r = .pset defaultPset then
    ⟨fun i => if i = 0 then List.range n else [], 0, n⟩ else ⟨fun _ => [], 0, 0⟩
  thread th :=
    { runq := if th < n then some (.pset defaultPset) else none
      state := state th, refCount := 1, priority := 0, schedPri := 0, policy := .timeshare
      schedData := 0, depressPriority := -1, cpuUsage := 0, schedUsage := 0, cpuDelta := 0
      schedDelta := 0, schedStamp := 0, timerDelta := 0, processorSet := defaultPset
      boundProcessor := none }
  processor _ := ⟨.running, 100, 101, none, 0, true, false, defaultPset⟩
  pset _ := ⟨[], false, 0, 0⟩
  schedTick := 2
  minQuantum := 0

theorem waiting_kept (n : ℕ) (state : ℕ → ThreadState) : Kept (waiting n state) where
  inv := by
    refine ⟨fun r => if r = .pset defaultPset then (List.range n).map fun th => (th, 0) else [],
      fun r => ?_, fun th r => ?_⟩
    · dsimp only [waiting]
      split
      · have hfst : ((List.range n).map fun th => (th, 0)).map Prod.fst = List.range n := by
          rw [map_map]
          exact List.map_id _
        refine ⟨fun i => ?_, ?_, fun _ _ => Nat.zero_le _, fun x hx => ?_, ?_⟩
        · dsimp only
          split
          · next hi =>
            rw [hi, List.filter_eq_self.2, hfst]
            rintro x hx
            obtain ⟨_, -, rfl⟩ := mem_map.1 hx
            rfl
          · next hi =>
            rw [List.filter_eq_nil_iff.2, map_nil]
            intro x hx hxi
            obtain ⟨_, -, rfl⟩ := mem_map.1 hx
            exact hi (of_decide_eq_true hxi).symm
        · rw [length_map, List.length_range]
        · obtain ⟨_, -, rfl⟩ := mem_map.1 hx
          exact Nat.succ_pos _
        · rw [hfst]
          exact List.nodup_range
      · exact ⟨fun _ => rfl, rfl, nofun, nofun, nodup_nil⟩
    · dsimp only [waiting]
      by_cases hr : r = .pset defaultPset
      · simp [hr]
      · simp [hr, Ne.symm hr]
  placed th r i hth := by
    dsimp only [waiting] at hth
    split at hth
    · dsimp only at hth
      split at hth
      · next hi => rw [hi]; rfl
      · cases hth
    · cases hth
  live _ _ _ _ := Nat.one_pos
  tick := by
    change 2 < modulus
    norm_num

/-- The first sixteen of these threads are swapped out, the last one is not. -/
def swappedOut : System := waiting 17 fun th => { thRun with swapped := decide (th < 16) }

end MachKernel.Kern.Sched
