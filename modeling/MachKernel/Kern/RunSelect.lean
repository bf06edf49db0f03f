import MachKernel.Kern.RunQueue

/-! That run queues give the best thread, and what comes first among the best. -/

namespace MachKernel.Kern.Sched
open Runs Function List Option

/-- What is on a run queue, with the levels, in the order in which it came. -/
abbrev Queued := List (ℕ × ℕ)

def Queued.without (q : Queued) (th : ℕ) : Queued := q.filter fun x => x.1 ≠ th

/-- What came first at the lowest level. -/
def Queued.best (q : Queued) : Option (ℕ × ℕ) := q.find? fun x => ∀ y ∈ q, x.2 ≤ y.2

/-- A run queue holds what is said to be on it. -/
structure RunQueue.Holds (rq : RunQueue) (q : Queued) : Prop where
  levels : ∀ i, rq.runq i = (q.filter fun x => x.2 = i).map Prod.fst
  count : rq.count = q.length
  low : ∀ x ∈ q, rq.low ≤ x.2
  bound : ∀ x ∈ q, x.2 < nrqs
  nodup : (q.map Prod.fst).Nodup

section RunQueue
variable {rq : RunQueue} {q : Queued} {th i : ℕ}

theorem RunQueue.whichq_lt (pri : ℤ) : RunQueue.whichq pri < nrqs := by
  unfold RunQueue.whichq nrqs
  split <;> omega

theorem RunQueue.Holds.enqueue (h : rq.Holds q) (hth : th ∉ q.map Prod.fst) (hi : i < nrqs) :
    (rq.enqueue th i).Holds (q ++ [(th, i)]) where
  levels j := by
    dsimp only [RunQueue.enqueue]
    rw [update_apply, filter_append, map_append, ← h.levels]
    split
    · next hj =>
      have hone : ([(th, i)] : Queued).filter (fun x => x.2 = i) = [(th, i)] := by simp
      rw [hj, hone]
      rfl
    · next hj =>
      have hnil : ([(th, i)] : Queued).filter (fun x => x.2 = j) = [] := by
        simpa using Ne.symm hj
      rw [hnil, map_nil, append_nil]
  count := by
    dsimp only [RunQueue.enqueue]
    rw [h.count, length_append, length_singleton]
    push_cast
    rfl
  low x hx := by
    dsimp only [RunQueue.enqueue]
    rw [mem_append, mem_singleton] at hx
    rcases hx with hx | rfl
    · have hlow := h.low x hx
      have hne : rq.count ≠ 0 := by
        rw [h.count]
        exact_mod_cast (length_pos_of_mem hx).ne'
      split <;> omega
    · dsimp only
      split <;> omega
  bound x hx := by
    rw [mem_append, mem_singleton] at hx
    rcases hx with hx | rfl
    · exact h.bound x hx
    · exact hi
  nodup := by
    rw [map_append]
    exact (perm_append_singleton ..).nodup_iff.2 (nodup_cons.2 ⟨hth, h.nodup⟩)

theorem Queued.without_length (hnodup : (q.map Prod.fst).Nodup) (hth : th ∈ q.map Prod.fst) :
    (q.without th).length + 1 = q.length := by
  have herase : ((q.without th).map Prod.fst) = (q.map Prod.fst).erase th := by
    rw [hnodup.erase_eq_filter, List.filter_map]
    exact congrArg (List.map Prod.fst) (List.filter_congr fun x _ => by
      by_cases hx : x.1 = th <;> simp [hx])
  have hlen := congrArg List.length herase
  have hpos := length_pos_of_mem hth
  rw [List.length_erase_of_mem hth, length_map, length_map] at hlen
  rw [length_map] at hpos
  omega

theorem RunQueue.Holds.level_without (h : rq.Holds q) (th j : ℕ) :
    ((q.without th).filter fun x => x.2 = j).map Prod.fst = (rq.runq j).erase th := by
  have hnodup : (rq.runq j).Nodup := by
    rw [h.levels]
    exact h.nodup.sublist (List.filter_sublist.map Prod.fst)
  rw [hnodup.erase_eq_filter, h.levels, List.filter_map, Queued.without, List.filter_filter,
    List.filter_filter]
  exact congrArg (List.map Prod.fst) (List.filter_congr fun x _ => by
    by_cases hx : x.1 = th <;> simp [hx])

theorem RunQueue.Holds.without (h : rq.Holds q) (hth : th ∈ q.map Prod.fst) {rq' : RunQueue}
    (hlevels : ∀ j, rq'.runq j = (rq.runq j).erase th) (hcount : rq'.count = rq.count - 1)
    (hlow : ∀ x ∈ q.without th, rq'.low ≤ x.2) : rq'.Holds (q.without th) where
  levels j := by rw [hlevels, h.level_without]
  count := by
    have hlen := Queued.without_length h.nodup hth
    rw [hcount, h.count]
    omega
  low := hlow
  bound x hx := h.bound x (mem_of_mem_filter hx)
  nodup := h.nodup.sublist (filter_sublist.map Prod.fst)

theorem RunQueue.Holds.best (h : rq.Holds q) (hq : q ≠ []) :
    ∃ th i rest, q.best = some (th, i) ∧ rq.runq i = th :: rest ∧ (∀ j < i, rq.runq j = []) ∧
      rq.low ≤ i ∧ i < nrqs ∧ ∀ x ∈ q, i ≤ x.2 := by
  have hne : q.toFinset.Nonempty := by
    obtain ⟨x, hx⟩ := List.exists_mem_of_ne_nil q hq
    exact ⟨x, List.mem_toFinset.2 hx⟩
  obtain ⟨x, hx, hmin⟩ := q.toFinset.exists_min_image Prod.snd hne
  simp only [List.mem_toFinset] at hx hmin
  have hbest : q.best = (q.filter fun y => y.2 = x.2).head? := by
    rw [Queued.best, ← List.head?_filter]
    refine congrArg List.head? (List.filter_congr fun y hy => decide_eq_decide.2 ?_)
    exact ⟨fun hle => le_antisymm (hle x hx) (hmin y hy), fun heq z hz => heq ▸ hmin z hz⟩
  obtain ⟨y, rest, hfilter⟩ : ∃ y rest, q.filter (fun y => y.2 = x.2) = y :: rest :=
    List.exists_cons_of_ne_nil (List.ne_nil_of_mem (mem_filter.2 ⟨hx, decide_eq_true rfl⟩))
  have hy : y.2 = x.2 := by
    have hmem : y ∈ q.filter fun y => y.2 = x.2 := hfilter ▸ mem_cons_self
    exact of_decide_eq_true (mem_filter.1 hmem).2
  refine ⟨y.1, x.2, rest.map Prod.fst, ?_, ?_, fun j hj => ?_, h.low x hx, h.bound x hx, hmin⟩
  · rw [hbest, hfilter, ← hy]
    rfl
  · rw [h.levels, hfilter]
    rfl
  · rw [h.levels, List.filter_eq_nil_iff.2 fun z hz => ?_]
    · rfl
    · simpa using (lt_of_lt_of_le hj (hmin z hz)).ne'

theorem RunQueue.search_eq {j : ℕ} (hj : j ≤ i) (hi : i < nrqs) (hne : rq.runq i ≠ [])
    (hbelow : ∀ k < i, rq.runq k = []) : rq.search j = some i := by
  unfold RunQueue.search
  rw [find?_range'_eq_some]
  refine ⟨decide_eq_true hne, mem_range'_1.2 ⟨hj, by omega⟩, fun k _ hk => ?_⟩
  rw [hbelow k hk]
  rfl

theorem RunQueue.Holds.level_unique (h : rq.Holds q) {j : ℕ} (hi : th ∈ rq.runq i)
    (hj : th ∈ rq.runq j) : i = j := by
  have hmem : ∀ {k}, th ∈ rq.runq k → (th, k) ∈ q := by
    intro k hk
    rw [h.levels] at hk
    obtain ⟨⟨x, l⟩, hx, rfl⟩ := mem_map.1 hk
    obtain ⟨hq, hl⟩ := mem_filter.1 hx
    obtain rfl : l = k := of_decide_eq_true hl
    exact hq
  exact congrArg Prod.snd (inj_on_of_nodup_map h.nodup (hmem hi) (hmem hj) rfl)

theorem RunQueue.Holds.dequeue (h : rq.Holds q) {rest : List ℕ} (hhead : rq.runq i = th :: rest)
    {low : ℕ} (hlow : ∀ x ∈ q.without th, low ≤ x.2) :
    { rq.dequeue i with low }.Holds (q.without th) := by
  have hmem : th ∈ rq.runq i := hhead ▸ mem_cons_self
  have hth : th ∈ q.map Prod.fst := by
    rw [h.levels] at hmem
    exact (filter_sublist.map Prod.fst).subset hmem
  refine h.without hth (fun j => ?_) rfl hlow
  dsimp only [RunQueue.dequeue]
  rw [update_apply]
  split
  · next hj => rw [hj, hhead, tail_cons, erase_cons_head]
  · next hj => exact (erase_of_not_mem fun hmem' => hj (h.level_unique hmem hmem').symm).symm

end RunQueue

/-! The system. -/

/-- What is on the run queues. -/
structure Inv (s : System) (a : Runq → Queued) : Prop where
  holds : ∀ r, (s.runq r).Holds (a r)
  names : ∀ th r, (s.thread th).runq = some r ↔ th ∈ (a r).map Prod.fst

section Inv
variable {s s' : System} {a : Runq → Queued} {th i : ℕ} {r : Runq}

theorem Inv.congr (h : Inv s a) (hrunq : s'.runq = s.runq)
    (hthread : ∀ th, (s'.thread th).runq = (s.thread th).runq) : Inv s' a where
  holds r := by rw [hrunq]; exact h.holds r
  names th r := by rw [hthread]; exact h.names th r

theorem Inv.without (h : Inv s a) (hth : (s.thread th).runq = some r) {rq : RunQueue}
    (hrq : rq.Holds ((a r).without th)) :
    Inv ((s.setRunq r rq).setThread th { s.thread th with runq := none })
      (update a r ((a r).without th)) where
  holds r' := by
    dsimp only [System.setThread, System.setRunq]
    rw [update_apply, update_apply]
    split
    · exact hrq
    · exact h.holds r'
  names x r' := by
    dsimp only [System.setThread, System.setRunq]
    rw [update_apply, update_apply]
    by_cases hx : x = th
    · rw [if_pos hx, hx]
      refine iff_of_false nofun fun hmem => ?_
      split at hmem
      · obtain ⟨y, hy, hyth⟩ := mem_map.1 hmem
        exact of_decide_eq_true (mem_filter.1 hy).2 hyth
      · next hr =>
        exact hr (some.inj (((h.names th r').2 hmem).symm.trans hth))
    · rw [if_neg hx, h.names]
      split
      · next hr =>
        rw [hr]
        constructor
        · intro hmem
          obtain ⟨y, hy, rfl⟩ := mem_map.1 hmem
          exact mem_map_of_mem (mem_filter.2 ⟨hy, decide_eq_true hx⟩)
        · exact fun hmem => (filter_sublist.map Prod.fst).subset hmem
      · exact Iff.rfl

theorem Inv.take (h : Inv s a) {rest : List ℕ} (hhead : (s.runq r).runq i = th :: rest) {low : ℕ}
    (hlow : ∀ x ∈ (a r).without th, low ≤ x.2) :
    Inv (s.take r i th low) (update a r ((a r).without th)) := by
  have hmem : th ∈ (a r).map Prod.fst := by
    have hth : th ∈ (s.runq r).runq i := hhead ▸ mem_cons_self
    rw [(h.holds r).levels] at hth
    exact (filter_sublist.map Prod.fst).subset hth
  exact h.without ((h.names th r).2 hmem) ((h.holds r).dequeue hhead hlow)

theorem Inv.remRunq (h : Inv s a) (th : ℕ) : (s.remRunq th).1 = (s.thread th).runq ∧
    Inv (s.remRunq th).2 fun r => (a r).without th := by
  have hother : ∀ r, (s.thread th).runq ≠ some r → (a r).without th = a r := by
    intro r hr
    refine filter_eq_self.2 fun x hx => decide_eq_true ?_
    rintro rfl
    exact hr ((h.names x.1 r).2 (mem_map_of_mem hx))
  unfold System.remRunq
  split
  · next hnone =>
    refine ⟨hnone.symm, ?_⟩
    have hall : (fun r => (a r).without th) = a :=
      funext fun r => hother r (by rw [hnone]; exact nofun)
    rw [hall]
    exact h
  · next r hr =>
    refine ⟨hr.symm, ?_⟩
    have hall : (fun r => (a r).without th) = update a r ((a r).without th) := by
      funext r'
      rw [update_apply]
      split
      · next heq => rw [heq]
      · next hne =>
        exact hother r' fun heq => hne (some.inj (heq.symm.trans hr))
    rw [hall]
    have hmem := (h.names th r).1 hr
    exact h.without hr ((h.holds r).without hmem (fun _ => rfl) rfl fun x hx =>
      (h.holds r).low x (mem_of_mem_filter hx))

theorem Inv.enqueue (h : Inv s a) (hth : (s.thread th).runq = none) (r : Runq) :
    Inv (s.runQueueEnqueue r th)
      (update a r (a r ++ [(th, RunQueue.whichq (s.thread th).schedPri)])) where
  holds r' := by
    dsimp only [System.runQueueEnqueue, System.setThread, System.setRunq]
    rw [update_apply, update_apply]
    split
    · refine (h.holds r).enqueue (fun hmem => ?_) (RunQueue.whichq_lt _)
      rw [(h.names th r).2 hmem] at hth
      cases hth
    · exact h.holds r'
  names x r' := by
    dsimp only [System.runQueueEnqueue, System.setThread, System.setRunq]
    rw [update_apply, update_apply]
    by_cases hx : x = th
    · rw [if_pos hx, hx]
      dsimp only
      split
      · next hr =>
        rw [hr, map_append, mem_append]
        exact iff_of_true rfl (.inr (mem_singleton.2 rfl))
      · next hr =>
        refine iff_of_false (fun heq => hr (some.inj heq).symm) fun hmem => ?_
        rw [(h.names th r').2 hmem] at hth
        cases hth
    · rw [if_neg hx, h.names]
      split
      · next hr =>
        rw [hr, map_append, mem_append]
        exact (or_iff_left fun hmem => hx (mem_singleton.1 hmem)).symm
      · exact Iff.rfl

/-! `thread_setrun`. -/

/-- The run queues and threads are as they were, and so are the sets of the processors, the loads
of the sets and the tick. -/
structure Same (s s' : System) : Prop where
  runq : s'.runq = s.runq
  thread : s'.thread = s.thread
  set : ∀ p, (s'.processor p).processorSet = (s.processor p).processorSet
  load : ∀ i, (s'.pset i).schedLoad = (s.pset i).schedLoad
  tick : s'.schedTick = s.schedTick

theorem Same.refl (s : System) : Same s s := ⟨rfl, rfl, fun _ => rfl, fun _ => rfl, rfl⟩

theorem same_setProcessor (p : ℕ) {f : Processor → Processor}
    (hf : ∀ c, (f c).processorSet = c.processorSet) : Same s (s.setProcessor p f) := by
  refine ⟨rfl, rfl, fun p' => ?_, fun _ => rfl, rfl⟩
  dsimp only [System.setProcessor]
  rw [update_apply]
  split
  · next hp => rw [hp, hf]
  · rfl

theorem same_preempt (here : ℕ) (mayPreempt : Bool) (th : ℕ) :
    Same s (s.preempt here mayPreempt th) := by
  unfold System.preempt
  split
  · exact same_setProcessor here fun _ => rfl
  · exact Same.refl s

theorem setPset_load (pset : ℕ) {f : ProcessorSet → ProcessorSet}
    (hf : ∀ ps, (f ps).schedLoad = ps.schedLoad) (i : ℕ) :
    ((s.setPset pset f).pset i).schedLoad = (s.pset i).schedLoad := by
  dsimp only [System.setPset]
  rw [update_apply]
  split
  · next hi => rw [hi, hf]
  · rfl

theorem same_dispatch (pset p th : ℕ) : Same s (s.dispatch pset p th) := by
  obtain ⟨hrunq, hthread, hset, -, htick⟩ := same_setProcessor (s := s.setPset pset fun ps =>
    { ps with idleQueue := ps.idleQueue.erase p }) p
    (f := fun c => { c with nextThread := some th, state := .dispatching }) fun _ => rfl
  have hload := setPset_load (s := s) pset (f := fun ps =>
    { ps with idleQueue := ps.idleQueue.erase p }) fun _ => rfl
  exact ⟨hrunq, hthread, hset, hload, htick⟩

theorem setrun_same (cfg : Config) (here th : ℕ) (mayPreempt : Bool) :
    Same s (s.setrun cfg here th mayPreempt) ∨
      ∃ r, Same (s.runQueueEnqueue r th) (s.setrun cfg here th mayPreempt) := by
  unfold System.setrun
  split
  · split
    · dsimp only
      split
      · exact .inl (same_dispatch ..)
      · split
        · exact .inr ⟨_, same_preempt ..⟩
        · exact .inr ⟨_, Same.refl _⟩
    · split
      · exact .inl (same_dispatch ..)
      · dsimp only
        split
        · exact .inr ⟨_, same_setProcessor _ fun _ => rfl⟩
        · exact .inr ⟨_, Same.refl _⟩
  · split
    · exact .inl (same_dispatch ..)
    · split
      · exact .inr ⟨_, same_preempt ..⟩
      · refine .inr ⟨.processor masterProcessor, ?_⟩
        obtain ⟨hrunq, hthread, hset, hload, htick⟩ := same_preempt (s := (s.setProcessor here
          fun c => { c with astBlock := true }).runQueueEnqueue (.processor masterProcessor) th)
            here mayPreempt th
        have hast : Same s (s.setProcessor here fun c => { c with astBlock := true }) :=
          same_setProcessor here fun _ => rfl
        exact ⟨hrunq, hthread, fun p => (hset p).trans (hast.set p), hload, htick⟩

theorem Inv.same (h : Inv s a) (hsame : Same s s') : Inv s' a :=
  h.congr hsame.runq fun th => by rw [hsame.thread]

theorem Thread.updatePriority_runq (cfg : Config) (tick load : ℕ) (t : Thread) :
    (t.updatePriority cfg tick load).runq = t.runq := by
  unfold Thread.updatePriority
  dsimp only
  split <;> rfl

theorem System.updatePriority_runq (cfg : Config) (s : System) (th x : ℕ) :
    ((s.updatePriority cfg th).thread x).runq = (s.thread x).runq := by
  dsimp only [System.updatePriority, System.setThread]
  rw [update_apply]
  split
  · next hx => rw [hx, Thread.updatePriority_runq]
  · rfl

/-- What a thread that was made runnable comes to, if it comes on a run queue. -/
def Enqueued (a : Runq → Queued) (th : ℕ) (a' : Runq → Queued) (s' : System) : Prop :=
  match (s'.thread th).runq with
  | none => a' = a
  | some r =>
    a' = update a r (a r ++ [(th, RunQueue.whichq (s'.thread th).schedPri)])

theorem Inv.setrun (h : Inv s a) (hth : (s.thread th).runq = none) (cfg : Config) (here : ℕ)
    (mayPreempt : Bool) : ∃ a', Inv (s.setrun cfg here th mayPreempt) a' ∧
      Enqueued a th a' (s.setrun cfg here th mayPreempt) := by
  unfold Enqueued
  rcases setrun_same (s := s) cfg here th mayPreempt with hsame | ⟨r, hsame⟩
  · refine ⟨a, h.same hsame, ?_⟩
    rw [hsame.thread, hth]
  · refine ⟨_, (h.enqueue hth r).same hsame, ?_⟩
    have hnew : (s.runQueueEnqueue r th).thread th = { s.thread th with runq := some r } :=
      update_self ..
    rw [hsame.thread, hnew]

theorem Inv.threadSetrun (h : Inv s a) (hth : (s.thread th).runq = none) (cfg : Config) (here : ℕ)
    (mayPreempt : Bool) : ∃ a', Inv (s.threadSetrun cfg here th mayPreempt) a' ∧
      Enqueued a th a' (s.threadSetrun cfg here th mayPreempt) := by
  have hupdate : Inv (s.updatePriority cfg th) a :=
    h.congr rfl (System.updatePriority_runq cfg s th)
  unfold System.threadSetrun
  split
  · exact hupdate.setrun ((System.updatePriority_runq ..).trans hth) ..
  · exact h.setrun hth ..

theorem Inv.setPri (h : Inv s a) (cfg : Config) (here th : ℕ) (pri : ℤ) :
    ∃ a', Inv (s.setPri cfg here th pri) a' ∧
      if (s.thread th).runq = none then a' = fun r => (a r).without th
      else Enqueued (fun r => (a r).without th) th a' (s.setPri cfg here th pri) := by
  obtain ⟨hrunq, hrem⟩ := h.remRunq th
  have hnone : ((s.remRunq th).2.thread th).runq = none := by
    unfold System.remRunq
    split
    · assumption
    · dsimp only [System.setThread]
      rw [update_self]
  have hpri : Inv ((s.remRunq th).2.setThread th
      { (s.remRunq th).2.thread th with schedPri := pri }) fun r => (a r).without th := by
    refine hrem.congr rfl fun x => ?_
    dsimp only [System.setThread]
    rw [update_apply]
    split
    · next hx => rw [hx]
    · rfl
  unfold System.setPri
  dsimp only
  rw [hrunq]
  split
  · next heq => exact ⟨_, hpri, by rw [if_pos heq]⟩
  · next r heq =>
    have hpriNone : (((s.remRunq th).2.setThread th
        { (s.remRunq th).2.thread th with schedPri := pri }).thread th).runq = none := by
      dsimp only [System.setThread]
      rw [update_self]
      exact hnone
    obtain ⟨a', ha', henq⟩ := hpri.threadSetrun hpriNone cfg here true
    exact ⟨a', ha', by rw [if_neg (by rw [heq]; exact nofun)]; exact henq⟩

/-! The choice. -/

/-- A thread is taken that came first at the lowest level. -/
def Selects (a : Runq → Queued) (r : Runq) (th : ℕ) (a' : Runq → Queued) : Prop :=
  ∃ i, (a r).best = some (th, i) ∧ a' = update a r ((a r).without th)

theorem Inv.count_pos (h : Inv s a) (r : Runq) : 0 < (s.runq r).count ↔ a r ≠ [] := by
  rw [(h.holds r).count, ← length_pos_iff]
  exact Nat.cast_pos

/-- Taking the best thread, with `low` where it was found or at the next thread. -/
theorem Inv.takeBest (h : Inv s a) (hr : a r ≠ []) :
    ∃ th i rest, (a r).best = some (th, i) ∧ (s.runq r).runq i = th :: rest ∧
      (∀ j < i, (s.runq r).runq j = []) ∧ (s.runq r).low ≤ i ∧ i < nrqs ∧ (∀ x ∈ a r, i ≤ x.2) ∧
      Inv (s.take r i th i) (update a r ((a r).without th)) ∧
      (0 < ((s.runq r).dequeue i).count → ∃ j, ((s.runq r).dequeue i).search i = some j ∧
        Inv (s.take r i th j) (update a r ((a r).without th))) := by
  obtain ⟨th, i, rest, hbest, hhead, hbelow, hlow, hi, hmin⟩ := (h.holds r).best hr
  have hmin' : ∀ x ∈ (a r).without th, i ≤ x.2 := fun x hx => hmin x (mem_of_mem_filter hx)
  refine ⟨th, i, rest, hbest, hhead, hbelow, hlow, hi, hmin, h.take hhead hmin', fun hcount => ?_⟩
  have hholds : RunQueue.Holds { (s.runq r).dequeue i with low := i } ((a r).without th) :=
    (h.holds r).dequeue hhead hmin'
  have hne : (a r).without th ≠ [] := by
    rw [← length_pos_iff]
    have hlen : ((s.runq r).dequeue i).count = ((a r).without th).length := hholds.count
    rw [hlen] at hcount
    exact_mod_cast hcount
  obtain ⟨th', j, rest', -, hhead', hbelow', hlow', hj, hmin''⟩ := hholds.best hne
  refine ⟨j, ?_, h.take hhead hmin''⟩
  have hsearch := RunQueue.search_eq hlow' hj (by rw [hhead']; exact cons_ne_nil _ _) hbelow'
  exact hsearch

/-- What is chosen from a run queue, if there is anything on it. -/
def Chooses (a : Runq → Queued) (r : Runq) (th : ℕ) (a' : Runq → Queued) : Prop :=
  if a r = [] then a' = a else Selects a r th a'

theorem chooses_self (hr : a r = []) (th : ℕ) : Chooses a r th a := by
  unfold Chooses
  rw [if_pos hr]

theorem Selects.chooses {a' : Runq → Queued} (h : Selects a r th a') (hr : a r ≠ []) :
    Chooses a r th a' := by
  unfold Chooses
  rwa [if_neg hr]

theorem choosePset_idle (cfg : Config) (p pset : ℕ) (hcount : ¬0 < (s.runq (.pset pset)).count) :
    ∃ s', s.choosePsetThread cfg p pset = some ((s.processor p).idleThread, s') ∧ Same s s' := by
  unfold System.choosePsetThread
  dsimp only
  rw [if_neg hcount]
  split
  · have hidle : Same s (s.setProcessor p fun c => { c with state := .idle }) :=
      same_setProcessor p fun _ => rfl
    exact ⟨_, rfl, hidle.runq, hidle.thread, hidle.set, setPset_load pset fun _ => rfl, hidle.tick⟩
  · exact ⟨s, rfl, Same.refl s⟩

theorem Inv.choosePsetThread (h : Inv s a) (cfg : Config) (p pset : ℕ) :
    ∃ th s' a', s.choosePsetThread cfg p pset = some (th, s') ∧ Inv s' a' ∧
      Chooses a (.pset pset) th a' ∧
      ∀ p', (s'.processor p').processorSet = (s.processor p').processorSet := by
  by_cases hr : a (.pset pset) = []
  · have hcount : ¬0 < (s.runq (.pset pset)).count := fun hpos => (h.count_pos _).1 hpos hr
    obtain ⟨s', hchoose, hsame⟩ := choosePset_idle cfg p pset hcount
    exact ⟨_, s', a, hchoose, h.same hsame, chooses_self hr _, hsame.set⟩
  · obtain ⟨th, i, rest, hbest, hhead, hbelow, hlow, hi, -, htake, hnext⟩ := h.takeBest hr
    have hsearch := RunQueue.search_eq hlow hi (by rw [hhead]; exact cons_ne_nil _ _) hbelow
    have hselects : Selects a (.pset pset) th _ := ⟨i, hbest, rfl⟩
    unfold System.choosePsetThread
    dsimp only
    rw [if_pos ((h.count_pos _).2 hr), hsearch]
    dsimp only
    rw [hhead]
    dsimp only
    split
    · next hcond =>
      obtain ⟨j, hj, htake'⟩ := hnext hcond.1
      rw [hj]
      exact ⟨th, _, _, rfl, htake', hselects.chooses hr, fun _ => rfl⟩
    · exact ⟨th, _, _, rfl, htake, hselects.chooses hr, fun _ => rfl⟩

/-- What comes of a choice from the run queue of a processor, and else from that of a set. -/
def ChoosesFirst (a : Runq → Queued) (p pset th : ℕ) (a' : Runq → Queued) : Prop :=
  if a (.processor p) = [] then Chooses a (.pset pset) th a' else Selects a (.processor p) th a'

theorem Inv.chooseThread (h : Inv s a) (cfg : Config) (p : ℕ) :
    ∃ th s' a', s.chooseThread cfg p = some (th, s') ∧ Inv s' a' ∧
      ChoosesFirst a p (s.processor p).processorSet th a' ∧
      ∀ p', (s'.processor p').processorSet = (s.processor p').processorSet := by
  unfold System.chooseThread
  by_cases hr : a (.processor p) = []
  · have hcount : ¬0 < (s.runq (.processor p)).count := fun hpos => (h.count_pos _).1 hpos hr
    obtain ⟨th, s', a', hchoose, ha', hchooses, hset⟩ :=
      h.choosePsetThread cfg p (s.processor p).processorSet
    refine ⟨th, s', a', by dsimp only; rw [if_neg hcount, hchoose], ha', ?_, hset⟩
    unfold ChoosesFirst
    rwa [if_pos hr]
  · obtain ⟨th, i, rest, hbest, hhead, hbelow, hlow, hi, -, htake, -⟩ := h.takeBest hr
    have hsearch := RunQueue.search_eq hlow hi (by rw [hhead]; exact cons_ne_nil _ _) hbelow
    dsimp only
    rw [if_pos ((h.count_pos _).2 hr), hsearch]
    dsimp only
    rw [hhead]
    refine ⟨th, _, _, rfl, htake, ?_, fun _ => rfl⟩
    unfold ChoosesFirst
    rw [if_neg hr]
    exact ⟨i, hbest, rfl⟩

theorem Inv.raise (h : Inv s a) (r : Runq) {low : ℕ} (hlow : ∀ x ∈ a r, low ≤ x.2) :
    Inv (s.setRunq r { s.runq r with low }) a := by
  refine ⟨fun r' => ?_, h.names⟩
  dsimp only [System.setRunq]
  rw [update_apply]
  split
  · next heq =>
    rw [heq]
    exact { h.holds r with low := hlow }
  · exact h.holds r'

theorem Inv.selectFromSet (h : Inv s a) (cfg : Config) (p pset : ℕ) :
    ∃ th s' a', s.selectFromSet cfg p pset = some (th, s') ∧ Inv s' a' ∧
      Chooses a (.pset pset) th a' ∧
      ∀ p', (s'.processor p').processorSet = (s.processor p').processorSet := by
  unfold System.selectFromSet
  dsimp only
  by_cases hr : a (.pset pset) = []
  · have hzero : (s.runq (.pset pset)).count = 0 := by
      rw [(h.holds (.pset pset)).count, hr]
      rfl
    rw [if_pos hzero]
    split
    · refine ⟨_, _, a, rfl, ?_, chooses_self hr _, fun p' => ?_⟩
      · split
        · exact h.congr rfl (System.updatePriority_runq cfg s _)
        · exact h
      · split <;> rfl
    · exact h.choosePsetThread cfg p pset
  · have hcount : (s.runq (.pset pset)).count ≠ 0 := ((h.count_pos (.pset pset)).2 hr).ne'
    obtain ⟨th, i, rest, hbest, hhead, hbelow, hlow, hi, hmin, htake, hnext⟩ := h.takeBest hr
    have hselects : Selects a (.pset pset) th _ := ⟨i, hbest, rfl⟩
    rw [if_neg hcount]
    split
    · next hempty =>
      -- the lowest level is above the hint
      have hlt : (s.runq (.pset pset)).low < i := by
        refine lt_of_le_of_ne hlow fun heq => ?_
        rw [heq, hhead] at hempty
        cases hempty
      exact (h.raise (.pset pset) fun x hx => Nat.succ_le_of_lt (hlt.trans_le (hmin x hx))
        ).choosePsetThread cfg p pset
    · next th' rest' hth' =>
      have heq : (s.runq (.pset pset)).low = i := by
        by_contra hne
        rw [hbelow _ (lt_of_le_of_ne hlow hne)] at hth'
        cases hth'
      rw [heq, hhead] at hth'
      obtain rfl : th = th' := (List.cons.inj hth').1
      rw [heq]
      split
      · next hcond =>
        obtain ⟨j, hj, htake'⟩ := hnext hcond.1
        rw [hj]
        exact ⟨th, _, _, rfl, htake', hselects.chooses hr, fun _ => rfl⟩
      · exact ⟨th, _, _, rfl, htake, hselects.chooses hr, fun _ => rfl⟩

theorem Inv.threadSelect (h : Inv s a) (cfg : Config) (p : ℕ) :
    ∃ th s' a', s.threadSelect cfg p = some (th, s') ∧ Inv s' a' ∧
      ChoosesFirst a p (if cfg.machHost then (s.processor p).processorSet else defaultPset) th a' ∧
      ∀ p', (s'.processor p').processorSet = (s.processor p').processorSet := by
  have hfirst : Same s (s.setProcessor p fun c => { c with firstQuantum := true }) :=
    same_setProcessor p fun _ => rfl
  have h' := h.same hfirst
  have hpset := hfirst.set
  unfold System.threadSelect
  dsimp only
  generalize s.setProcessor p (fun c => { c with firstQuantum := true }) = s₁ at h' hpset ⊢
  have hquantum : ∀ (s' : System) (a' : Runq → Queued) (f : Processor → Processor),
      (∀ c, (f c).processorSet = c.processorSet) → Inv s' a' →
      (∀ p', (s'.processor p').processorSet = (s₁.processor p').processorSet) →
      Inv (s'.setProcessor p f) a' ∧ ∀ p', ((s'.setProcessor p f).processor p').processorSet =
          (s.processor p').processorSet := by
    intro s' a' f hf ha' hset
    have hsame := same_setProcessor (s := s') p hf
    exact ⟨ha'.same hsame, fun p' => (hsame.set p').trans ((hset p').trans (hpset p'))⟩
  rw [← hpset p]
  split
  · next hcount =>
    have hr := (h'.count_pos _).1 hcount
    obtain ⟨th, s', a', hchoose, ha', hchooses, hset⟩ := h'.chooseThread cfg p
    obtain ⟨hinv, hset'⟩ := hquantum s' a' (fun c => { c with quantum := s₁.minQuantum })
      (fun _ => rfl) ha' hset
    refine ⟨th, _, a', by rw [hchoose]; rfl, hinv, ?_, hset'⟩
    unfold ChoosesFirst at hchooses ⊢
    rw [if_neg hr] at hchooses ⊢
    exact hchooses
  · next hcount =>
    have hr : a (.processor p) = [] := by
      by_contra hne
      exact hcount ((h'.count_pos _).2 hne)
    obtain ⟨th, s', a', hchoose, ha', hchooses, hset⟩ := h'.selectFromSet cfg p
      (if cfg.machHost then (s₁.processor p).processorSet else defaultPset)
    rw [hchoose, map_some]
    unfold System.giveQuantum
    dsimp only
    generalize (if !cfg.machFixpri ∨ (s'.thread th).policy = .timeshare then _ else _) = quantum
    obtain ⟨hinv, hset'⟩ := hquantum s' a' (fun c => { c with quantum }) (fun _ => rfl) ha' hset
    refine ⟨th, _, a', rfl, hinv, ?_, hset'⟩
    unfold ChoosesFirst
    rwa [if_pos hr]

end Inv

/-! Whole runs. -/

/-- The run queues are exactly as they should be for what is queued. -/
structure Exact (s : System) (a : Runq → Queued) : Prop where
  levels : ∀ r i, (s.runq r).runq i = ((a r).filter fun x => x.2 = i).map Prod.fst
  count : ∀ r, (s.runq r).count = (a r).length
  low : ∀ r, 0 < (s.runq r).count → ∀ i, (s.runq r).runq i ≠ [] → (s.runq r).low ≤ i
  names : ∀ r, ∀ x ∈ a r, (s.thread x.1).runq = some r

theorem Inv.exact {s : System} {a : Runq → Queued} (h : Inv s a) : Exact s a where
  levels r := (h.holds r).levels
  count r := (h.holds r).count
  low r _ i hi := by
    rw [(h.holds r).levels] at hi
    obtain ⟨th, hth⟩ := exists_mem_of_ne_nil _ hi
    obtain ⟨x, hx, -⟩ := mem_map.1 hth
    obtain ⟨hxq, hxi⟩ := mem_filter.1 hx
    rw [← of_decide_eq_true hxi]
    exact (h.holds r).low x hxq
  names r x hx := (h.names x.1 r).2 (mem_map_of_mem hx)

/-- What each call is to do with what is queued. -/
def Queues (cfg : Config) (a : Runq → Queued) (e : Event) (r : Result) (a' : Runq → Queued)
    (s' : System) : Prop :=
  match e, r with
  | .threadSetrun _ th _, .done => (∃ q, th ∈ (a q).map Prod.fst) ∧ a' = a ∨ Enqueued a th a' s'
  | .remRunq th, .removed q =>
    (∀ q', q = some q' ↔ th ∈ (a q').map Prod.fst) ∧ a' = fun q => (a q).without th
  | .setPri _ th _, .done =>
    ((∃ q, th ∈ (a q).map Prod.fst) → Enqueued (fun q => (a q).without th) th a' s') ∧
      ((∀ q, th ∉ (a q).map Prod.fst) → a' = a)
  | .chooseThread p, .selected th => ChoosesFirst a p (s'.processor p).processorSet th a'
  | .choosePsetThread _ pset, .selected th => Chooses a (.pset pset) th a'
  | .threadSelect p, .selected th =>
    ChoosesFirst a p (if cfg.machHost then (s'.processor p).processorSet else defaultPset) th a'
  | .other .., .done => a' = a
  | _, _ => False

def spec (cfg : Config) (a : Runq → Queued) (e : Event) (r : Result) (a' : Runq → Queued)
    (s' : System) : Prop :=
  Queues cfg a e r a' s' ∧ Exact s' a'

theorem Inv.without_eq {s : System} {a : Runq → Queued} (h : Inv s a) {th : ℕ}
    (hth : (s.thread th).runq = none) : (fun q => (a q).without th) = a := by
  funext q
  refine filter_eq_self.2 fun x hx => decide_eq_true ?_
  rintro rfl
  rw [(h.names x.1 q).2 (mem_map_of_mem hx)] at hth
  cases hth

theorem Inv.step {s : System} {a : Runq → Queued} (h : Inv s a) (cfg : Config) (e : Event) :
    ∃ r s' a', s.step cfg e = some (r, s') ∧ Queues cfg a e r a' s' ∧ Inv s' a' := by
  cases e with
  | threadSetrun here th mayPreempt =>
    unfold System.step
    dsimp only
    split
    · next hnone =>
      obtain ⟨a', ha', henq⟩ := h.threadSetrun hnone cfg here mayPreempt
      exact ⟨_, _, a', rfl, .inr henq, ha'⟩
    · next hsome =>
      obtain ⟨q, hq⟩ := ne_none_iff_exists'.1 hsome
      exact ⟨_, _, a, rfl, .inl ⟨⟨q, (h.names th q).1 hq⟩, rfl⟩, h⟩
  | remRunq th =>
    obtain ⟨hr, ha'⟩ := h.remRunq th
    exact ⟨_, _, _, rfl, ⟨fun q => by rw [hr]; exact h.names th q, rfl⟩, ha'⟩
  | setPri here th pri =>
    obtain ⟨a', ha', hpri⟩ := h.setPri cfg here th pri
    refine ⟨_, _, a', rfl, ?_, ha'⟩
    unfold Queues
    dsimp only
    by_cases hnone : (s.thread th).runq = none
    · rw [if_pos hnone, h.without_eq hnone] at hpri
      refine ⟨?_, fun _ => hpri⟩
      rintro ⟨q, hq⟩
      rw [(h.names th q).2 hq] at hnone
      cases hnone
    · obtain ⟨q, hq⟩ := ne_none_iff_exists'.1 hnone
      rw [if_neg hnone] at hpri
      exact ⟨fun _ => hpri, fun hnot => absurd ((h.names th q).1 hq) (hnot q)⟩
  | chooseThread p =>
    obtain ⟨th, s', a', hchoose, ha', hchooses, hset⟩ := h.chooseThread cfg p
    refine ⟨.selected th, s', a', by dsimp only [System.step]; rw [hchoose]; rfl, ?_, ha'⟩
    unfold Queues
    dsimp only
    rwa [hset]
  | choosePsetThread p pset =>
    obtain ⟨th, s', a', hchoose, ha', hchooses, -⟩ := h.choosePsetThread cfg p pset
    exact ⟨.selected th, s', a', by dsimp only [System.step]; rw [hchoose]; rfl, hchooses, ha'⟩
  | threadSelect p =>
    obtain ⟨th, s', a', hchoose, ha', hchooses, hset⟩ := h.threadSelect cfg p
    refine ⟨.selected th, s', a', by dsimp only [System.step]; rw [hchoose]; rfl, ?_, ha'⟩
    unfold Queues
    dsimp only
    rwa [hset]
  | other => exact ⟨_, _, a, rfl, rfl, h.congr rfl fun _ => rfl⟩

theorem Inv.start (thread : ℕ → Thread) (processor : ℕ → Processor) (pset : ℕ → ProcessorSet)
    (schedTick : ℕ) (minQuantum : ℤ) :
    Inv (System.start thread processor pset schedTick minQuantum) fun _ => [] where
  holds _ := ⟨fun _ => rfl, rfl, nofun, nofun, nodup_nil⟩
  names _ _ := iff_of_false nofun nofun

end MachKernel.Kern.Sched
