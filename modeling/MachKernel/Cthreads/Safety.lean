import MachKernel.Cthreads.Scheduling

/-! That every step of a kernel thread keeps the invariant. -/

namespace MachKernel.Cthreads

open Threads List

variable {M C : Type}

variable {α : Type*}

theorem mem_singleton_iff_of_pair {x y : α} (h : x ≠ y) (z : α) : z ∈ [x] ↔ z ≠ y ∧ z ∈ [x, y] := by
  rw [mem_pair, mem_singleton]
  constructor
  · exact fun hz => ⟨fun hy => h (hz.symm.trans hy), .inl hz⟩
  · exact fun hz => hz.2.resolve_right hz.1

theorem nodup_pair {x y : α} (h : x ≠ y) : [x, y].Nodup :=
  nodup_cons.2 ⟨fun hx => h (mem_singleton.1 hx), nodup_singleton y⟩

section Turn
variable [DecidableEq M] [DecidableEq C]
variable {s : System M C} {g : Ghost M C} {k p : ℕ} {a a' : Pc M C}

variable {x q new w : ℕ} {m : M} {r : Ret M} {preq : Bool} {b : Cont M} {c : C}

omit [DecidableEq M] [DecidableEq C] in
theorem Inv.ne_of_sure (h : Inv s g) (ht : s.thread k = some (p, a))
    (hx : x ∈ (a.info p).sure) : x ≠ p := by
  rintro rfl
  have hexec := h.sure k _ ht x hx
  rw [h.exec.owns ht (mem_singleton.2 rfl)] at hexec
  cases hexec

/-! `mutex_lock`. -/

omit [DecidableEq C] in
theorem Inv.tryLock (h : Inv s g) {m : M} (ht : s.thread k = some (p, a)) {b c : Pc M C}
    (hb : b.info p = a.info p) (hc : c.info p = a.info p) (hbk : ∀ cproc, b.Knows cproc)
    (hck : ∀ cproc, c.Knows cproc) :
    Inv (if s.held m then s.go k p b else (s.hold p m).go k p c) g := by
  split
  · exact h.pass ht hb (hbk _)
  · next hm => exact h.hold ht (Bool.eq_false_of_not_eq_true hm) hc (hck _)

theorem Inv.solidHead (h : Inv s g) (ht : s.thread k = some (p, .solidHead m)) :
    ∃ g', Inv (s.turnAt k p (.solidHead m)) g' := by
  unfold System.turnAt
  dsimp only
  split
  · next hempty =>
    refine ⟨_, h.enqSelf ht rfl (mem_singleton.2 rfl) (h.self ht)
      ⟨rfl, nofun⟩ (fun _ => trivial) (fun n hn => ?_) rfl⟩
    rw [mem_singleton.1 hn]
    exact ⟨rfl, hempty⟩
  · exact ⟨g, h.pass ht rfl trivial⟩

theorem Inv.solidTry (h : Inv s g) {queued : Bool}
    (ht : s.thread k = some (p, .solidTry m queued)) :
    Inv (s.turnAt k p (.solidTry m queued)) g := by
  unfold System.turnAt
  dsimp only
  cases queued with
  | true =>
    split
    · exact h.go ht rfl (h.self ht) nofun nofun trivial
    · next hm => exact h.hold ht (Bool.eq_false_of_not_eq_true hm) rfl trivial
  | false => exact h.tryLock ht rfl rfl (fun _ => trivial) fun _ => trivial

theorem Inv.solidBlock (h : Inv s g) (ht : s.thread k = some (p, .solidBlock m)) :
    Inv (s.turnAt k p (.solidBlock m)) g := by
  have hplace : g.place p = .on (.mutex m) := (h.self ht).1
  refine h.unlockWith ht rfl (mem_cons_of_mem _ (mem_singleton.2 rfl))
    (mem_singleton_iff_of_pair nofun) ?_ trivial
  rw [hplace]
  exact .inl trivial

/-! `mutex_unlock`. -/

theorem Inv.unlockDeq (h : Inv s g) (ht : s.thread k = some (p, .unlockDeq m r)) :
    ∃ g', Inv (s.turnAt k p (.unlockDeq m r)) g' := by
  unfold System.turnAt
  dsimp only
  split
  · exact ⟨g, h.pass ht rfl trivial⟩
  · next new rest hq =>
    have hq' : s.queue (.mutex m) = new :: (s.queue (.mutex m)).tail := by rw [hq]; rfl
    refine ⟨_, h.dequeue ht .waker hq' rfl (mem_singleton.2 rfl) ?_ (fun y => mem_cons)
      (fun hout => nodup_cons.2 ⟨hout, h.handNodup k _ ht⟩)
      (fun o hfate => hfate.takeOff trivial) trivial rfl (Function.update_self ..)
      (fun q hq => Function.update_of_ne hq ..) (Int.add_zero _) rfl⟩
    exact fun hl => absurd (r.phase_lock.symm.trans hl) nofun

/-! `cproc_ready`. -/

theorem Inv.ready (h : Inv s g)
    (ht : s.thread k = some (p, .ready q preq r)) : Inv (s.turnAt k p (.ready q preq r)) g := by
  have hplace := h.hand_eq ht mem_cons_self
  have hfate := h.fate q (h.lt_of_place (by rw [hplace]; exact nofun))
  rw [hplace] at hfate
  unfold System.turnAt
  dsimp only
  split
  · next hwired =>
    cases preq with
    | true =>
      rw [hfate.of_next.1] at hwired
      cases hwired
    | false => exact h.pass ht rfl hwired
  · next hwired => exact h.pass ht rfl (Bool.eq_false_of_not_eq_true hwired)

theorem Inv.readyEnq (h : Inv s g) (ht : s.thread k = some (p, .readyEnq q preq r)) :
    ∃ g', Inv (s.turnAt k p (.readyEnq q preq r)) g' := by
  have hnone : ∀ o : Option (Phase M C),
      (q ∈ ((Pc.readyEnq q preq r : Pc M C).info p).sure → o = none) → o = none :=
    fun o ho => ho (mem_singleton.2 rfl)
  cases preq with
  | true =>
    refine ⟨_, h.enqueue ht .next rfl rfl (mem_singleton.2 rfl) (List.Perm.refl _)
      (fun o hfate ho => ?_) rfl trivial rfl rfl (fun _ _ => rfl) rfl⟩
    rw [hnone o ho] at hfate ⊢
    exact hfate
  | false =>
    unfold System.turnAt
    dsimp only
    rw [if_neg Bool.false_ne_true]
    refine ⟨_, h.enqueue ht .waker rfl rfl (mem_singleton.2 rfl)
      (perm_append_singleton ..) (fun o hfate ho => ?_) rfl trivial rfl ?_
      (fun q hq => Function.update_of_ne hq ..) rfl⟩
    · rw [hnone o ho] at hfate ⊢
      exact hfate
    · dsimp only [System.wake, System.enq, System.setQueue]
      rw [Function.update_self]
      rfl

theorem Inv.readyCounted (h : Inv s g) (ht : s.thread k = some (p, .readyCount r)) :
    Inv (s.turnAt k p (.readyCount r)) g := by
  have hself := h.self ht
  unfold System.turnAt
  dsimp only
  split
  · refine h.quiet ht (h.locks.same ht fun _ => Iff.rfl) rfl rfl hself nofun trivial nofun
      nofun ?_ ?_
    · change s.readyCount - 1 + s.wakeups + 1 - 0 = s.readyCount + s.wakeups + 0 - 0
      omega
    · change s.waitCount - 1 + s.wakeups + 1 - 0 = s.waitCount + s.wakeups + 0 - 0
      omega
  · exact h.pass ht rfl trivial

theorem Inv.wakeup (h : Inv s g) (ht : s.thread k = some (p, .wakeup r)) :
    Inv (s.turnAt k p (.wakeup r)) g := by
  have hinfo : (r.pc : Pc M C).info p = r.info := r.pc_info
  have hself := h.self ht
  refine h.quiet ht (h.locks.same ht fun l => by rw [hinfo]; rfl) (by rw [hinfo]; rfl)
    (by rw [hinfo]; rfl) (by rw [hinfo]; exact hself) (by rw [hinfo]; exact nofun)
    (r.pc_knows _) (by rw [hinfo]; exact nofun) (by rw [hinfo]; exact nofun) ?_ ?_
  · rw [hinfo]
    change s.readyCount + (s.wakeups + 1 : ℕ) + 0 - 0 = s.readyCount + s.wakeups + 1 - 0
    omega
  · rw [hinfo]
    change s.waitCount + (s.wakeups + 1 : ℕ) + 0 - 0 = s.waitCount + s.wakeups + 1 - 0
    omega

/-! `cproc_block`. -/

theorem Inv.block (h : Inv s g) (ht : s.thread k = some (p, .block b)) :
    Inv (s.turnAt k p (.block b)) g := by
  have hself := h.self ht
  unfold System.turnAt
  dsimp only
  split
  · next hwired => exact h.go ht rfl ⟨hwired, hself.imp_right And.right⟩ nofun nofun trivial
  · next hwired =>
    have hasleep : (g.place p).asleep := hself.resolve_right fun hw => hwired hw.1
    exact h.go ht rfl ⟨Bool.eq_false_of_not_eq_true hwired, hasleep⟩ nofun nofun trivial

theorem Inv.blockState (h : Inv s g) (ht : s.thread k = some (p, .blockState b)) :
    Inv (s.turnAt k p (.blockState b)) g := by
  have hself : (s.cproc p).wired = false ∧ (g.place p).asleep := h.self ht
  exact h.modifySelf ht rfl ⟨hself.1, .inl ⟨rfl, hself.2⟩⟩ (fun _ => ⟨rfl, rfl⟩)
    (h.catch_locked ht mem_cons_self) fun _ => trivial

theorem Inv.blockDeq (h : Inv s g) (ht : s.thread k = some (p, .blockDeq b)) :
    ∃ g', Inv (s.turnAt k p (.blockDeq b)) g' := by
  have hself := h.self ht
  unfold System.turnAt
  dsimp only
  split
  · next new rest hq =>
    have hq' : s.queue .ready = new :: (s.queue .ready).tail := by rw [hq]; rfl
    refine ⟨_, h.dequeue ht .next hq' rfl (mem_singleton.2 rfl) nofun (fun y => mem_cons)
      (fun _ => nodup_singleton _) (fun o hfate => hfate.next) trivial rfl rfl
      (fun _ _ => rfl) ?_ rfl⟩
    change s.readyCount - 1 + 0 - 0 + 1 = s.readyCount + 0 - 0
    omega
  · refine ⟨g, h.quiet ht (h.locks.same ht fun _ => Iff.rfl) rfl rfl hself nofun trivial nofun
      nofun rfl ?_⟩
    change s.waitCount + 1 + s.wakeups + 0 - 1 = s.waitCount + s.wakeups + 0 - 0
    omega

omit [DecidableEq M] [DecidableEq C] in
theorem Phase.Ok.caught {x : Cproc M} {pl : Place M C}
    (hphase : (Phase.blocking : Phase M C).Ok x pl) :
    if x.state = cprocRunning then pl = .free else x.wired = false ∧ pl.asleep := by
  split
  · next hstate =>
    rcases hphase.2 with ⟨hswitching, -⟩ | ⟨-, hfree⟩
    · rw [hstate] at hswitching
      cases hswitching
    · exact hfree
  · next hstate =>
    rcases hphase.2 with ⟨-, hasleep⟩ | ⟨hrunning, -⟩
    · exact ⟨hphase.1, hasleep⟩
    · exact (hstate hrunning).elim

theorem Inv.blockTest (h : Inv s g) (ht : s.thread k = some (p, .blockTest new b)) :
    Inv (s.turnAt k p (.blockTest new b)) g := by
  have hself := Phase.Ok.caught (h.self ht)
  unfold System.turnAt
  dsimp only
  split at hself
  · next hstate =>
    rw [if_pos hstate]
    exact h.go ht rfl hself nofun nofun trivial
  · next hstate =>
    rw [if_neg hstate]
    exact h.go ht rfl hself nofun nofun trivial

theorem Inv.idleTest (h : Inv s g) (ht : s.thread k = some (p, .idleTest w b)) :
    Inv (s.turnAt k p (.idleTest w b)) g := by
  have hself := Phase.Ok.caught (h.self ht)
  unfold System.turnAt
  dsimp only
  split at hself
  · next hstate =>
    rw [if_pos hstate]
    exact h.go ht rfl hself nofun nofun trivial
  · next hstate =>
    rw [if_neg hstate]
    exact h.go ht rfl hself nofun nofun trivial

omit [DecidableEq M] [DecidableEq C] in
theorem Inv.setBlocked (h : Inv s g) (ht : s.thread k = some (p, a))
    (hinfo : a'.info p = { a.info p with phase := .leaving }) (hphase : (a.info p).phase = .asleep)
    (hlock : .cproc p ∈ (a.info p).locks) (hknows : ∀ cproc, a'.Knows cproc) :
    Inv ((s.setState p cprocBlocked).go k p a') g := by
  have hself := h.self ht
  rw [hphase] at hself
  exact h.modifySelf ht hinfo ⟨hself.1, rfl, .inl hself.2⟩ (fun _ => ⟨rfl, rfl⟩)
    (h.catch_locked ht hlock) hknows

theorem Inv.idleCount (h : Inv s g) (ht : s.thread k = some (p, .idleCount w b)) :
    Inv (s.turnAt k p (.idleCount w b)) g := by
  have hself := h.self ht
  refine h.quiet ht (h.locks.same ht fun _ => Iff.rfl) rfl rfl hself nofun trivial nofun nofun
    rfl ?_
  change s.waitCount - 1 + s.wakeups + 0 - 0 = s.waitCount + s.wakeups + 0 - 1
  omega

theorem Inv.idlePreq (h : Inv s g) (ht : s.thread k = some (p, .idlePreq w b)) :
    ∃ g', Inv (s.turnAt k p (.idlePreq w b)) g' :=
  ⟨_, h.enqueue ht .spare rfl rfl (mem_singleton.2 rfl) (List.Perm.refl _)
    (fun _ hfate _ => hfate.back) rfl trivial rfl rfl (fun _ _ => rfl) (Int.add_zero _).symm⟩

/-! `cproc_waiter`. -/

theorem Inv.waiterDeq (h : Inv s g) (ht : s.thread k = some (p, .waiterDeq b)) :
    ∃ g', Inv (s.turnAt k p (.waiterDeq b)) g' := by
  unfold System.turnAt
  dsimp only
  split
  · next w rest hq =>
    have hq' : s.queue .waiters = w :: (s.queue .waiters).tail := by rw [hq]; rfl
    exact ⟨_, h.dequeue ht .spare hq' rfl (mem_singleton.2 rfl) nofun (fun y => mem_cons)
      (fun _ => nodup_singleton _) (fun o hfate => hfate.spare) trivial rfl rfl
      (fun _ _ => rfl) (Int.add_zero _) rfl⟩
  · exact ⟨g, h.pass ht rfl trivial⟩

/-! The switches. -/

theorem Inv.leaveTwo (h : Inv s g) (ht : s.thread k = some (p, a))
    (hinfo : a'.info p = { a.info p with locks := [.cproc p] })
    (hlocks : (a.info p).locks = [.cproc x, .cproc p]) (hx : x ∈ (a.info p).sure)
    (hknows : a'.Knows s.cproc) : Inv (s.spinUnlock k p (.cproc x) a') g := by
  have hne : (Lock.cproc x : Lock M C) ≠ .cproc p := fun heq =>
    h.ne_of_sure ht hx (Lock.cproc.inj heq)
  refine h.unlockWith ht (l := .cproc x) hinfo ?_ (fun y => ?_) (h.self ht) hknows
  · rw [hlocks]
    exact mem_cons_self
  · rw [hlocks]
    exact mem_iff_of_nodup_cons (nodup_pair hne) y

omit [DecidableEq M] [DecidableEq C] in
theorem Inv.save (h : Inv s g) (ht : s.thread k = some (p, a))
    (hinfo : a'.info p = { a.info p with phase := .saved }) (hphase : (a.info p).phase = .leaving)
    (hknows : ∀ cproc, a'.Knows cproc) :
    Inv ((s.modify p fun c => { c with context := some b }).go k p a') g := by
  have hself := h.self ht
  rw [hphase] at hself
  obtain ⟨hwired, hswitching, hplace⟩ := hself
  refine h.modifySelf ht hinfo ?_ (fun _ => ⟨rfl, rfl⟩) (fun _ _ _ _ _ => rfl) hknows
  have hoff : (s.cproc p).wired = false ∧ (s.cproc p).state.switching = false ∧ some b ≠ none :=
    ⟨hwired, hswitching, nofun⟩
  rcases hplace with hasleep | hready | ⟨j, hnext⟩
  · generalize g.place p = pl at hasleep
    match pl, hasleep with
    | .on (.mutex _), _ => exact hoff
    | .on (.cond _), _ => exact hoff
    | .hand .waker _, _ => exact hoff
  · rw [hready]
    exact hoff
  · rw [hnext]
    exact hoff

theorem Inv.switchTo (h : Inv s g) (ht : s.thread k = some (p, .switchTo new)) :
    ∃ g', Inv (s.turnAt k p (.switchTo new)) g' := by
  have hplace := h.hand_eq ht (x := new) mem_cons_self
  have hexec : g.exec new = none := h.sure k _ ht new (mem_singleton.2 rfl)
  have hoff := (h.exec_none hexec (h.lt_of_place (by rw [hplace]; exact nofun))).2
  rw [hplace] at hoff
  unfold System.turnAt
  dsimp only
  split
  · next hcontext => exact (hoff.2.2 hcontext).elim
  · exact ⟨_, h.jump ht .next rfl rfl rfl (mem_singleton.2 rfl) rfl rfl ⟨rfl, rfl, rfl⟩ rfl
      fun _ => trivial⟩

theorem Inv.startWaitOn (h : Inv s g) (ht : s.thread k = some (p, .startWaitOn w)) :
    ∃ g', Inv (s.turnAt k p (.startWaitOn w)) g' := by
  have hnew : Inv ({ s with cproc := Function.update s.cproc w (s.cproc w) }.go k w
      (.startedWait p)) _ :=
    h.jump ht .spare rfl rfl rfl (mem_singleton.2 rfl) rfl rfl ⟨rfl, rfl, rfl⟩ rfl fun _ => trivial
  rw [Function.update_eq_self] at hnew
  exact ⟨_, hnew⟩

/-! `cproc_waiting`. -/

theorem Inv.waiting (h : Inv s g) (ht : s.thread k = some (p, .waiting)) :
    Inv (s.turnAt k p .waiting) g := by
  have hself := h.self ht
  unfold System.turnAt
  dsimp only
  split
  · next hpos =>
    refine h.quiet ht (h.locks.same ht fun _ => Iff.rfl) rfl rfl hself nofun trivial nofun nofun
      ?_ ?_
    · change s.readyCount + (s.wakeups - 1 : ℕ) + 1 - 0 = s.readyCount + s.wakeups + 0 - 0
      omega
    · change s.waitCount + (s.wakeups - 1 : ℕ) + 1 - 1 = s.waitCount + s.wakeups + 0 - 1
      omega
  · exact h

theorem Inv.waitingDeq (h : Inv s g) (ht : s.thread k = some (p, .waitingDeq)) :
    ∃ g', Inv (s.turnAt k p .waitingDeq) g' := by
  have hself := h.self ht
  unfold System.turnAt
  dsimp only
  split
  · next new rest hq =>
    have hq' : s.queue .ready = new :: (s.queue .ready).tail := by rw [hq]; rfl
    refine ⟨_, h.dequeue ht .next hq' rfl (mem_singleton.2 rfl) nofun (fun y => mem_cons)
      (fun _ => nodup_singleton _) (fun o hfate => hfate.next) trivial rfl rfl
      (fun _ _ => rfl) ?_ ?_⟩
    · change s.readyCount + 0 - 0 + 1 = s.readyCount + 1 - 0
      omega
    · change s.waitCount + 0 - 0 = s.waitCount + 1 - 1
      omega
  · refine ⟨g, h.quiet ht (h.locks.same ht fun _ => Iff.rfl) rfl rfl hself nofun trivial nofun
      nofun ?_ ?_⟩
    · change s.readyCount + 1 + s.wakeups + 0 - 0 = s.readyCount + s.wakeups + 1 - 0
      omega
    · change s.waitCount + 1 + s.wakeups + 0 - 1 = s.waitCount + s.wakeups + 1 - 1
      omega

theorem Inv.waitingLeave (h : Inv s g) (ht : s.thread k = some (p, .waitingLeave new)) :
    Inv (s.turnAt k p (.waitingLeave new)) g := by
  have hplace : g.place p = .on .waiters := (h.self ht).1
  exact h.unlockWith ht rfl (mem_cons_of_mem _ (mem_singleton.2 rfl))
    (mem_singleton_iff_of_pair nofun) (.inl hplace) trivial

/-! `condition_wait`. -/

theorem Inv.condState (h : Inv s g) (ht : s.thread k = some (p, .condState c m)) :
    Inv (s.turnAt k p (.condState c m)) g := by
  have hfree : g.place p = .free := h.self ht
  refine h.modifySelf ht rfl ⟨hfree, rfl⟩ (fun _ => ⟨rfl, rfl⟩) (h.catch_place fun j _ => ?_)
    fun _ => trivial
  rw [hfree]
  exact nofun

theorem Inv.condLeave (h : Inv s g) (ht : s.thread k = some (p, .condLeave c m)) :
    Inv (s.turnAt k p (.condLeave c m)) g := by
  obtain ⟨hplace, hswitching⟩ : (Phase.queued (.cond c) : Phase M C).Ok (s.cproc p) (g.place p) :=
    h.self ht
  have hlocks : ∀ x : Lock M C, x ∈ [] ↔ x ≠ .queue (.cond c) ∧ x ∈ [Lock.queue (.cond c)] :=
    fun x => iff_of_false nofun fun hx => hx.1 (mem_singleton.1 hx.2)
  refine h.unlockWith ht rfl (mem_singleton.2 rfl) hlocks ?_ trivial
  change if _ then _ else _
  rw [hplace, if_pos (hswitching c rfl)]
  split
  · exact ⟨hswitching c rfl, .inl trivial⟩
  · trivial

theorem Inv.condTest (h : Inv s g) (ht : s.thread k = some (p, .condTest m)) :
    Inv (s.turnAt k p (.condTest m)) g := by
  have hself : (Phase.waiting : Phase M C).Ok (s.cproc p) (g.place p) := h.self ht
  unfold Phase.Ok at hself
  unfold System.turnAt
  dsimp only at hself ⊢
  split at hself
  · next hwired =>
    rw [if_pos hself.1]
    exact h.go ht rfl (hself.2.imp_right fun hmessage => ⟨hwired, hmessage⟩) nofun nofun trivial
  · split at hself
    · next hswitching =>
      rw [if_pos hswitching]
      exact h.go ht rfl (.inl hself) nofun nofun trivial
    · next hswitching =>
      rw [if_neg hswitching]
      exact h.go ht rfl hself nofun nofun trivial

/-! `cond_signal` and `cond_broadcast`. -/

theorem Inv.signalDeq (h : Inv s g) (ht : s.thread k = some (p, .signalDeq c)) :
    ∃ g', Inv (s.turnAt k p (.signalDeq c)) g' := by
  unfold System.turnAt
  dsimp only
  split
  · exact ⟨g, h.pass ht rfl trivial⟩
  · next new rest hq =>
    have hq' : s.queue (.cond c) = new :: (s.queue (.cond c)).tail := by rw [hq]; rfl
    exact ⟨_, h.dequeue ht .waker hq' rfl (mem_singleton.2 rfl) nofun (fun y => mem_cons)
      (fun _ => nodup_singleton _) (fun o hfate => hfate.takeOff trivial) trivial rfl
      (Function.update_self ..) (fun q hq => Function.update_of_ne hq ..) (Int.add_zero _) rfl⟩

theorem Inv.broadcastDeq (h : Inv s g) {l : List ℕ}
    (ht : s.thread k = some (p, .broadcastDeq c l)) :
    ∃ g', Inv (s.turnAt k p (.broadcastDeq c l)) g' := by
  unfold System.turnAt
  dsimp only
  split
  · exact ⟨g, h.pass ht rfl trivial⟩
  · next new rest hq =>
    have hq' : s.queue (.cond c) = new :: (s.queue (.cond c)).tail := by rw [hq]; rfl
    refine ⟨_, h.dequeue ht .waker hq' rfl (mem_singleton.2 rfl) nofun (fun y => ?_)
      (fun hout => ?_) (fun o hfate => hfate.takeOff trivial) trivial rfl
      (Function.update_self ..) (fun q hq => Function.update_of_ne hq ..) (Int.add_zero _) rfl⟩
    · rw [map_append, mem_append, or_comm]
      exact or_congr_left mem_singleton
    · rw [map_append]
      exact (perm_append_singleton ..).nodup_iff.2 (nodup_cons.2 ⟨hout, h.handNodup k _ ht⟩)

/-! `cthread_yield`. -/

theorem Inv.yieldDeq (h : Inv s g) (ht : s.thread k = some (p, .yieldDeq)) :
    ∃ g', Inv (s.turnAt k p .yieldDeq) g' := by
  have hself : g.place p = .free ∧ (s.cproc p).wired = false := h.self ht
  unfold System.turnAt
  dsimp only
  split
  · next new rest hq =>
    have hq' : s.queue .ready = new :: (s.queue .ready).tail := by rw [hq]; rfl
    refine ⟨_, h.dequeue ht .next hq' rfl (mem_singleton.2 rfl) nofun (fun y => mem_cons)
      (fun _ => nodup_singleton _) (fun o hfate => hfate.next) trivial rfl rfl
      (fun _ _ => rfl) ?_ rfl⟩
    change s.readyCount + 0 - 1 + 1 = s.readyCount + 0 - 0
    omega
  · exact ⟨g, h.go ht rfl hself.1 nofun nofun trivial⟩

theorem Inv.yieldState (h : Inv s g) (ht : s.thread k = some (p, .yieldState new)) :
    Inv (s.turnAt k p (.yieldState new)) g := by
  have hself : (s.cproc p).wired = false ∧ g.place p = .on .ready := h.self ht
  exact h.modifySelf ht rfl ⟨hself.1, rfl, .inr (.inl hself.2)⟩ (fun _ => ⟨rfl, rfl⟩)
    (h.catch_locked ht mem_cons_self) fun _ => trivial

/-! `cproc_create`. -/

theorem Inv.createTest (h : Inv s g) {child : ℕ} (ht : s.thread k = some (p, .createTest child)) :
    Inv (s.turnAt k p (.createTest child)) g := by
  have hself := h.self ht
  have hsure := h.sure k _ ht
  unfold System.turnAt
  dsimp only
  split
  · exact h.quiet ht (h.locks.same ht fun _ => Iff.rfl) rfl rfl hself hsure trivial nofun nofun
      rfl rfl
  · exact h.pass ht rfl trivial

theorem Inv.turnAt (h : Inv s g) (ht : s.thread k = some (p, a)) :
    ∃ g', Inv (s.turnAt k p a) g' := by
  cases a with
  | user | fallen => exact ⟨g, h⟩
  | lock m | relock m => exact ⟨g, h.tryLock ht rfl rfl (fun _ => trivial) fun _ => trivial⟩
  -- `mutex_lock_solid`
  | solid | solidSelf => exact ⟨g, h.spinLock ht rfl trivial⟩
  | solidHead => exact h.solidHead ht
  | solidTry => exact ⟨g, h.solidTry ht⟩
  | solidDeq => exact ⟨_, h.solidDeq ht⟩
  | solidLeave => exact ⟨g, h.spinUnlock ht rfl rfl trivial⟩
  | solidEnq =>
    exact ⟨_, h.enqSelf ht rfl (mem_singleton.2 rfl) (h.self ht) ⟨rfl, nofun⟩
      (fun _ => trivial) nofun rfl⟩
  | solidBlock => exact ⟨g, h.solidBlock ht⟩
  -- `mutex_unlock`
  | unlock => exact ⟨g, h.unlock ht⟩
  | unlockHead m r =>
    unfold System.turnAt
    dsimp only
    split
    · exact ⟨g, h.pass ht r.pc_info (r.pc_knows _)⟩
    · exact ⟨g, h.pass ht rfl trivial⟩
  | unlockTry m r =>
    unfold System.turnAt
    dsimp only
    split
    · exact ⟨g, h.pass ht r.pc_info (r.pc_knows _)⟩
    · next hm => exact ⟨_, h.unlockTry ht (Bool.eq_false_of_not_eq_true hm)⟩
  | unlockSolid => exact ⟨g, h.spinLock ht rfl trivial⟩
  | unlockDeq => exact h.unlockDeq ht
  | unlockHeld => exact ⟨_, h.unlockHeld ht⟩
  | unlockLeave m new r => exact ⟨g, h.spinUnlock ht (r.then_info new) rfl (r.then_knows ..)⟩
  -- `cproc_ready`
  | ready => exact ⟨g, h.ready ht⟩
  | readySend => exact ⟨_, h.readySend ht⟩
  | readyLock => exact ⟨g, h.spinLock ht rfl (h.knows k _ ht)⟩
  | readyTest => exact ⟨g, h.readyTest ht⟩
  | readyCatch => exact ⟨_, h.readyCatch ht⟩
  | readyCaught q r | readyLeave r => exact ⟨g, h.spinUnlock ht r.pc_info rfl (r.pc_knows _)⟩
  | readyMiss | readyWake => exact ⟨g, h.spinUnlock ht rfl rfl trivial⟩
  | readyQueue => exact ⟨g, h.spinLock ht rfl trivial⟩
  | readyEnq => exact h.readyEnq ht
  | readySelf =>
    unfold System.turnAt
    dsimp only
    split
    · exact ⟨g, h.pass ht rfl trivial⟩
    · exact ⟨g, h.pass ht rfl trivial⟩
  | readyCount => exact ⟨g, h.readyCounted ht⟩
  | wakeup => exact ⟨g, h.wakeup ht⟩
  -- `cproc_block`
  | block => exact ⟨g, h.block ht⟩
  | blockWired | blockLeave | blockNew | blockSaved => exact ⟨g, h.spinUnlock ht rfl rfl trivial⟩
  | receive =>
    unfold System.turnAt
    dsimp only
    split
    · next hpos => exact ⟨_, h.receive ht hpos⟩
    · exact ⟨g, h⟩
  | blockState => exact ⟨g, h.blockState ht⟩
  | blockReady | blockSelf => exact ⟨g, h.spinLock ht rfl trivial⟩
  | blockDeq => exact h.blockDeq ht
  | blockTest => exact ⟨g, h.blockTest ht⟩
  | blocked | idleBlocked =>
    exact ⟨g, h.setBlocked ht rfl rfl (mem_singleton.2 rfl) fun _ => trivial⟩
  | idle | idleSaved | idleCounted => exact ⟨g, h.spinUnlock ht rfl rfl trivial⟩
  | idleSelf | idleReady | idleBack => exact ⟨g, h.spinLock ht rfl trivial⟩
  | idleTest => exact ⟨g, h.idleTest ht⟩
  | idleCount => exact ⟨g, h.idleCount ht⟩
  | idlePreq => exact h.idlePreq ht
  | idleDone b => exact ⟨g, h.spinUnlock ht b.pc_info rfl (b.pc_knows _)⟩
  | idleWaiter w b =>
    refine ⟨g, h.lockWith ht rfl (fun hlock x hx => ?_) trivial⟩
    rw [mem_singleton.1 hx]
    exact h.spare_exec ht mem_cons_self hlock
  | idleWaited => exact ⟨g, h.leaveTwo ht rfl rfl (mem_singleton.2 rfl) trivial⟩
  -- `cproc_waiter`
  | waiter => exact ⟨g, h.spinLock ht rfl trivial⟩
  | waiterDeq => exact h.waiterDeq ht
  | waiterLeave w => cases w with
    | none => exact ⟨g, h.spinUnlock ht rfl rfl trivial⟩
    | some w => exact ⟨g, h.spinUnlock ht rfl rfl trivial⟩
  | waiterAlloc => exact ⟨_, h.alloc ht .spare rfl rfl (.inl rfl) fun _ => trivial⟩
  -- the switches
  | resume new b =>
    refine ⟨g, h.lockWith ht rfl (fun hlock x hx => ?_) trivial⟩
    rw [mem_singleton.1 hx]
    exact h.next_exec ht mem_cons_self hlock
  | resumeState new b =>
    refine ⟨g, h.stateSure ht ?_ mem_cons_self (mem_singleton.2 rfl) cprocRunning rfl
      fun _ => trivial⟩
    rfl
  | resumeLeave => exact ⟨g, h.leaveTwo ht rfl rfl (mem_singleton.2 rfl) trivial⟩
  | switch | startWait => exact ⟨g, h.save ht rfl rfl fun _ => trivial⟩
  | switchTo => exact h.switchTo ht
  | switched old b => exact ⟨g, h.spinUnlock ht b.pc_info rfl (b.pc_knows _)⟩
  | startWaitOn => exact h.startWaitOn ht
  | startedWait => exact ⟨g, h.spinUnlock ht rfl rfl trivial⟩
  -- `cproc_waiting`
  | waiting => exact ⟨g, h.waiting ht⟩
  | waitingReady | waitingBack | waitingSelf => exact ⟨g, h.spinLock ht rfl trivial⟩
  | waitingDeq => exact h.waitingDeq ht
  | waitingNone | waitingNew | waitingUnlock => exact ⟨g, h.spinUnlock ht rfl rfl trivial⟩
  | waitingLock new =>
    refine ⟨g, h.lockWith ht rfl (fun hlock x hx => ?_) trivial⟩
    rw [mem_singleton.1 hx]
    exact h.next_exec ht mem_cons_self hlock
  | waitingEnq =>
    exact ⟨_, h.enqSelf ht rfl (mem_singleton.2 rfl) (h.self ht) ⟨rfl, nofun⟩
      (fun _ => trivial) nofun rfl⟩
  | waitingState new =>
    refine ⟨g, h.stateSure ht ?_ mem_cons_self (mem_singleton.2 rfl) cprocRunning rfl
      fun _ => trivial⟩
    rfl
  | waitingLeave => exact ⟨g, h.waitingLeave ht⟩
  | waitingSwitch =>
    have hself := h.self ht
    refine ⟨g, h.modifySelf ht rfl ?_ (fun _ => ⟨rfl, rfl⟩) (fun _ _ _ _ _ => rfl) fun _ => trivial⟩
    rcases hself with hplace | ⟨j, hplace⟩
    · rw [hplace]
      trivial
    · rw [hplace]
      trivial
  -- `condition_wait`
  | condState => exact ⟨g, h.condState ht⟩
  | condLock | condSelf => exact ⟨g, h.spinLock ht rfl trivial⟩
  | condEnq c m =>
    have hself : g.place p = .free ∧ (s.cproc p).state.switching = true := h.self ht
    exact ⟨_, h.enqSelf ht rfl (mem_singleton.2 rfl) hself.1 ⟨rfl, fun _ _ => hself.2⟩
      (fun _ => trivial) nofun rfl⟩
  | condLeave => exact ⟨g, h.condLeave ht⟩
  | condTest => exact ⟨g, h.condTest ht⟩
  | condCaught =>
    exact ⟨g, h.modifySelf ht rfl (h.self ht) (fun _ => ⟨rfl, rfl⟩)
      (h.catch_locked ht (mem_singleton.2 rfl)) fun _ => trivial⟩
  | condDone => exact ⟨g, h.spinUnlock ht rfl rfl trivial⟩
  -- `cond_signal` and `cond_broadcast`
  | signal | broadcast => exact ⟨g, h.spinLock ht rfl trivial⟩
  | signalDeq => exact h.signalDeq ht
  | signalLeave c new =>
    refine ⟨g, h.spinUnlock ht ?_ rfl ((Ret.to .user).then_knows ..)⟩
    cases new with
    | none => rfl
    | some q => rfl
  | broadcastDeq => exact h.broadcastDeq ht
  | broadcastLeave c l =>
    exact ⟨g, h.spinUnlock ht (Ret.rest l).pc_info rfl ((Ret.rest l).pc_knows _)⟩
  -- `cthread_yield`
  | yield =>
    have hself := h.self ht
    unfold System.turnAt
    dsimp only
    split
    · exact ⟨g, h.pass ht rfl trivial⟩
    · next hwired =>
      exact ⟨g, h.go ht rfl ⟨hself, Bool.eq_false_of_not_eq_true hwired⟩ nofun nofun trivial⟩
  | yieldReady | yieldSelf => exact ⟨g, h.spinLock ht rfl trivial⟩
  | yieldDeq => exact h.yieldDeq ht
  | yieldNone => exact ⟨g, h.spinUnlock ht rfl rfl trivial⟩
  | yieldEnq =>
    have hself : g.place p = .free ∧ (s.cproc p).wired = false := h.self ht
    exact ⟨_, h.enqSelf ht rfl (mem_singleton.2 rfl) hself.1 ⟨hself.2, rfl⟩
      (fun _ => trivial) nofun rfl⟩
  | yieldState => exact ⟨g, h.yieldState ht⟩
  | yieldLeave =>
    exact ⟨g, h.unlockWith ht rfl (mem_cons_of_mem _ (mem_singleton.2 rfl))
      (mem_singleton_iff_of_pair nofun) (h.self ht) trivial⟩
  -- `cproc_create`
  | create => exact ⟨_, h.alloc ht .child rfl rfl (.inr rfl) fun _ => trivial⟩
  | createKern => exact ⟨g, h.spinLock ht rfl trivial⟩
  | createTest => exact ⟨g, h.createTest ht⟩
  | createCounted | createFull => exact ⟨g, h.spinUnlock ht rfl rfl trivial⟩
  | createThread => exact ⟨_, h.createThread ht⟩
  | createState child =>
    refine ⟨g, h.stateSure ht ?_ mem_cons_self (mem_singleton.2 rfl) cprocBlocked rfl
      fun _ => trivial⟩
    rfl
  | createPrepare => exact ⟨_, h.createPrepare ht⟩

/-! Calls, and whole runs. -/

section
omit [DecidableEq M] [DecidableEq C]

theorem Inv.enter (h : Inv s g) (ht : s.thread k = some (p, .user)) {owns : List M}
    (hinfo : a'.info p = { owns }) (howns : ∀ m ∈ owns, p ∈ s.owners m)
    (hknows : ∀ cproc, a'.Knows cproc) : Inv (s.go k p a') g := by
  have hself := h.self ht
  exact h.quiet ht (h.locks.same ht fun l => by rw [hinfo]; rfl) (by rw [hinfo]; rfl)
    (by rw [hinfo]; rfl) (by rw [hinfo]; exact hself) (by rw [hinfo]; exact nofun) (hknows _)
    (by rw [hinfo]; exact nofun) (by rw [hinfo]; exact howns) (by rw [hinfo]; rfl)
    (by rw [hinfo]; rfl)

theorem Inv.wire (h : Inv s g) (ht : s.thread k = some (p, .user)) :
    Inv (s.modify p fun c => { c with wired := true }) g := by
  have hfree : g.place p = .free := h.self ht
  have hother : ∀ q, q ≠ p → (s.modify p fun c => { c with wired := true }).cproc q = s.cproc q :=
    fun q hq => Function.update_of_ne hq ..
  have hthread : s.thread = Function.update s.thread k (some (p, .user)) := by
    rw [← ht, Function.update_eq_self]
  have hknows : ∀ j t, s.thread j = some t →
      t.2.Knows (s.modify p fun c => { c with wired := true }).cproc := by
    rintro j ⟨r, b⟩ hjt
    refine (h.knows j _ hjt).of_hand (p := r) fun i q hq => hother q ?_
    rintro rfl
    rw [h.hand_eq hjt hq] at hfree
    cases hfree
  refine h.advance ht hthread ⟨rfl, le_rfl, rfl⟩ rfl h.locks h.hand nodup_nil h.unlocker
    h.queue h.mem h.unborn (fun q hq => ?_) nofun trivial nofun
    (fun j t _ hjt => ⟨hknows j t hjt, h.alone j t hjt, h.owns j t hjt⟩) nofun h.held
    (fun q => ?_) h.taken rfl rfl
  · by_cases hqp : q = p
    · rw [if_pos hqp, hqp]
      exact hfree
    · rw [hother q hqp]
      exact h.fate_if ht hq
  · by_cases hqp : q = p
    · rw [hqp]
      dsimp only [System.modify]
      rw [Function.update_self]
      exact h.msgs p
    · rw [hother q hqp]
      exact h.msgs q

theorem Inv.call (h : Inv s g) (ht : s.thread k = some (p, .user)) (c : Call M C) :
    Inv (s.call k p c) g := by
  cases c with
  | lock | signal | broadcast | yield | create => exact h.pass ht rfl trivial
  | unlock m =>
    unfold System.call
    dsimp only
    split
    · next hm =>
      refine h.enter ht rfl (fun n hn => ?_) fun _ => trivial
      rwa [mem_singleton.1 hn]
    · exact h
  | wait c m =>
    unfold System.call
    dsimp only
    split
    · next hm =>
      refine h.enter ht rfl (fun n hn => ?_) fun _ => trivial
      rwa [mem_singleton.1 hn]
    · exact h
  | wire => exact h.wire ht

end

theorem Inv.event (h : Inv s g) (e : Event M C) : ∃ g', Inv (s.event e) g' := by
  cases e with
  | call k c =>
    unfold System.event
    dsimp only
    split
    · next p ht => exact ⟨g, h.call ht c⟩
    · exact ⟨g, h⟩
  | turn k =>
    unfold System.event
    dsimp only
    split
    · next p a ht => exact h.turnAt ht
    · exact ⟨g, h⟩
  | limit n => exact ⟨g, { h with }⟩

end Turn

theorem Inv.start : Inv (System.start : System M C)
    ⟨fun q => if q = 0 then some 0 else none, fun _ => .free, fun _ => none⟩ := by
  have hthread : ∀ {k : ℕ} {t : ℕ × Pc M C}, (System.start : System M C).thread k = some t →
      k = 0 ∧ t = (0, .user) := by
    intro k t ht
    dsimp only [System.start] at ht
    rw [Function.update_apply] at ht
    split at ht
    · next hk => exact ⟨hk, (Option.some.inj ht).symm⟩
    · cases ht
  have hnothing : ∀ {L : Type} {has : ℕ × Pc M C → List L}, has (0, .user) = [] →
      Owned (fun _ : L => none) (System.start : System M C).thread has := by
    intro L has hnil l k
    refine iff_of_false nofun fun ⟨t, ht, hl⟩ => ?_
    rw [(hthread ht).2, hnil] at hl
    cases hl
  refine
    { found := rfl, locks := hnothing rfl, hand := hnothing rfl, unlocker := hnothing rfl
      exec := fun q k => ?_, handNodup := fun k t ht => ?_, queue := fun _ => nodup_nil
      mem := fun _ _ => iff_of_false nofun nofun, low := fun k t ht => ?_
      unborn := fun _ _ => rfl, fate := fun q hq => ?_, sure := fun k t ht q hq => ?_
      knows := fun k t ht => ?_, alone := fun k t ht m hm => ?_, owns := fun k t ht m hm => ?_
      held := fun _ => rfl, msgs := fun _ => rfl, taken := fun _ => rfl, readyCount := ?_
      waitCount := ?_ }
  · constructor
    · intro hq
      dsimp only at hq
      split at hq
      · next hq0 =>
        rw [← Option.some.inj hq, hq0]
        exact ⟨(0, .user), rfl, mem_singleton.2 rfl⟩
      · cases hq
    · rintro ⟨t, ht, hmem⟩
      obtain ⟨rfl, rfl⟩ := hthread ht
      exact if_pos (mem_singleton.1 hmem)
  · rw [(hthread ht).2]
    exact nodup_nil
  · obtain ⟨rfl, rfl⟩ := hthread ht
    exact ⟨Nat.one_pos, Nat.one_pos⟩
  · obtain rfl : q = 0 := Nat.lt_one_iff.1 hq
    rfl
  · rw [(hthread ht).2] at hq
    cases hq
  · rw [(hthread ht).2]
    trivial
  · rw [(hthread ht).2] at hm
    cases hm
  · rw [(hthread ht).2] at hm
    cases hm
  · rfl
  · rfl

theorem Inv.run [DecidableEq M] [DecidableEq C] (es : List (Event M C)) :
    ∃ g, Inv (System.run es) g :=
  List.foldlRecOn (motive := fun s => ∃ g, Inv s g) es System.event ⟨_, Inv.start⟩
    fun _ ⟨_, h⟩ e _ => h.event e

/-! What it is good for. -/

/-- A wakeup message is counted that is to be sent, or not counted that was received. -/
def Pc.between : Pc M C → Bool
  | .readyWake _ | .wakeup _ | .waitingReady | .waitingDeq => true
  | _ => false

/-- The thread is, or is going to be, idle in `cproc_waiting`. -/
def Pc.idles : Pc M C → Bool
  | .idle _ | .waiter _ | .waiterDeq _ | .waiterLeave .. | .waiterAlloc _ | .idleSelf .. |
    .idleTest .. | .idleSaved .. | .idleReady .. | .idleCount .. | .idleBlocked .. |
    .idleWaiter .. | .idleWaited .. | .startWait .. | .startWaitOn _ | .startedWait _ |
    .waiting | .waitingReady | .waitingDeq | .waitingNone => true
  | _ => false

/-- The cproc was taken off a queue, or made, and is to be made runnable. -/
def System.wakes (s : System M C) (q : ℕ) : Prop :=
  ∃ k p a, s.thread k = some (p, a) ∧ (Hand.waker, q) ∈ (a.info p).hand

structure Safe (s : System M C) : Prop where
  mutex : ∀ m, (s.owners m).length ≤ 1
  executed : ∀ j k q a b, s.thread j = some (q, a) → s.thread k = some (q, b) → j = k
  queued : ∀ Q, (s.queue Q).Nodup
  once : ∀ q Q Q', q ∈ s.queue Q → q ∈ s.queue Q' → Q = Q'
  -- it is switched only to a cproc that was switched from, and whose thread has left it
  saved : ∀ k p new, s.thread k = some (p, .switchTo new) →
    (s.cproc new).context ≠ none ∧ ∀ j a, s.thread j ≠ some (new, a)
  found : s.lost = false
  woken : ∀ q, (s.wakes q ∧ s.taken q = s.woken q + 1) ∨ (¬s.wakes q ∧ s.taken q = s.woken q)
  messages : ∀ q, (s.cproc q).msgs ≤ 1
  -- a cproc that nobody executes is on a queue, or a kernel thread is about to do something with it
  kept : ∀ q, q < s.fresh → (∀ k a, s.thread k ≠ some (q, a)) →
    (∃ Q, q ∈ s.queue Q) ∨ ∃ k p a hd, s.thread k = some (p, a) ∧ (hd, q) ∈ (a.info p).hand
  counts : s.lock (.queue .ready) = none →
    (∀ k p a, s.thread k = some (p, a) → a.between = false) →
    s.readyCount = (s.queue .ready).length - s.wakeups ∧
    s.waitCount = total (fun t => if t.2.idles then 1 else 0) s.thread s.nextThread - s.wakeups

theorem Pc.info_idle (a : Pc M C) (p : ℕ) : (a.info p).idle = if a.idles then 1 else 0 := by
  cases a with
  | solidTry m queued => cases queued <;> rfl
  | _ => rfl

theorem Pc.info_sent (a : Pc M C) (p : ℕ) (hlock : .queue .ready ∉ (a.info p).locks)
    (hbetween : a.between = false) : (a.info p).sent = 0 ∧ (a.info p).short = 0 := by
  cases a with
  | solidTry m queued => cases queued <;> exact ⟨rfl, rfl⟩
  | readyWake | waitingDeq | wakeup | waitingReady => cases hbetween
  | yieldEnq => exact (hlock (mem_singleton.2 rfl)).elim
  | _ => exact ⟨rfl, rfl⟩

theorem total_zero {T : Type*} {f : T → ℤ} {thread : ℕ → Option T} {n : ℕ}
    (hf : ∀ k t, thread k = some t → f t = 0) : total f thread n = 0 := by
  refine Finset.sum_eq_zero fun k _ => ?_
  cases ht : thread k with
  | none => rfl
  | some t => exact hf k t ht

section Safety
variable {s : System M C} {g : Ghost M C}

theorem Place.holder_hand (hd : Hand) (k : ℕ) :
    (Place.hand hd k : Place M C).holder hd = some k := by
  unfold Place.holder
  exact if_pos rfl

theorem Inv.wakes_iff (h : Inv s g) (q : ℕ) : s.wakes q ↔ ∃ k, g.place q = .hand .waker k := by
  constructor
  · rintro ⟨k, p, a, ht, hmem⟩
    exact ⟨k, h.hand_eq ht hmem⟩
  · rintro ⟨k, hplace⟩
    have howner : (g.place q).holder .waker = some k := by
      rw [hplace]
      exact Place.holder_hand ..
    obtain ⟨⟨p, a⟩, ht, hmem⟩ := (h.hand (.waker, q) k).1 howner
    exact ⟨k, p, a, ht, hmem⟩

theorem Inv.woken (h : Inv s g) (q : ℕ) :
    (s.wakes q ∧ s.taken q = s.woken q + 1) ∨ (¬s.wakes q ∧ s.taken q = s.woken q) := by
  have htaken := h.taken q
  rw [h.wakes_iff]
  match hplace : g.place q with
  | .hand .waker k =>
    rw [hplace] at htaken
    exact .inl ⟨⟨k, rfl⟩, htaken⟩
  | .hand .next k | .hand .spare k | .hand .child k | .free | .on Q | .message =>
    rw [hplace] at htaken
    exact .inr ⟨nofun, htaken⟩

theorem Inv.kept (h : Inv s g) {q : ℕ} (hq : q < s.fresh)
    (hnone : ∀ k a, s.thread k ≠ some (q, a)) :
    (∃ Q, q ∈ s.queue Q) ∨ ∃ k p a hd, s.thread k = some (p, a) ∧ (hd, q) ∈ (a.info p).hand := by
  have hexec : g.exec q = none := by
    cases hk : g.exec q with
    | none => rfl
    | some k =>
      obtain ⟨⟨r, a⟩, ht, hmem⟩ := (h.exec q k).1 hk
      rw [mem_singleton.1 hmem] at hnone
      exact (hnone k a ht).elim
  have hoff := (h.exec_none hexec hq).2
  cases hplace : g.place q with
  | on Q => exact .inl ⟨Q, (h.mem Q q).2 hplace⟩
  | hand hd k =>
    have howner : (g.place q).holder hd = some k := by
      rw [hplace]
      exact Place.holder_hand ..
    obtain ⟨⟨p, a⟩, ht, hmem⟩ := (h.hand (hd, q) k).1 howner
    exact .inr ⟨k, p, a, hd, ht, hmem⟩
  | free | message =>
    rw [hplace] at hoff
    exact hoff.elim

theorem Inv.counts (h : Inv s g) (hlock : s.lock (.queue .ready) = none)
    (hbetween : ∀ k p a, s.thread k = some (p, a) → a.between = false) :
    s.readyCount = (s.queue .ready).length - s.wakeups ∧
    s.waitCount = total (fun t => if t.2.idles then 1 else 0) s.thread s.nextThread -
      s.wakeups := by
  have hsent : ∀ k t, s.thread k = some t → (t.2.info t.1).sent = 0 ∧ (t.2.info t.1).short = 0 := by
    rintro k ⟨p, a⟩ ht
    refine a.info_sent p (fun hmem => ?_) (hbetween k p a ht)
    rw [h.locks.owns ht hmem] at hlock
    cases hlock
  have hidle : (fun t : ℕ × Pc M C => (t.2.info t.1).idle) = fun t => if t.2.idles then 1 else 0 :=
    funext fun t => t.2.info_idle t.1
  constructor
  · rw [h.readyCount, total_zero fun k t ht => by rw [(hsent k t ht).1, (hsent k t ht).2]; rfl]
    exact Int.sub_zero _
  · rw [h.waitCount, total_zero fun k t ht => (hsent k t ht).1, hidle]
    exact Int.sub_zero _

theorem Inv.safe (h : Inv s g) : Safe s where
  mutex m := by
    have hheld := h.held m
    have hle := Bool.toNat_le (s.held m)
    omega
  executed j k q a b ha hb :=
    h.exec.unique hb ha (mem_singleton.2 rfl) (mem_singleton.2 rfl)
  queued := h.queue
  once q Q Q' hQ hQ' := Place.on.inj (((h.mem Q q).1 hQ).symm.trans ((h.mem Q' q).1 hQ'))
  saved k p new ht := by
    have hplace := h.hand_eq ht (x := new) mem_cons_self
    have hexec : g.exec new = none := h.sure k _ ht new (mem_singleton.2 rfl)
    have hoff := (h.exec_none hexec (h.lt_of_place (by rw [hplace]; exact nofun))).2
    rw [hplace] at hoff
    refine ⟨hoff.2.2, fun j a hj => ?_⟩
    rw [h.exec.owns hj (mem_singleton.2 rfl)] at hexec
    cases hexec
  found := h.found
  woken := h.woken
  messages q := by
    rw [h.msgs]
    cases g.place q with
    | message => exact le_rfl
    | _ => exact Nat.zero_le _
  kept q hq hnone := h.kept hq hnone
  counts := h.counts

end Safety

/-- Every state is safe that any number of cprocs on any number of kernel threads reach. -/
theorem cprocRuns_safe [DecidableEq M] [DecidableEq C] (es : List (Event M C)) :
    Safe (System.run es) :=
  let ⟨_, h⟩ := Inv.run es
  h.safe

end MachKernel.Cthreads
