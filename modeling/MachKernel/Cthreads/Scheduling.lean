import MachKernel.Cthreads.Cprocs

/-! That the scheduling of cprocs is safe and loses no wakeup. -/

namespace MachKernel.Cthreads

open Threads Function List Option

variable {M C : Type}

/-! What a place in the code means. -/

/-- What a kernel thread does with a cproc that it has taken off a queue or made: it makes it
runnable, switches to it, has it as a place to wait, is making it. -/
inductive Hand
  | waker
  | next
  | spare
  | child
  deriving DecidableEq

/-- How a cproc stands that a kernel thread executes. -/
inductive Phase (M C : Type)
  | free
  -- in `cthread_yield`, and so not wired
  | unwired
  -- in `condition_wait`, before it is on the queue
  | cond
  -- on a queue, which the thread has locked
  | queued (q : Queue M C)
  -- in `condition_wait`, after it was put on the queue
  | waiting
  -- at the start of `cproc_block`; from there a wired cproc receives its message, and another has
  -- itself locked until `CPROC_SWITCHING` is set
  | parked
  | receiving
  | asleep
  | blocking
  -- about to be switched from
  | yielding
  | leaving
  | idleLeaving
  | saved
  deriving DecidableEq

structure Info (M C : Type) where
  locks : List (Lock M C) := []
  hand : List (Hand × ℕ) := []
  -- those in its hand that no kernel thread executes
  sure : List ℕ := []
  phase : Phase M C := .free
  -- the mutex on whose queue is nothing but the cproc
  alone : List M := []
  -- the mutex that the cproc has locked, and that whose `held` the thread has set to wake another
  owns : List M := []
  unlocks : List M := []
  -- a wakeup message is counted that is to be sent, or not counted that was received
  sent : ℤ := 0
  -- a cproc is off the ready queue and still counted in `ready_count`
  short : ℤ := 0
  -- the thread is counted in `wait_count`
  idle : ℤ := 0

def Ret.hand : Ret M → List (Hand × ℕ)
  | .rest l => l.map (Prod.mk .waker)
  | _ => []

def Ret.info (r : Ret M) : Info M C :=
  { hand := r.hand, phase := match r with | .wait _ => .waiting | _ => .free }

def Pc.info (p : ℕ) : Pc M C → Info M C
  | .user | .fallen | .lock _ | .solid _ | .relock _ => {}
  | .solidHead m | .solidTry m false | .solidLeave m | .solidEnq m =>
    { locks := [.queue (.mutex m)] }
  | .solidTry m true | .solidDeq m =>
    { locks := [.queue (.mutex m)], phase := .queued (.mutex m), alone := [m] }
  | .solidSelf m => { locks := [.queue (.mutex m)], phase := .queued (.mutex m) }
  | .solidBlock m => { locks := [.cproc p, .queue (.mutex m)], phase := .queued (.mutex m) }
  | .unlock m r => { r.info with owns := [m] }
  | .unlockHead _ r | .unlockTry _ r => r.info
  | .unlockSolid m r => { r.info with unlocks := [m] }
  | .unlockDeq m r => { r.info with unlocks := [m], locks := [.queue (.mutex m)] }
  | .unlockHeld m new r =>
    { r.info with
      unlocks := [m]
      locks := [.queue (.mutex m)]
      hand := new.toList.map (Prod.mk .waker) ++ r.hand }
  | .unlockLeave m new r =>
    { r.info with
      locks := [.queue (.mutex m)]
      hand := new.toList.map (Prod.mk .waker) ++ r.hand }
  | .ready q preq r | .readyLock q preq r =>
    { r.info with hand := (if preq then .next else .waker, q) :: r.hand }
  | .readySend q r => { r.info with hand := (.waker, q) :: r.hand }
  | .readyTest q preq r =>
    { r.info with
      locks := [.cproc q]
      hand := (if preq then .next else .waker, q) :: r.hand }
  | .readyCatch q r =>
    { r.info with locks := [.cproc q], hand := (.waker, q) :: r.hand }
  | .readyCaught q r => { r.info with locks := [.cproc q] }
  | .readyMiss q preq r =>
    { r.info with
      locks := [.cproc q]
      hand := (if preq then .next else .waker, q) :: r.hand
      sure := [q] }
  | .readyQueue q preq r =>
    { r.info with hand := (if preq then .next else .waker, q) :: r.hand, sure := [q] }
  | .readyEnq q preq r =>
    { r.info with
      locks := [.queue .ready]
      hand := (if preq then .next else .waker, q) :: r.hand
      sure := [q] }
  | .readySelf r | .readyCount r | .readyLeave r => { r.info with locks := [.queue .ready] }
  | .readyWake r => { r.info with locks := [.queue .ready], sent := 1 }
  | .wakeup r => { r.info with sent := 1 }
  | .block _ => { locks := [.cproc p], phase := .parked }
  | .blockWired _ => { locks := [.cproc p], phase := .receiving }
  | .receive _ => { phase := .receiving }
  | .blockState _ => { locks := [.cproc p], phase := .asleep }
  | .blockLeave _ => { locks := [.cproc p], phase := .blocking }
  | .blockReady _ => { phase := .blocking }
  | .blockDeq _ => { locks := [.queue .ready], phase := .blocking }
  | .blockNew new _ => { locks := [.queue .ready], hand := [(.next, new)], phase := .blocking }
  | .blockSelf new _ => { hand := [(.next, new)], phase := .blocking }
  | .blockTest new _ => { locks := [.cproc p], hand := [(.next, new)], phase := .blocking }
  | .blockSaved new _ => { locks := [.cproc p], hand := [(.next, new)] }
  | .blocked new _ => { locks := [.cproc p], hand := [(.next, new)], phase := .asleep }
  | .idle _ => { locks := [.queue .ready], phase := .blocking, idle := 1 }
  | .waiter _ => { phase := .blocking, idle := 1 }
  | .waiterDeq _ => { locks := [.queue .waiters], phase := .blocking, idle := 1 }
  | .waiterLeave w _ =>
    { locks := [.queue .waiters]
      hand := w.toList.map (Prod.mk .spare)
      phase := .blocking
      idle := 1 }
  | .waiterAlloc _ => { phase := .blocking, idle := 1 }
  | .idleSelf w _ => { hand := [(.spare, w)], phase := .blocking, idle := 1 }
  | .idleTest w _ =>
    { locks := [.cproc p], hand := [(.spare, w)], phase := .blocking, idle := 1 }
  | .idleSaved w _ => { locks := [.cproc p], hand := [(.spare, w)], idle := 1 }
  | .idleReady w _ => { hand := [(.spare, w)], idle := 1 }
  | .idleCount w _ => { locks := [.queue .ready], hand := [(.spare, w)], idle := 1 }
  | .idleCounted w _ => { locks := [.queue .ready], hand := [(.spare, w)] }
  | .idleBack w _ => { hand := [(.spare, w)] }
  | .idlePreq w _ => { locks := [.queue .waiters], hand := [(.spare, w)] }
  | .idleDone _ => { locks := [.queue .waiters] }
  | .idleBlocked w _ => { locks := [.cproc p], hand := [(.spare, w)], phase := .asleep, idle := 1 }
  | .idleWaiter w _ => { locks := [.cproc p], hand := [(.spare, w)], phase := .leaving, idle := 1 }
  | .idleWaited w _ =>
    { locks := [.cproc w, .cproc p]
      hand := [(.spare, w)]
      sure := [w]
      phase := .leaving
      idle := 1 }
  | .startWait w _ =>
    { locks := [.cproc p], hand := [(.spare, w)], sure := [w], phase := .leaving, idle := 1 }
  | .startWaitOn w =>
    { locks := [.cproc p], hand := [(.spare, w)], sure := [w], phase := .saved, idle := 1 }
  | .resume new _ => { locks := [.cproc p], hand := [(.next, new)], phase := .leaving }
  | .resumeState new _ | .resumeLeave new _ =>
    { locks := [.cproc new, .cproc p], hand := [(.next, new)], sure := [new], phase := .leaving }
  | .waitingSwitch new =>
    { locks := [.cproc p], hand := [(.next, new)], sure := [new], phase := .idleLeaving }
  | .switch new _ =>
    { locks := [.cproc p], hand := [(.next, new)], sure := [new], phase := .leaving }
  | .switchTo new =>
    { locks := [.cproc p], hand := [(.next, new)], sure := [new], phase := .saved }
  | .switched old _ => { locks := [.cproc old] }
  | .startedWait old => { locks := [.cproc old], idle := 1 }
  | .waiting => { idle := 1 }
  | .waitingReady => { sent := 1, idle := 1 }
  | .waitingDeq => { locks := [.queue .ready], sent := 1, idle := 1 }
  | .waitingNone => { locks := [.queue .ready], idle := 1 }
  | .waitingNew new => { locks := [.queue .ready], hand := [(.next, new)] }
  | .waitingLock new => { hand := [(.next, new)] }
  | .waitingState new | .waitingUnlock new =>
    { locks := [.cproc new], hand := [(.next, new)], sure := [new] }
  | .waitingBack new => { hand := [(.next, new)], sure := [new] }
  | .waitingEnq new => { locks := [.queue .waiters], hand := [(.next, new)], sure := [new] }
  | .waitingSelf new =>
    { locks := [.queue .waiters]
      hand := [(.next, new)]
      sure := [new]
      phase := .queued .waiters }
  | .waitingLeave new =>
    { locks := [.cproc p, .queue .waiters]
      hand := [(.next, new)]
      sure := [new]
      phase := .queued .waiters }
  | .condState _ m => { owns := [m] }
  | .condLock _ m => { phase := .cond, owns := [m] }
  | .condEnq c m => { locks := [.queue (.cond c)], phase := .cond, owns := [m] }
  | .condLeave c m => { locks := [.queue (.cond c)], phase := .queued (.cond c), owns := [m] }
  | .condSelf _ => { phase := .waiting }
  | .condTest _ => { locks := [.cproc p], phase := .waiting }
  | .condCaught _ | .condDone _ => { locks := [.cproc p] }
  | .signal _ | .broadcast _ | .yield => {}
  | .signalDeq c => { locks := [.queue (.cond c)] }
  | .signalLeave c new =>
    { locks := [.queue (.cond c)], hand := new.toList.map (Prod.mk .waker) }
  | .broadcastDeq c l | .broadcastLeave c l =>
    { locks := [.queue (.cond c)], hand := l.map (Prod.mk .waker) }
  | .yieldReady => { phase := .unwired }
  | .yieldDeq => { locks := [.queue .ready], phase := .unwired }
  | .yieldNone => { locks := [.queue .ready] }
  | .yieldEnq new =>
    { locks := [.queue .ready], hand := [(.next, new)], phase := .unwired, short := 1 }
  | .yieldSelf new => { locks := [.queue .ready], hand := [(.next, new)], phase := .yielding }
  | .yieldState new =>
    { locks := [.cproc p, .queue .ready], hand := [(.next, new)], phase := .yielding }
  | .yieldLeave new =>
    { locks := [.cproc p, .queue .ready], hand := [(.next, new)], phase := .leaving }
  | .create => {}
  | .createTest child | .createCounted child | .createFull child =>
    { locks := [.kern], hand := [(.child, child)], sure := [child] }
  | .createKern child | .createThread child | .createState child | .createPrepare child =>
    { hand := [(.child, child)], sure := [child] }

/-- What a thread has found out about the cproc that it makes runnable. -/
def Pc.Knows (cproc : ℕ → Cproc M) : Pc M C → Prop
  | .readySend q _ => (cproc q).wired = true
  | .readyLock q _ _ | .readyTest q _ _ => (cproc q).wired = false
  | .readyCatch q _ => (cproc q).wired = false ∧ (cproc q).state.switching = true
  | _ => True

/-! Where a cproc can be. -/

inductive Place (M C : Type)
  -- executed, and not to be woken
  | free
  | on (q : Queue M C)
  | hand (h : Hand) (k : ℕ)
  -- it is wired, and its message was sent
  | message
  deriving DecidableEq

/-- The kernel thread that has a cproc in its hand. -/
def Place.holder (h : Hand) : Place M C → Option ℕ
  | .hand h' k => if h' = h then some k else none
  | _ => none

/-- How often a cproc was taken off a queue and not made runnable yet. -/
def Place.owed : Place M C → ℕ
  | .hand .waker _ => 1
  | _ => 0

def Place.msgs : Place M C → ℕ
  | .message => 1
  | _ => 0

/-- On the queue of a mutex or a condition, or taken off it. -/
def Place.asleep : Place M C → Prop
  | .on (.mutex _) | .on (.cond _) | .hand .waker _ => True
  | _ => False

/-- What holds of a cproc that no thread executes. -/
def Off (x : Cproc M) : Place M C → Prop
  | .on .waiters | .hand .spare _ => True
  | .hand .child _ => x.wired = false ∧ x.state.switching = false
  | .on (.mutex _) | .on (.cond _) | .on .ready | .hand .waker _ | .hand .next _ =>
    x.wired = false ∧ x.state.switching = false ∧ x.context ≠ none
  | .free | .message => False

def Phase.Ok (x : Cproc M) (place : Place M C) : Phase M C → Prop
  | .free => place = .free
  | .unwired => place = .free ∧ x.wired = false
  | .cond => place = .free ∧ x.state.switching = true
  | .queued q => place = .on q ∧ ∀ c, q = .cond c → x.state.switching = true
  | .waiting =>
    if x.wired then x.state.switching = true ∧ (place.asleep ∨ place = .message)
    else if x.state.switching then place.asleep
    else place = .free
  | .parked => place.asleep ∨ x.wired = true ∧ place = .message
  | .receiving => x.wired = true ∧ (place.asleep ∨ place = .message)
  | .asleep => x.wired = false ∧ place.asleep
  | .blocking => x.wired = false ∧
    (x.state = cprocSwitching ∧ place.asleep ∨ x.state = cprocRunning ∧ place = .free)
  | .yielding => x.wired = false ∧ place = .on .ready
  | .leaving => x.wired = false ∧ x.state.switching = false ∧
    (place.asleep ∨ place = .on .ready ∨ ∃ k, place = .hand .next k)
  | .idleLeaving => place = .on .waiters ∨ ∃ k, place = .hand .spare k
  | .saved => Off x place

def Fate (x : Cproc M) (place : Place M C) : Option (Phase M C) → Prop
  | some ph => ph.Ok x place
  | none => Off x place

/-- The kernel thread that executes each cproc, where each cproc is, and the thread that unlocks
each mutex to wake another. -/
structure Ghost (M C : Type) where
  exec : ℕ → Option ℕ
  place : ℕ → Place M C
  unlocker : M → Option ℕ

/-- How a cproc stands, if a kernel thread executes it. -/
def phaseOf (s : System M C) (g : Ghost M C) (q : ℕ) : Option (Phase M C) :=
  (g.exec q).bind fun k => (s.thread k).map fun t => (t.2.info t.1).phase

/-- The invariant of all runs. -/
structure Inv (s : System M C) (g : Ghost M C) : Prop where
  found : s.lost = false
  exec : Owned g.exec s.thread fun t => [t.1]
  locks : Owned s.lock s.thread fun t => (t.2.info t.1).locks
  hand : Owned (fun x : Hand × ℕ => (g.place x.2).holder x.1) s.thread fun t => (t.2.info t.1).hand
  handNodup : ∀ k t, s.thread k = some t → (t.2.info t.1).hand.Nodup
  unlocker : Owned g.unlocker s.thread fun t => (t.2.info t.1).unlocks
  queue : ∀ q, (s.queue q).Nodup
  mem : ∀ q x, x ∈ s.queue q ↔ g.place x = .on q
  low : ∀ k t, s.thread k = some t → t.1 < s.fresh ∧ k < s.nextThread
  unborn : ∀ q, s.fresh ≤ q → g.place q = .free
  fate : ∀ q, q < s.fresh → Fate (s.cproc q) (g.place q) (phaseOf s g q)
  sure : ∀ k t, s.thread k = some t → ∀ q ∈ (t.2.info t.1).sure, g.exec q = none
  knows : ∀ k t, s.thread k = some t → t.2.Knows s.cproc
  alone : ∀ k t, s.thread k = some t → ∀ m ∈ (t.2.info t.1).alone, s.queue (.mutex m) = [t.1]
  owns : ∀ k t, s.thread k = some t → ∀ m ∈ (t.2.info t.1).owns, t.1 ∈ s.owners m
  held : ∀ m, (s.owners m).length + (g.unlocker m).toList.length = (s.held m).toNat
  msgs : ∀ q, (s.cproc q).msgs = (g.place q).msgs
  taken : ∀ q, s.taken q = s.woken q + (g.place q).owed
  readyCount : s.readyCount = (s.queue .ready).length - s.wakeups -
    total (fun t => (t.2.info t.1).sent - (t.2.info t.1).short) s.thread s.nextThread
  waitCount : s.waitCount = total (fun t => (t.2.info t.1).idle) s.thread s.nextThread -
    s.wakeups - total (fun t => (t.2.info t.1).sent) s.thread s.nextThread

/-! What places in the code have in common. -/

section Info
variable {p : ℕ} {a : Pc M C}

@[simp] theorem Cont.pc_info (b : Cont M) : (b.pc : Pc M C).info p = {} := by
  cases b <;> rfl

@[simp] theorem Ret.pc_info (r : Ret M) : (r.pc : Pc M C).info p = r.info := by
  match r with
  | .to b => exact b.pc_info
  | .rest [] => rfl
  | .rest (_ :: _) => rfl
  | .wait _ => rfl

@[simp] theorem Ret.then_info (r : Ret M) (new : Option ℕ) : (r.then new : Pc M C).info p =
    { r.info with hand := new.toList.map (Prod.mk .waker) ++ r.hand } := by
  cases new with
  | none => exact r.pc_info
  | some q => rfl

theorem Cont.pc_knows (b : Cont M) (cproc : ℕ → Cproc M) : (b.pc : Pc M C).Knows cproc := by
  cases b <;> trivial

theorem Ret.pc_knows (r : Ret M) (cproc : ℕ → Cproc M) : (r.pc : Pc M C).Knows cproc := by
  match r with
  | .to b => exact b.pc_knows cproc
  | .rest [] => trivial
  | .rest (_ :: _) => trivial
  | .wait _ => trivial

theorem Ret.then_knows (r : Ret M) (new : Option ℕ) (cproc : ℕ → Cproc M) :
    (r.then new : Pc M C).Knows cproc := by
  cases new with
  | none => exact r.pc_knows cproc
  | some q => trivial

/-- The lock that keeps others from the cproc that the thread executes. -/
def Phase.lock (p : ℕ) : Phase M C → Option (Lock M C)
  | .queued q => some (.queue q)
  | .yielding => some (.queue .ready)
  | .parked | .asleep | .leaving | .idleLeaving | .saved => some (.cproc p)
  | _ => none

theorem Ret.phase_lock (r : Ret M) : (r.info : Info M C).phase.lock p = none := by
  cases r <;> rfl

theorem Pc.phase_locked (a : Pc M C) : ∀ l ∈ (a.info p).phase.lock p, l ∈ (a.info p).locks := by
  cases a with
  | solidTry m queued => cases queued <;> simp [Pc.info, Phase.lock]
  | unlock | unlockHead | unlockTry | unlockSolid | unlockDeq | unlockHeld | unlockLeave | ready
  | readySend | readyLock | readyTest | readyCatch | readyCaught | readyMiss | readyQueue | readyEnq
  | readySelf | readyCount | readyLeave | readyWake | wakeup => simp [Pc.info, Ret.phase_lock]
  | _ => simp [Pc.info, Phase.lock]

end Info

section Step
variable {s s' : System M C} {g g' : Ghost M C} {k p q : ℕ} {a a' : Pc M C}

theorem Inv.phase (h : Inv s g) (ht : s.thread k = some (p, a)) :
    phaseOf s g p = some (a.info p).phase := by
  have hexec : g.exec p = some k := h.exec.owns ht (mem_singleton.2 rfl)
  unfold phaseOf
  rw [hexec, bind_some, ht]
  rfl

variable {ph : Phase M C} {sure : List ℕ} {b : Pc M C} {cproc cproc' : ℕ → Cproc M} {c y : Cproc M}
  {x j : ℕ} {f : Cproc M → Cproc M} {o : Option (Phase M C)} {r : Ret M}

theorem phase_eq (h : Inv s g) (hph : phaseOf s g q = some ph) :
    ∃ j b, s.thread j = some (q, b) ∧ (b.info q).phase = ph := by
  unfold phaseOf at hph
  cases hexec : g.exec q with
  | none => rw [hexec] at hph; cases hph
  | some j =>
    obtain ⟨⟨r, b⟩, hb, hmem⟩ := (h.exec q j).1 hexec
    obtain rfl : q = r := mem_singleton.1 hmem
    rw [hexec, bind_some, Option.mem_def.1 hb] at hph
    exact ⟨j, b, hb, some.inj hph⟩

theorem phase_none (h : Inv s g) : phaseOf s g q = none ↔ g.exec q = none := by
  constructor
  · intro hph
    cases hexec : g.exec q with
    | none => rfl
    | some j =>
      obtain ⟨⟨r, b⟩, hb, hmem⟩ := (h.exec q j).1 hexec
      obtain rfl : q = r := mem_singleton.1 hmem
      rw [h.phase hb] at hph
      cases hph
  · intro hexec
    unfold phaseOf
    rw [hexec]
    rfl

theorem Inv.excluded (h : Inv s g) (ht : s.thread k = some (p, a)) {l : Lock M C}
    (hl : l ∈ (a.info p).locks) (hph : phaseOf s g q = some ph)
    (hlock : ph.lock q = some l) : q = p ∧ ph = (a.info p).phase := by
  obtain ⟨j, b, hb, rfl⟩ := phase_eq h hph
  have hmem := b.phase_locked (p := q) l hlock
  obtain rfl := h.locks.unique ht hb hl hmem
  cases ht.symm.trans hb
  exact ⟨rfl, rfl⟩

/-- A kernel thread goes on in the code of the cproc that it executes. -/
theorem Inv.advance (h : Inv s g) (ht : s.thread k = some (p, a))
    (hthread : s'.thread = update s.thread k (some (p, a')))
    (hsame : s'.lost = s.lost ∧ s.fresh ≤ s'.fresh ∧ s'.nextThread = s.nextThread)
    (hexec : g'.exec = g.exec)
    (hlocks : Owned s'.lock s'.thread fun t => (t.2.info t.1).locks)
    (hhand : Owned (fun x : Hand × ℕ => (g'.place x.2).holder x.1) s'.thread fun t =>
      (t.2.info t.1).hand)
    (hnodup : (a'.info p).hand.Nodup)
    (hunlocker : Owned g'.unlocker s'.thread fun t => (t.2.info t.1).unlocks)
    (hqueue : ∀ q, (s'.queue q).Nodup)
    (hmem : ∀ q x, x ∈ s'.queue q ↔ g'.place x = .on q)
    (hunborn : ∀ q, s'.fresh ≤ q → g'.place q = .free)
    (hfate : ∀ q, q < s'.fresh → Fate (s'.cproc q) (g'.place q)
      (if q = p then some (a'.info p).phase else phaseOf s g q))
    (hsure : ∀ q ∈ (a'.info p).sure, g.exec q = none)
    (hknows : a'.Knows s'.cproc)
    (halone : ∀ m ∈ (a'.info p).alone, s'.queue (.mutex m) = [p])
    (hothers : ∀ j t, j ≠ k → s.thread j = some t → t.2.Knows s'.cproc ∧
      (∀ m ∈ (t.2.info t.1).alone, s'.queue (.mutex m) = [t.1]) ∧
      ∀ m ∈ (t.2.info t.1).owns, t.1 ∈ s'.owners m)
    (howns : ∀ m ∈ (a'.info p).owns, p ∈ s'.owners m)
    (hheld : ∀ m, (s'.owners m).length + (g'.unlocker m).toList.length = (s'.held m).toNat)
    (hmsgs : ∀ q, (s'.cproc q).msgs = (g'.place q).msgs)
    (htaken : ∀ q, s'.taken q = s'.woken q + (g'.place q).owed)
    (hready : s'.readyCount + s'.wakeups + (a'.info p).sent - (a'.info p).short -
        (s'.queue .ready).length =
      s.readyCount + s.wakeups + (a.info p).sent - (a.info p).short - (s.queue .ready).length)
    (hwait : s'.waitCount + s'.wakeups + (a'.info p).sent - (a'.info p).idle =
      s.waitCount + s.wakeups + (a.info p).sent - (a.info p).idle) : Inv s' g' := by
  obtain ⟨hlost, hfresh, hnext⟩ := hsame
  have hk : ∀ {j t}, s'.thread j = some t → j = k ∧ t = (p, a') ∨ j ≠ k ∧ s.thread j = some t := by
    intro j t hj
    rw [hthread, update_apply] at hj
    split at hj
    · next hjk => exact .inl ⟨hjk, (some.inj hj).symm⟩
    · next hjk => exact .inr ⟨hjk, hj⟩
  have hph : ∀ q, phaseOf s' g' q = if q = p then some (a'.info p).phase else phaseOf s g q := by
    intro q
    unfold phaseOf
    rw [hexec, hthread]
    split
    · next hq =>
      rw [hq, h.exec.owns ht (mem_singleton.2 rfl), bind_some, update_self]
      rfl
    · next hq =>
      cases hj : g.exec q with
      | none => rfl
      | some j =>
        have hjk : j ≠ k := by
          rintro rfl
          exact hq (mem_singleton.1 (h.exec.mem ht hj))
        rw [bind_some, bind_some, update_of_ne hjk]
  have hbound := h.low k _ ht
  refine
    { found := hlost.trans h.found, locks := hlocks, hand := hhand, unlocker := hunlocker
      queue := hqueue, mem := hmem, held := hheld, msgs := hmsgs, taken := htaken
      exec := ?_, handNodup := fun j t hj => ?_, low := fun j t hj => ?_
      unborn := hunborn, fate := fun q hq => ?_, sure := fun j t hj => ?_
      knows := fun j t hj => ?_, alone := fun j t hj => ?_, owns := fun j t hj => ?_
      readyCount := ?_, waitCount := ?_ }
  · rw [hexec, hthread]
    exact h.exec.same ht fun _ => Iff.rfl
  · rcases hk hj with ⟨rfl, rfl⟩ | ⟨-, hj⟩
    · exact hnodup
    · exact h.handNodup j t hj
  · rw [hnext]
    rcases hk hj with ⟨rfl, rfl⟩ | ⟨-, hj⟩
    · exact ⟨hbound.1.trans_le hfresh, hbound.2⟩
    · exact ⟨(h.low j t hj).1.trans_le hfresh, (h.low j t hj).2⟩
  · rw [hph]
    exact hfate q hq
  · rw [hexec]
    rcases hk hj with ⟨rfl, rfl⟩ | ⟨-, hj⟩
    · exact hsure
    · exact h.sure j t hj
  · rcases hk hj with ⟨rfl, rfl⟩ | ⟨hjk, hj⟩
    · exact hknows
    · exact (hothers j t hjk hj).1
  · rcases hk hj with ⟨rfl, rfl⟩ | ⟨hjk, hj⟩
    · exact halone
    · exact (hothers j t hjk hj).2.1
  · rcases hk hj with ⟨rfl, rfl⟩ | ⟨hjk, hj⟩
    · exact howns
    · exact (hothers j t hjk hj).2.2
  · have hcount := h.readyCount
    rw [hnext, hthread, total_update hbound.2 ht]
    dsimp only
    omega
  · have hcount := h.waitCount
    rw [hnext, hthread, total_update hbound.2 ht, total_update hbound.2 ht]
    dsimp only
    omega

/-- A step that changes no cproc, queue or mutex. -/
theorem Inv.quiet (h : Inv s g) (ht : s.thread k = some (p, a)) {lock : Lock M C → Option ℕ}
    {readyCount waitCount : ℤ} {wakeups kernelThreads : ℕ}
    (hlocks : Owned lock (update s.thread k (some (p, a'))) fun t =>
      (t.2.info t.1).locks)
    (hhand : (a'.info p).hand = (a.info p).hand)
    (hunlocks : (a'.info p).unlocks = (a.info p).unlocks)
    (hphase : Fate (s.cproc p) (g.place p) (some (a'.info p).phase))
    (hsure : ∀ q ∈ (a'.info p).sure, g.exec q = none)
    (hknows : a'.Knows s.cproc)
    (halone : ∀ m ∈ (a'.info p).alone, s.queue (.mutex m) = [p])
    (howns : ∀ m ∈ (a'.info p).owns, p ∈ s.owners m)
    (hready : readyCount + wakeups + (a'.info p).sent - (a'.info p).short =
      s.readyCount + s.wakeups + (a.info p).sent - (a.info p).short)
    (hwait : waitCount + wakeups + (a'.info p).sent - (a'.info p).idle =
      s.waitCount + s.wakeups + (a.info p).sent - (a.info p).idle) :
    Inv { s with
      lock, readyCount, waitCount, wakeups, kernelThreads
      thread := update s.thread k (some (p, a')) } g := by
  refine h.advance ht rfl ⟨rfl, le_rfl, rfl⟩ rfl hlocks ?_ ?_ ?_ h.queue h.mem h.unborn
    (fun q hq => ?_) hsure hknows halone
    (fun j t _ hj => ⟨h.knows j t hj, h.alone j t hj, h.owns j t hj⟩) howns h.held
    h.msgs h.taken (congrArg (· - ((s.queue .ready).length : ℤ)) hready) hwait
  · exact h.hand.same ht fun x => by rw [hhand]
  · rw [hhand]
    exact h.handNodup k _ ht
  · exact h.unlocker.same ht fun x => by rw [hunlocks]
  · split
    · next hqp => rwa [hqp]
    · exact h.fate q hq

theorem Inv.self (h : Inv s g) (ht : s.thread k = some (p, a)) :
    (a.info p).phase.Ok (s.cproc p) (g.place p) := by
  have hfate := h.fate p (h.low k _ ht).1
  rwa [h.phase ht] at hfate

theorem Inv.go (h : Inv s g) (ht : s.thread k = some (p, a))
    {alone : List M} (hinfo : a'.info p = { a.info p with phase := ph, sure, alone })
    (hphase : ph.Ok (s.cproc p) (g.place p)) (hsure : ∀ q ∈ sure, g.exec q = none)
    (halone : ∀ m ∈ alone, m ∈ (a.info p).alone) (hknows : a'.Knows s.cproc) :
    Inv (s.go k p a') g :=
  h.quiet ht (h.locks.same ht fun l => by rw [hinfo]) (by rw [hinfo]) (by rw [hinfo])
    (by rw [hinfo]; exact hphase) (by rw [hinfo]; exact hsure) hknows
    (by rw [hinfo]; exact fun m hm => h.alone k _ ht m (halone m hm))
    (by rw [hinfo]; exact h.owns k _ ht) (by rw [hinfo]) (by rw [hinfo])

theorem Inv.pass (h : Inv s g) (ht : s.thread k = some (p, a)) (hinfo : a'.info p = a.info p)
    (hknows : a'.Knows s.cproc) : Inv (s.go k p a') g :=
  h.go ht hinfo (h.self ht) (h.sure k _ ht) (fun _ hm => hm) hknows

section Locks
variable [DecidableEq M] [DecidableEq C] {l : Lock M C}

theorem Inv.lockWith (h : Inv s g) (ht : s.thread k = some (p, a)) {sure : List ℕ}
    (hinfo : a'.info p = { a.info p with locks := l :: (a.info p).locks, sure })
    (hsure : s.lock l = none → ∀ q ∈ sure, g.exec q = none) (hknows : a'.Knows s.cproc) :
    Inv (s.spinLock k p l a') g := by
  unfold System.spinLock
  split
  · next hfree =>
    refine h.quiet ht (h.locks.acquire ht hfree fun x => ?_) (by rw [hinfo]) (by rw [hinfo])
      (by rw [hinfo]; exact h.self ht) (by rw [hinfo]; exact hsure hfree) hknows
      (by rw [hinfo]; exact h.alone k _ ht) (by rw [hinfo]; exact h.owns k _ ht)
      (by rw [hinfo]) (by rw [hinfo])
    rw [hinfo]
    exact mem_cons
  · exact h

theorem Inv.spinLock (h : Inv s g) (ht : s.thread k = some (p, a))
    (hinfo : a'.info p = { a.info p with locks := l :: (a.info p).locks })
    (hknows : a'.Knows s.cproc) : Inv (s.spinLock k p l a') g :=
  h.lockWith ht hinfo (fun _ => h.sure k _ ht) hknows

theorem Inv.unlockWith (h : Inv s g) (ht : s.thread k = some (p, a)) {locks : List (Lock M C)}
    {ph : Phase M C} (hinfo : a'.info p = { a.info p with locks, phase := ph })
    (hl : l ∈ (a.info p).locks) (hlocks : ∀ x, x ∈ locks ↔ x ≠ l ∧ x ∈ (a.info p).locks)
    (hphase : ph.Ok (s.cproc p) (g.place p)) (hknows : a'.Knows s.cproc) :
    Inv (s.spinUnlock k p l a') g := by
  refine h.quiet ht (h.locks.release ht hl fun x => ?_) (by rw [hinfo]) (by rw [hinfo])
    (by rw [hinfo]; exact hphase) (by rw [hinfo]; exact h.sure k _ ht) hknows
    (by rw [hinfo]; exact h.alone k _ ht) (by rw [hinfo]; exact h.owns k _ ht) (by rw [hinfo])
    (by rw [hinfo])
  rw [hinfo]
  exact hlocks x

theorem Inv.spinUnlock (h : Inv s g) (ht : s.thread k = some (p, a))
    (hinfo : a'.info p = { a.info p with locks := [] }) (hl : (a.info p).locks = [l])
    (hknows : a'.Knows s.cproc) : Inv (s.spinUnlock k p l a') g :=
  h.unlockWith ht hinfo (by rw [hl]; exact mem_singleton.2 rfl)
    (fun x => by rw [hl, mem_singleton]; exact iff_of_false nofun fun hx => hx.1 hx.2)
    (h.self ht) hknows

end Locks

/-! Mutexes. -/

section Mutex
variable [DecidableEq M] {m : M}

section
omit [DecidableEq M]

/-- A step that changes who has a mutex. -/
theorem Inv.mutex (h : Inv s g) (ht : s.thread k = some (p, a)) {held : M → Bool}
    {owners : M → List ℕ} {unlocker : M → Option ℕ} (unlocks owns : List M)
    (hinfo : a'.info p = { a.info p with unlocks, owns })
    (hunlocker : Owned unlocker (update s.thread k (some (p, a'))) fun t =>
      (t.2.info t.1).unlocks)
    (howns : ∀ m ∈ owns, p ∈ owners m)
    (hothers : ∀ j t, j ≠ k → s.thread j = some t → ∀ m ∈ (t.2.info t.1).owns, t.1 ∈ owners m)
    (hheld : ∀ m, (owners m).length + (unlocker m).toList.length = (held m).toNat)
    (hknows : a'.Knows s.cproc) :
    Inv { s with held, owners, thread := update s.thread k (some (p, a')) }
      { g with unlocker } := by
  refine h.advance ht rfl ⟨rfl, le_rfl, rfl⟩ rfl (h.locks.same ht fun x => by rw [hinfo])
    (h.hand.same ht fun x => by rw [hinfo]) (by rw [hinfo]; exact h.handNodup k _ ht) hunlocker
    h.queue h.mem h.unborn (fun q hq => ?_) (by rw [hinfo]; exact h.sure k _ ht) hknows
    (by rw [hinfo]; exact h.alone k _ ht)
    (fun j t hj hjt => ⟨h.knows j t hjt, h.alone j t hjt, hothers j t hj hjt⟩)
    (by rw [hinfo]; exact howns) hheld h.msgs h.taken (by rw [hinfo]) (by rw [hinfo])
  rw [hinfo]
  split
  · next hqp => rw [hqp]; exact h.self ht
  · exact h.fate q hq

theorem Inv.unowned (h : Inv s g) (hm : s.held m = false) :
    s.owners m = [] ∧ g.unlocker m = none := by
  have hheld := h.held m
  rw [hm, Bool.toNat_false, Nat.add_eq_zero_iff] at hheld
  exact ⟨length_eq_zero_iff.1 hheld.1, Option.toList_eq_nil_iff.1 (length_eq_zero_iff.1 hheld.2)⟩

theorem Inv.owner (h : Inv s g) (hp : p ∈ s.owners m) : s.owners m = [p] ∧ g.unlocker m = none := by
  have hheld := h.held m
  have hlen := length_pos_of_mem hp
  have hle := Bool.toNat_le (s.held m)
  obtain ⟨x, hx⟩ := length_eq_one_iff.1 (by omega : (s.owners m).length = 1)
  rw [hx, length_singleton] at hheld
  rw [hx, mem_singleton] at hp
  rw [hx, ← hp]
  exact ⟨rfl, Option.toList_eq_nil_iff.1 (length_eq_zero_iff.1 (by omega))⟩

end

theorem Inv.hold (h : Inv s g) (ht : s.thread k = some (p, a)) (hm : s.held m = false)
    (hinfo : a'.info p = a.info p) (hknows : a'.Knows s.cproc) :
    Inv ((s.hold p m).go k p a') g := by
  obtain ⟨hown, hun⟩ := h.unowned hm
  have hsub : ∀ {x n}, x ∈ s.owners n → x ∈ update s.owners m (p :: s.owners m) n := by
    intro x n hx
    rw [update_apply]
    split
    · next hn => exact mem_cons_of_mem _ (hn ▸ hx)
    · exact hx
  refine h.mutex ht _ _ hinfo (h.unlocker.same ht fun x => by rw [hinfo])
    (fun n hn => hsub (h.owns k _ ht n hn)) (fun j t _ hjt n hn => hsub (h.owns j t hjt n hn))
    (fun n => ?_) hknows
  dsimp only [System.hold]
  by_cases hn : n = m
  · rw [hn, update_self, update_self, hown, hun]
    rfl
  · rw [update_of_ne hn, update_of_ne hn]
    exact h.held n

variable {r : Ret M}

theorem Inv.unlock (h : Inv s g) (ht : s.thread k = some (p, .unlock m r)) :
    Inv ({ s with
      held := update s.held m false
      owners := update s.owners m ((s.owners m).erase p) }.go k p (.unlockHead m r)) g := by
  have hp : p ∈ s.owners m := h.owns k _ ht m (mem_singleton.2 rfl)
  obtain ⟨hown, hun⟩ := h.owner hp
  refine h.mutex ht [] [] rfl (h.unlocker.same ht fun _ => Iff.rfl) nofun
    (fun j t hj hjt n hn => ?_) (fun n => ?_) trivial
  · have hmem := h.owns j t hjt n hn
    dsimp only
    rw [update_apply]
    split
    · next hnm =>
      rw [hnm, hown, mem_singleton] at hmem
      exact (hj (h.exec.unique ht hjt (mem_singleton.2 rfl) (mem_singleton.2 hmem.symm))).elim
    · exact hmem
  · dsimp only
    by_cases hn : n = m
    · rw [hn, update_self, update_self, hown, hun, erase_cons_head]
      rfl
    · rw [update_of_ne hn, update_of_ne hn]
      exact h.held n

theorem Inv.unlockTry (h : Inv s g) (ht : s.thread k = some (p, .unlockTry m r))
    (hm : s.held m = false) :
    Inv ({ s with held := update s.held m true }.go k p (.unlockSolid m r))
      { g with unlocker := update g.unlocker m (some k) } := by
  obtain ⟨hown, hun⟩ := h.unowned hm
  refine h.mutex ht [m] [] rfl (h.unlocker.acquire ht hun fun x => ?_) nofun
    (fun j t _ hjt => h.owns j t hjt) (fun n => ?_) trivial
  · exact mem_cons
  · dsimp only
    by_cases hn : n = m
    · rw [hn, update_self, update_self, hown]
      rfl
    · rw [update_of_ne hn, update_of_ne hn]
      exact h.held n

theorem Inv.unlockHeld (h : Inv s g) {new : Option ℕ}
    (ht : s.thread k = some (p, .unlockHeld m new r)) :
    Inv ({ s with held := update s.held m false }.go k p (.unlockLeave m new r))
      { g with unlocker := update g.unlocker m none } := by
  have hun : g.unlocker m = some k := h.unlocker.owns ht (mem_singleton.2 rfl)
  refine h.mutex ht [] [] rfl
    (h.unlocker.release ht (mem_singleton.2 rfl) fun x => ?_) nofun
    (fun j t _ hjt => h.owns j t hjt) (fun n => ?_) trivial
  · exact iff_of_false nofun fun hx => hx.1 (mem_singleton.1 hx.2)
  · dsimp only
    by_cases hn : n = m
    · have hheld := h.held m
      have hle := Bool.toNat_le (s.held m)
      rw [hun, Option.toList_some, length_singleton] at hheld
      rw [hn, update_self, update_self, length_eq_zero_iff.1 (by omega : (s.owners m).length = 0)]
      rfl
    · rw [update_of_ne hn, update_of_ne hn]
      exact h.held n

end Mutex

/-! The cprocs in the hands of the threads. -/

section Hand
variable {x : ℕ} {pl : Place M C} {hd : Hand} {place : ℕ → Place M C}

theorem holder_leave (hx : place x = .hand hd k) (hpl : ∀ i, pl.holder i = none) :
    (fun y : Hand × ℕ => (update place x pl y.2).holder y.1) =
      update (fun y => (place y.2).holder y.1) (hd, x) none := by
  funext y
  rw [update_apply, update_apply]
  by_cases hy : y.2 = x
  · rw [if_pos hy, hpl]
    split
    · rfl
    · next hne =>
      rw [hy, hx]
      exact (if_neg fun heq => hne (Prod.ext heq.symm hy)).symm
  · rw [if_neg hy, if_neg fun heq => hy (congrArg Prod.snd heq)]

theorem holder_enter (hx : ∀ i, (place x).holder i = none) :
    (fun y : Hand × ℕ => (update place x (.hand hd k) y.2).holder y.1) =
      update (fun y => (place y.2).holder y.1) (hd, x) (some k) := by
  funext y
  rw [update_apply, update_apply]
  by_cases hy : y.2 = x
  · rw [if_pos hy]
    split
    · next heq => rw [heq]; exact if_pos rfl
    · next hne =>
      rw [hy, hx]
      exact if_neg fun heq => hne (Prod.ext heq.symm hy)
  · rw [if_neg hy, if_neg fun heq => hy (congrArg Prod.snd heq)]

theorem holder_same (hx : ∀ i, (place x).holder i = none) (hpl : ∀ i, pl.holder i = none) :
    (fun y : Hand × ℕ => (update place x pl y.2).holder y.1) = fun y => (place y.2).holder y.1 := by
  funext y
  rw [update_apply]
  split
  · next hy => rw [hy, hx, hpl]
  · rfl

theorem Inv.hand_eq (h : Inv s g) (ht : s.thread k = some (p, a)) (hx : (hd, x) ∈ (a.info p).hand) :
    g.place x = .hand hd k := by
  have howner := h.hand.owns ht hx
  dsimp only at howner
  cases hpl : g.place x with
  | hand i j =>
    rw [hpl] at howner
    unfold Place.holder at howner
    dsimp only at howner
    split at howner
    · next hi => rw [hi, some.inj howner]
    · cases howner
  | _ => rw [hpl] at howner; cases howner

theorem Inv.lt_of_place (h : Inv s g) (hx : g.place x ≠ .free) : x < s.fresh :=
  not_le.1 fun hle => hx (h.unborn x hle)

end Hand

theorem mem_iff_of_nodup_cons {α : Type*} {x : α} {l : List α} (h : (x :: l).Nodup) (y : α) :
    y ∈ l ↔ y ≠ x ∧ y ∈ x :: l := by
  have hx := (nodup_cons.1 h).1
  constructor
  · exact fun hy => ⟨fun heq => hx (heq ▸ hy), mem_cons_of_mem _ hy⟩
  · exact fun hy => (mem_cons.1 hy.2).resolve_left hy.1

/-! One cproc. -/

theorem Pc.Knows.congr (hb : b.Knows cproc) (hwired : ∀ q, (cproc' q).wired = (cproc q).wired)
    (hcatch : ∀ q r, b = .readyCatch q r → (cproc' q).state.switching = (cproc q).state.switching) :
    b.Knows cproc' := by
  cases b with
  | readyCatch q r => exact ⟨(hwired q).trans hb.1, (hcatch q r rfl).trans hb.2⟩
  | readySend q r => exact (hwired q).trans hb
  | readyLock q _ r => exact (hwired q).trans hb
  | readyTest q _ r => exact (hwired q).trans hb
  | _ => trivial

theorem Pc.Knows.of_hand (hb : b.Knows cproc)
    (hsame : ∀ i q, (i, q) ∈ (b.info p).hand → cproc' q = cproc q) : b.Knows cproc' := by
  cases b with
  | readyCatch q r | readySend q r | readyLock q _ r | readyTest q _ r =>
    unfold Pc.Knows at hb ⊢
    dsimp only at hb ⊢
    rw [hsame _ q mem_cons_self]
    exact hb
  | _ => trivial

theorem Inv.record (h : Inv s g) (ht : s.thread k = some (p, a))
    {pl : Place M C} {taken woken : ℕ → ℕ} {hand : List (Hand × ℕ)}
    {locks : List (Lock M C)}
    (hinfo : a'.info p = { a.info p with phase := ph, hand, sure, locks })
    (hlocks : locks = (a.info p).locks) (hx : x < s.fresh)
    (hhand : Owned (fun y : Hand × ℕ => (update g.place x pl y.2).holder y.1)
      (update s.thread k (some (p, a'))) fun t => (t.2.info t.1).hand)
    (hnodup : hand.Nodup) (hon : ∀ q, g.place x = .on q ↔ pl = .on q)
    (hfate : Fate c pl (if x = p then some ph else phaseOf s g x))
    (hself : x ≠ p → ph.Ok (s.cproc p) (g.place p))
    (hsure : ∀ q ∈ sure, g.exec q = none)
    (hwired : c.wired = (s.cproc x).wired)
    (hcatch : ∀ j q r, j ≠ k → s.thread j = some (q, .readyCatch x r) →
      c.state.switching = (s.cproc x).state.switching)
    (hknows : a'.Knows (update s.cproc x c)) (hmsgs : c.msgs = pl.msgs)
    (htaken : taken x = woken x + pl.owed)
    (hrest : ∀ q, q ≠ x → taken q = s.taken q ∧ woken q = s.woken q) :
    Inv { s with
      cproc := update s.cproc x c
      taken, woken
      thread := update s.thread k (some (p, a')) }
      { g with place := update g.place x pl } := by
  refine h.advance ht rfl ⟨rfl, le_rfl, rfl⟩ rfl
    (h.locks.same ht fun l => by rw [hinfo, hlocks]) hhand (by rw [hinfo]; exact hnodup)
      (h.unlocker.same ht fun l => by rw [hinfo]) h.queue
    (fun q y => ?_) (fun q hq => ?_) (fun q hq => ?_) (by rw [hinfo]; exact hsure) hknows
    (by rw [hinfo]; exact h.alone k _ ht)
    (fun j t hj hjt => ⟨?_, h.alone j t hjt, h.owns j t hjt⟩) (by rw [hinfo]; exact h.owns k _ ht)
    h.held (fun q => ?_) (fun q => ?_) (by rw [hinfo]) (by rw [hinfo])
  · dsimp only
    rw [update_apply, h.mem]
    split
    · next hy => rw [hy]; exact hon q
    · rfl
  · dsimp only at hq ⊢
    rw [update_of_ne (by omega)]
    exact h.unborn q hq
  · dsimp only
    rw [hinfo]
    by_cases hqx : q = x
    · rw [hqx, update_self, update_self]
      exact hfate
    · rw [update_of_ne hqx, update_of_ne hqx]
      split
      · next hqp => rw [hqp]; exact hself fun hxp => hqx (hqp.trans hxp.symm)
      · exact h.fate q hq
  · refine (h.knows j t hjt).congr (fun q => ?_) fun q r hb => ?_
    · dsimp only
      rw [update_apply]
      split
      · next hqx => rw [hqx]; exact hwired
      · rfl
    · dsimp only
      rw [update_apply]
      split
      · next hqx =>
        obtain ⟨y, b⟩ := t
        dsimp only at hb
        rw [hqx] at hb ⊢
        exact hcatch j y r hj (hb ▸ hjt)
      · rfl
  · dsimp only
    rw [update_apply, update_apply]
    split
    · exact hmsgs
    · exact h.msgs q
  · dsimp only
    rw [update_apply]
    split
    · next hqx => rw [hqx]; exact htaken
    · next hqx =>
      rw [(hrest q hqx).1, (hrest q hqx).2]
      exact h.taken q

theorem Inv.catch_locked (h : Inv s g) (ht : s.thread k = some (p, a))
    (hl : .cproc x ∈ (a.info p).locks) {P : Prop} (j q : ℕ) (r : Ret M) (hj : j ≠ k)
    (hjt : s.thread j = some (q, .readyCatch x r)) : P :=
  (hj (h.locks.unique ht hjt hl (mem_singleton.2 rfl))).elim

theorem Inv.catch_place (h : Inv s g)
    (hx : ∀ j, j ≠ k → g.place x ≠ .hand .waker j) {P : Prop} (j q : ℕ) (r : Ret M) (hj : j ≠ k)
    (hjt : s.thread j = some (q, .readyCatch x r)) : P :=
  (hx j hj (h.hand_eq hjt mem_cons_self)).elim

theorem Inv.modify (h : Inv s g) (ht : s.thread k = some (p, a))
    (hinfo : a'.info p = { a.info p with phase := ph }) (hx : x < s.fresh)
    (hfate : Fate (f (s.cproc x)) (g.place x) (if x = p then some ph else phaseOf s g x))
    (hself : x ≠ p → ph = (a.info p).phase)
    (hf : ∀ c, (f c).wired = c.wired ∧ (f c).msgs = c.msgs)
    (hcatch : ∀ j q r, j ≠ k → s.thread j = some (q, .readyCatch x r) →
      (f (s.cproc x)).state.switching = (s.cproc x).state.switching)
    (hknows : ∀ cproc, a'.Knows cproc) : Inv ((s.modify x f).go k p a') g := by
  have hnew : Inv { s with
      cproc := update s.cproc x (f (s.cproc x))
      thread := update s.thread k (some (p, a')) }
      { g with place := update g.place x (g.place x) } := by
    refine h.record ht hinfo rfl hx ?_ (h.handNodup k _ ht) (fun _ => Iff.rfl) hfate
      (fun hne => hself hne ▸ h.self ht) (h.sure k _ ht) (hf _).1 hcatch (hknows _)
      ((hf _).2.trans (h.msgs x)) (h.taken x) fun _ _ => ⟨rfl, rfl⟩
    rw [update_eq_self]
    exact h.hand.same ht fun y => by rw [hinfo]
  rwa [update_eq_self] at hnew

theorem Inv.modifySelf (h : Inv s g) (ht : s.thread k = some (p, a))
    (hinfo : a'.info p = { a.info p with phase := ph })
    (hphase : ph.Ok (f (s.cproc p)) (g.place p))
    (hf : ∀ c, (f c).wired = c.wired ∧ (f c).msgs = c.msgs)
    (hcatch : ∀ j q r, j ≠ k → s.thread j = some (q, .readyCatch p r) →
      (f (s.cproc p)).state.switching = (s.cproc p).state.switching)
    (hknows : ∀ cproc, a'.Knows cproc) : Inv ((s.modify p f).go k p a') g :=
  h.modify ht hinfo (h.low k _ ht).1 (by rw [if_pos rfl]; exact hphase)
    (fun hne => (hne rfl).elim) hf hcatch hknows

theorem Inv.exec_none (h : Inv s g) (hx : g.exec x = none) (hfresh : x < s.fresh) :
    phaseOf s g x = none ∧ Off (s.cproc x) (g.place x) := by
  have hphase : phaseOf s g x = none := (phase_none h).2 hx
  have hfate := h.fate x hfresh
  rw [hphase] at hfate
  exact ⟨hphase, hfate⟩

theorem Inv.stateSure (h : Inv s g) (ht : s.thread k = some (p, a)) {hd : Hand}
    (hinfo : a'.info p = a.info p) (hhand : (hd, x) ∈ (a.info p).hand)
    (hsure : x ∈ (a.info p).sure) (st : State) (hst : st.switching = false)
    (hknows : ∀ cproc, a'.Knows cproc) : Inv ((s.setState x st).go k p a') g := by
  have hplace := h.hand_eq ht hhand
  have hx : x < s.fresh := h.lt_of_place (by rw [hplace]; exact nofun)
  have hexec := h.sure k _ ht x hsure
  obtain ⟨hphase, hoff⟩ := h.exec_none hexec hx
  have hne : x ≠ p := by
    rintro rfl
    rw [h.exec.owns ht (mem_singleton.2 rfl)] at hexec
    cases hexec
  refine h.modify ht hinfo hx ?_ (fun _ => rfl) (fun _ => ⟨rfl, rfl⟩) (h.catch_place fun j hj => ?_)
    hknows
  · rw [if_neg hne, hphase]
    rw [hplace] at hoff ⊢
    cases hd with
    | spare => trivial
    | waker => exact ⟨hoff.1, hst, hoff.2.2⟩
    | next => exact ⟨hoff.1, hst, hoff.2.2⟩
    | child => exact ⟨hoff.1, hst⟩
  · rw [hplace]
    exact fun heq => hj (Place.hand.inj heq).2.symm

theorem Inv.fate_if (h : Inv s g) (ht : s.thread k = some (p, a)) (hx : x < s.fresh) :
    Fate (s.cproc x) (g.place x) (if x = p then some (a.info p).phase else phaseOf s g x) := by
  split
  · next hxp => rw [hxp]; exact h.self ht
  · exact h.fate x hx

theorem Fate.sent {x : Cproc M} {n : ℕ}
    (hfate : Fate x (.hand .waker j) o) (hwired : x.wired = true) :
    Fate { x with msgs := n } .message o := by
  have hoff : ¬ x.wired = false := by rw [hwired]; exact nofun
  cases o with
  | none => exact (hoff hfate.1).elim
  | some ph =>
    cases ph with
    | waiting =>
      unfold Fate Phase.Ok at hfate ⊢
      dsimp only at hfate ⊢
      rw [if_pos hwired] at hfate ⊢
      exact ⟨hfate.1, .inr rfl⟩
    | parked => exact .inr ⟨hwired, rfl⟩
    | receiving => exact ⟨hwired, .inr rfl⟩
    | asleep => exact (hoff hfate.1).elim
    | blocking => exact (hoff hfate.1).elim
    | leaving => exact (hoff hfate.1).elim
    | saved => exact (hoff hfate.1).elim
    | idleLeaving => exact hfate.elim nofun nofun
    | free => cases hfate
    | unwired => cases hfate.1
    | cond => cases hfate.1
    | queued => cases hfate.1
    | yielding => cases hfate.2

theorem Inv.readySend (h : Inv s g) {q : ℕ}
    (ht : s.thread k = some (p, .readySend q r)) :
    Inv (((s.modify q fun c => { c with msgs := c.msgs + 1 }).wake q).go k p r.pc)
      { g with place := update g.place q .message } := by
  have hplace := h.hand_eq ht (x := q) mem_cons_self
  have hq : q < s.fresh := h.lt_of_place (by rw [hplace]; exact nofun)
  have hwired : (s.cproc q).wired = true := h.knows k _ ht
  have hinfo : (r.pc : Pc M C).info p =
      { (Pc.readySend q r : Pc M C).info p with hand := r.hand } :=
    r.pc_info
  have hnodup := h.handNodup k _ ht
  have hmsgs := h.msgs q
  have htaken := h.taken q
  rw [hplace] at hmsgs htaken
  refine h.record ht hinfo rfl hq ?_ (nodup_cons.1 hnodup).2 (fun Q => ?_) ?_
    (fun _ => h.self ht) nofun rfl (h.catch_place fun j hj => ?_) (r.pc_knows _) ?_ ?_
    fun y hy => ⟨rfl, update_of_ne hy ..⟩
  · rw [holder_leave hplace fun _ => rfl]
    refine h.hand.release ht mem_cons_self fun y => ?_
    rw [hinfo]
    exact mem_iff_of_nodup_cons hnodup y
  · rw [hplace]
    exact iff_of_false nofun nofun
  · have hfate := h.fate_if ht hq
    rw [hplace] at hfate
    exact hfate.sent hwired
  · rw [hplace]
    exact fun heq => hj (Place.hand.inj heq).2.symm
  · dsimp only
    rw [hmsgs]
    rfl
  · dsimp only [System.wake, System.modify]
    rw [update_self, htaken]
    rfl

theorem Fate.caught {x : Cproc M} {q : ℕ}
    (hfate : Fate x (.hand .waker j) o) (hwired : x.wired = false)
    (hswitching : x.state.switching = true)
    (hlock : ∀ ph : Phase M C, o = some ph → ph.lock q ≠ some (.cproc q)) :
    Fate { x with state := { x.state with switching := false } } .free o := by
  have hoff : ¬ x.state.switching = false := by rw [hswitching]; exact nofun
  cases o with
  | none => exact (hoff hfate.2.1).elim
  | some ph =>
    cases ph with
    | waiting =>
      unfold Fate Phase.Ok
      dsimp only
      rw [if_neg (by rw [hwired]; exact Bool.false_ne_true), if_neg Bool.false_ne_true]
    | blocking =>
      refine ⟨hwired, .inr ⟨?_, rfl⟩⟩
      rcases hfate.2 with ⟨hstate, -⟩ | ⟨-, hfree⟩
      · dsimp only
        rw [hstate]
        rfl
      · cases hfree
    | receiving => exact absurd hfate.1 (by rw [hwired]; exact Bool.false_ne_true)
    | parked | asleep | leaving | saved | idleLeaving => exact (hlock _ rfl rfl).elim
    | free => cases hfate
    | unwired => cases hfate.1
    | cond => cases hfate.1
    | queued => cases hfate.1
    | yielding => cases hfate.2

theorem Inv.readyCatch (h : Inv s g) {q : ℕ}
    (ht : s.thread k = some (p, .readyCatch q r)) :
    Inv (((s.setState q { (s.cproc q).state with switching := false }).wake q).go k p
      (.readyCaught q r)) { g with place := update g.place q .free } := by
  have hplace := h.hand_eq ht (x := q) mem_cons_self
  have hq : q < s.fresh := h.lt_of_place (by rw [hplace]; exact nofun)
  obtain ⟨hwired, hswitching⟩ : (s.cproc q).wired = false ∧ (s.cproc q).state.switching = true :=
    h.knows k _ ht
  have hnodup := h.handNodup k _ ht
  have hmsgs := h.msgs q
  have htaken := h.taken q
  rw [hplace] at hmsgs htaken
  have hlock : .cproc q ∈ ((Pc.readyCatch q r : Pc M C).info p).locks := mem_singleton.2 rfl
  refine h.record ht rfl rfl hq ?_ (nodup_cons.1 hnodup).2 (fun Q => ?_) ?_
    (fun _ => h.self ht) nofun rfl (h.catch_locked ht hlock) trivial hmsgs ?_
    fun y hy => ⟨rfl, update_of_ne hy ..⟩
  · rw [holder_leave hplace fun _ => rfl]
    exact h.hand.release ht mem_cons_self (mem_iff_of_nodup_cons hnodup)
  · rw [hplace]
    exact iff_of_false nofun nofun
  · have hfate := h.fate_if ht hq
    rw [hplace] at hfate
    refine hfate.caught (q := q) hwired hswitching fun ph hph hl => ?_
    split at hph
    · cases hph
      rw [r.phase_lock] at hl
      cases hl
    · next hne => exact hne (h.excluded ht hlock hph hl).1
  · dsimp only [System.wake, System.setState, System.modify]
    rw [update_self, htaken]
    rfl

theorem Inv.receive (h : Inv s g) {b : Cont M} (ht : s.thread k = some (p, .receive b))
    (hpos : 0 < (s.cproc p).msgs) :
    Inv ((s.modify p fun c => { c with msgs := c.msgs - 1 }).go k p b.pc)
      { g with place := update g.place p .free } := by
  have hplace : g.place p = .message := by
    rw [h.msgs] at hpos
    cases hpl : g.place p with
    | message => rfl
    | _ => rw [hpl] at hpos; cases hpos
  have hinfo : (b.pc : Pc M C).info p =
      { (Pc.receive b : Pc M C).info p with phase := .free } := b.pc_info
  have hmsgs := h.msgs p
  have htaken := h.taken p
  rw [hplace] at hmsgs htaken
  refine h.record ht hinfo rfl (h.low k _ ht).1 ?_ nodup_nil (fun Q => ?_) ?_
    (fun hne => (hne rfl).elim) nofun rfl (h.catch_place fun j hj => ?_) (b.pc_knows _) ?_ htaken
    fun _ _ => ⟨rfl, rfl⟩
  · rw [holder_same (fun i => by rw [hplace]; rfl) fun _ => rfl]
    exact h.hand.same ht fun y => by rw [hinfo]
  · rw [hplace]
    exact iff_of_false nofun nofun
  · rw [if_pos rfl]
    rfl
  · rw [hplace]
    exact nofun
  · dsimp only
    rw [hmsgs]
    rfl

theorem Inv.createPrepare (h : Inv s g) (ht : s.thread k = some (p, .createPrepare x)) :
    Inv (((s.modify x fun c => { c with context := some .user }).take x).go k p
      (.ready x false (.to .user)))
      { g with place := update g.place x (.hand .waker k) } := by
  have hplace := h.hand_eq ht (x := x) mem_cons_self
  have hx : x < s.fresh := h.lt_of_place (by rw [hplace]; exact nofun)
  have hexec : g.exec x = none := h.sure k _ ht x (mem_singleton.2 rfl)
  obtain ⟨hphase, hoff⟩ := h.exec_none hexec hx
  have hne : x ≠ p := by
    rintro rfl
    rw [h.exec.owns ht (mem_singleton.2 rfl)] at hexec
    cases hexec
  have hmsgs := h.msgs x
  have htaken := h.taken x
  rw [hplace] at hmsgs htaken hoff
  refine h.record ht rfl rfl hx ?_ (nodup_singleton _) (fun Q => ?_) ?_ (fun _ => h.self ht)
    nofun rfl (h.catch_place fun j hj => ?_) trivial hmsgs ?_
    fun y hy => ⟨update_of_ne hy .., rfl⟩
  · have hleft : Owned (fun y : Hand × ℕ => (update g.place x .free y.2).holder y.1)
        (update s.thread k (some (p, .create))) fun t => (t.2.info t.1).hand := by
      rw [holder_leave hplace fun _ => rfl]
      exact h.hand.release ht mem_cons_self fun y => iff_of_false nofun
        fun hy => hy.1 (mem_singleton.1 hy.2)
    have hfree : ∀ i, ((update g.place x .free) x).holder i = none := fun i => by
      rw [update_self]
      rfl
    have hright : Owned _ (update (update s.thread k (some (p, .create))) k
        (some (p, .ready x false (.to .user)))) fun t => (t.2.info t.1).hand :=
      hleft.acquire (l := (Hand.waker, x)) (update_self ..) (hfree .waker) fun y => mem_cons
    rw [← holder_enter hfree, update_idem, update_idem] at hright
    exact hright
  · rw [hplace]
    exact iff_of_false nofun nofun
  · rw [if_neg hne, hphase]
    exact ⟨hoff.1, hoff.2, nofun⟩
  · rw [hplace]
    exact nofun
  · dsimp only [System.take, System.modify]
    rw [update_self, htaken]
    rfl

/-! Queues. -/

section Queues
variable [DecidableEq M] [DecidableEq C] {Q : Queue M C} {x : ℕ} {pl : Place M C}

omit [DecidableEq M] [DecidableEq C] in
theorem Pc.alone_locked (a : Pc M C) :
    ∀ m ∈ (a.info p).alone, .queue (.mutex m) ∈ (a.info p).locks := by
  cases a with
  | solidTry m queued => cases queued <;> simp [Pc.info]
  | _ => simp [Pc.info, Ret.info]

variable {alone : List M} {hand : List (Hand × ℕ)} {l sure : List ℕ} {ph : Phase M C}
  {readyCount waitCount sent short idle : ℤ} {taken woken : ℕ → ℕ} {j : ℕ}
  {o : Option (Phase M C)} {y : Cproc M}

theorem Inv.requeue (h : Inv s g) (ht : s.thread k = some (p, a))
    (hinfo : a'.info p = { a.info p with phase := ph, hand, sure, alone, sent, short, idle })
    (hlock : .queue Q ∈ (a.info p).locks) (hx : x < s.fresh)
    (hhand : Owned (fun y : Hand × ℕ => (update g.place x pl y.2).holder y.1)
      (update s.thread k (some (p, a'))) fun t => (t.2.info t.1).hand)
    (hnodup : hand.Nodup) (hl : l.Nodup)
    (hmem : ∀ y, y ∈ l ↔ if y = x then pl = .on Q else y ∈ s.queue Q)
    (hon : ∀ q, q ≠ Q → g.place x ≠ .on q ∧ pl ≠ .on q)
    (hfate : Fate (s.cproc x) pl (if x = p then some ph else phaseOf s g x))
    (hself : x ≠ p → ph.Ok (s.cproc p) (g.place p))
    (hsure : ∀ q ∈ sure, g.exec q = none) (hknows : a'.Knows s.cproc)
    (halone : ∀ m ∈ alone, Q = .mutex m ∧ l = [p]) (hmsgs : (s.cproc x).msgs = pl.msgs)
    (htaken : taken x = woken x + pl.owed)
    (hrest : ∀ q, q ≠ x → taken q = s.taken q ∧ woken q = s.woken q)
    (hready : readyCount + sent - short - (update s.queue Q l .ready).length =
      s.readyCount + (a.info p).sent - (a.info p).short - (s.queue .ready).length)
    (hwait : waitCount + sent - idle = s.waitCount + (a.info p).sent - (a.info p).idle) :
    Inv { s with
      queue := update s.queue Q l
      taken, woken, readyCount, waitCount
      thread := update s.thread k (some (p, a')) }
      { g with place := update g.place x pl } := by
  have hnew : ∀ m ∈ (a'.info p).alone, update s.queue Q l (.mutex m) = [p] := by
    rw [hinfo]
    intro m hm
    obtain ⟨hQ, hlp⟩ := halone m hm
    rw [← hQ, update_self]
    exact hlp
  refine h.advance ht rfl ⟨rfl, le_rfl, rfl⟩ rfl (h.locks.same ht fun l => by rw [hinfo]) hhand
    (by rw [hinfo]; exact hnodup) (h.unlocker.same ht fun l => by rw [hinfo]) (fun q => ?_)
    (fun q y => ?_) (fun q hq => ?_) (fun q hq => ?_) (by rw [hinfo]; exact hsure) hknows hnew
    (fun j t hj hjt => ⟨h.knows j t hjt, fun m hm => ?_, h.owns j t hjt⟩)
    (by rw [hinfo]; exact h.owns k _ ht) h.held (fun q => ?_) (fun q => ?_) ?_ ?_
  · dsimp only
    rw [update_apply]
    split
    · exact hl
    · exact h.queue q
  · dsimp only
    rw [update_apply, update_apply]
    by_cases hq : q = Q
    · rw [if_pos hq, hmem, hq, h.mem]
      split <;> rfl
    · rw [if_neg hq, h.mem]
      split
      · next hy => rw [hy]; exact iff_of_false (hon q hq).1 (hon q hq).2
      · rfl
  · dsimp only at hq ⊢
    rw [update_of_ne (by omega)]
    exact h.unborn q hq
  · dsimp only
    rw [hinfo]
    by_cases hqx : q = x
    · rw [hqx, update_self]
      exact hfate
    · rw [update_of_ne hqx]
      split
      · next hqp => rw [hqp]; exact hself fun hxp => hqx (hqp.trans hxp.symm)
      · exact h.fate q hq
  · dsimp only
    rw [update_of_ne ?_]
    · exact h.alone j t hjt m hm
    · intro hQ
      have hmem := t.2.alone_locked m hm
      rw [hQ] at hmem
      exact hj (h.locks.unique ht hjt hlock hmem)
  · dsimp only
    rw [update_apply]
    split
    · next hqx => rw [hqx]; exact hmsgs
    · exact h.msgs q
  · dsimp only
    rw [update_apply]
    split
    · next hqx => rw [hqx]; exact htaken
    · next hqx =>
      rw [(hrest q hqx).1, (hrest q hqx).2]
      exact h.taken q
  · rw [hinfo]
    dsimp only
    omega
  · rw [hinfo]
    dsimp only
    omega

theorem Inv.enqSelf (h : Inv s g) (ht : s.thread k = some (p, a))
    (hinfo : a'.info p = { a.info p with phase := ph, alone, short })
    (hlock : .queue Q ∈ (a.info p).locks) (hfree : g.place p = .free)
    (hphase : ph.Ok (s.cproc p) (.on Q)) (hknows : ∀ cproc, a'.Knows cproc)
    (halone : ∀ m ∈ alone, Q = .mutex m ∧ s.queue Q = [])
    (hshort : short + (if Q = .ready then 1 else 0) = (a.info p).short) :
    Inv ((s.enq Q p).go k p a') { g with place := update g.place p (.on Q) } := by
  have hnot : p ∉ s.queue Q := by
    rw [h.mem, hfree]
    exact nofun
  have hmsgs := h.msgs p
  have htaken := h.taken p
  rw [hfree] at hmsgs htaken
  refine h.requeue ht hinfo hlock (h.low k _ ht).1 ?_ (h.handNodup k _ ht) ?_ (fun y => ?_)
    (fun q hq => ⟨by rw [hfree]; exact nofun, fun heq => hq (Place.on.inj heq).symm⟩)
    (by rw [if_pos rfl]; exact hphase) (fun hne => (hne rfl).elim) (h.sure k _ ht) (hknows _)
    (fun m hm => ⟨(halone m hm).1, by rw [(halone m hm).2]; rfl⟩) hmsgs htaken
    (fun _ _ => ⟨rfl, rfl⟩) ?_ rfl
  · rw [holder_same (fun i => by rw [hfree]; rfl) fun _ => rfl]
    exact h.hand.same ht fun y => by rw [hinfo]
  · exact nodup_append.2 ⟨h.queue Q, nodup_singleton p, fun y hy z hz heq =>
      hnot (by rw [← mem_singleton.1 hz, ← heq]; exact hy)⟩
  · rw [mem_append, mem_singleton]
    split
    · next hy => rw [hy]; exact iff_of_true (.inr rfl) rfl
    · next hy => exact or_iff_left hy
  · rw [update_apply]
    dsimp only [System.enq, System.setQueue]
    split at hshort
    · next hQ =>
      rw [if_pos hQ.symm, length_append, length_singleton, hQ]
      omega
    · next hQ =>
      rw [if_neg fun heq => hQ heq.symm]
      omega

theorem Inv.solidDeq (h : Inv s g) {m : M} (ht : s.thread k = some (p, .solidDeq m)) :
    Inv ((s.deq (.mutex m)).go k p (.solidLeave m)) { g with place := update g.place p .free } := by
  have hqueue : s.queue (.mutex m) = [p] := h.alone k _ ht m (mem_singleton.2 rfl)
  have hplace : g.place p = .on (.mutex m) := (h.self ht).1
  have hmsgs := h.msgs p
  have htaken := h.taken p
  rw [hplace] at hmsgs htaken
  have hinfo : (Pc.solidLeave m : Pc M C).info p =
      { (Pc.solidDeq m : Pc M C).info p with phase := .free, alone := [] } := rfl
  have hready : update s.queue (.mutex m) (s.queue (.mutex m)).tail .ready = s.queue .ready := by
    have hne : (Queue.ready : Queue M C) ≠ .mutex m := nofun
    exact update_of_ne hne ..
  refine h.requeue ht hinfo (mem_singleton.2 rfl) (h.low k _ ht).1 ?_ nodup_nil
    (by rw [hqueue]; exact nodup_nil) (fun y => ?_)
    (fun q hq => ⟨by rw [hplace]; exact fun heq => hq (Place.on.inj heq).symm,
      fun heq => nomatch heq⟩)
    (by rw [if_pos rfl]; rfl) (fun hne => (hne rfl).elim) (h.sure k _ ht) trivial
    (fun n hn => nomatch hn) hmsgs htaken (fun _ _ => ⟨rfl, rfl⟩) (by rw [hready]; rfl) rfl
  · rw [holder_same (fun i => by rw [hplace]; rfl) fun _ => rfl]
    exact h.hand.same ht fun _ => Iff.rfl
  · rw [hqueue, mem_singleton]
    split
    · exact iff_of_false nofun nofun
    · next hy => exact iff_of_false nofun hy

section
omit [DecidableEq M] [DecidableEq C]

theorem Fate.takeOff (hfate : Fate y (.on Q) o) (hQ : (Place.on Q).asleep)
    (hlock : ∀ ph : Phase M C, o = some ph → ph.lock x ≠ some (.queue Q)) :
    Fate y (.hand .waker j) o := by
  cases o with
  | none => cases Q <;> first | exact hfate | exact hQ.elim
  | some ph =>
    cases ph with
    | waiting =>
      unfold Fate Phase.Ok at hfate ⊢
      dsimp only at hfate ⊢
      split at hfate
      · next hw => rw [if_pos hw]; exact ⟨hfate.1, .inl trivial⟩
      · next hw =>
        rw [if_neg hw]
        split at hfate
        · next hs => rw [if_pos hs]; trivial
        · cases hfate
    | parked => exact .inl trivial
    | receiving => exact ⟨hfate.1, .inl trivial⟩
    | asleep => exact ⟨hfate.1, trivial⟩
    | blocking => exact ⟨hfate.1, .inl ⟨(hfate.2.resolve_right nofun).1, trivial⟩⟩
    | leaving => exact ⟨hfate.1, hfate.2.1, .inl trivial⟩
    | saved => cases Q <;> first | exact hfate | exact hQ.elim
    | idleLeaving =>
      rcases hfate with hw | ⟨_, hw⟩
      · rw [Place.on.inj hw] at hQ
        exact hQ.elim
      · cases hw
    | queued q =>
      rw [Place.on.inj hfate.1] at hlock
      exact (hlock _ rfl rfl).elim
    | yielding =>
      rw [Place.on.inj hfate.2] at hlock
      exact (hlock _ rfl rfl).elim
    | free => cases hfate
    | unwired => cases hfate.1
    | cond => cases hfate.1

theorem Fate.next (hfate : Fate y (.on .ready) o)
    (hlock : ∀ ph : Phase M C, o = some ph → ph.lock x ≠ some (.queue .ready)) :
    Fate y (.hand .next j) o := by
  cases o with
  | none => exact hfate
  | some ph =>
    cases ph with
    | leaving => exact ⟨hfate.1, hfate.2.1, .inr (.inr ⟨j, rfl⟩)⟩
    | saved => exact hfate
    | queued q =>
      rw [Place.on.inj hfate.1] at hlock
      exact (hlock _ rfl rfl).elim
    | yielding => exact (hlock _ rfl rfl).elim
    | waiting =>
      unfold Fate Phase.Ok at hfate
      dsimp only at hfate
      split at hfate
      · exact (hfate.2.elim id nofun).elim
      · split at hfate
        · exact hfate.elim
        · cases hfate
    | parked => exact (hfate.elim id nofun).elim
    | receiving => exact (hfate.2.elim id nofun).elim
    | asleep => exact hfate.2.elim
    | blocking => exact (hfate.2.elim (fun hw => hw.2) nofun).elim
    | idleLeaving => exact (hfate.elim nofun nofun)
    | free => cases hfate
    | unwired => cases hfate.1
    | cond => cases hfate.1

theorem Fate.of_waiter (hfate : Fate y pl o) (hpl : pl = .on .waiters ∨ ∃ j, pl = .hand .spare j) :
    o = none ∨ o = some .saved ∨ o = some .idleLeaving ∨
      o = some (.queued .waiters) ∧ pl = .on .waiters := by
  have hasleep : ¬ pl.asleep := by rcases hpl with rfl | ⟨j, rfl⟩ <;> exact id
  have hmessage : pl ≠ .message := by rcases hpl with rfl | ⟨j, rfl⟩ <;> exact nofun
  have hfree : pl ≠ .free := by rcases hpl with rfl | ⟨j, rfl⟩ <;> exact nofun
  have hready : pl ≠ .on .ready := by rcases hpl with rfl | ⟨j, rfl⟩ <;> exact nofun
  have hnext : ∀ j, pl ≠ .hand .next j := by rcases hpl with rfl | ⟨j, rfl⟩ <;> exact nofun
  cases o with
  | none => exact .inl rfl
  | some ph =>
    cases ph with
    | saved => exact .inr (.inl rfl)
    | idleLeaving => exact .inr (.inr (.inl rfl))
    | queued q =>
      rcases hpl with rfl | ⟨j, rfl⟩
      · rw [← Place.on.inj hfate.1]
        exact .inr (.inr (.inr ⟨rfl, rfl⟩))
      · cases hfate.1
    | waiting =>
      unfold Fate Phase.Ok at hfate
      dsimp only at hfate
      split at hfate
      · exact (hfate.2.elim hasleep hmessage).elim
      · split at hfate
        · exact (hasleep hfate).elim
        · exact (hfree hfate).elim
    | parked => exact (hfate.elim hasleep fun hw => hmessage hw.2).elim
    | receiving => exact (hfate.2.elim hasleep hmessage).elim
    | asleep => exact (hasleep hfate.2).elim
    | blocking => exact (hfate.2.elim (fun hw => hasleep hw.2) fun hw => hfree hw.2).elim
    | leaving =>
      exact (hfate.2.2.elim hasleep fun hw => hw.elim hready fun ⟨j, hj⟩ => hnext j hj).elim
    | free => exact (hfree hfate).elim
    | unwired => exact (hfree hfate.1).elim
    | cond => exact (hfree hfate.1).elim
    | yielding => exact (hready hfate.2).elim

theorem Fate.spare (hfate : Fate y (.on .waiters) o)
    (hlock : ∀ ph : Phase M C, o = some ph → ph.lock x ≠ some (.queue .waiters)) :
    Fate y (.hand .spare j) o := by
  rcases hfate.of_waiter (.inl rfl) with rfl | rfl | rfl | ⟨rfl, -⟩
  · trivial
  · trivial
  · exact .inr ⟨j, rfl⟩
  · exact (hlock _ rfl rfl).elim

theorem Fate.back {y : Cproc M} {o : Option (Phase M C)} {j : ℕ}
    (hfate : Fate y (.hand .spare j) o) : Fate y (.on .waiters) o := by
  rcases hfate.of_waiter (.inr ⟨j, rfl⟩) with rfl | rfl | rfl | ⟨-, hw⟩
  · trivial
  · trivial
  · exact .inl rfl
  · cases hw

end

/-- A cproc is taken off a queue. -/
theorem Inv.dequeue (h : Inv s g) (ht : s.thread k = some (p, a)) (hd : Hand)
        (hq : s.queue Q = x :: (s.queue Q).tail)
    (hinfo : a'.info p = { a.info p with hand, sent, short, idle })
    (hlock : .queue Q ∈ (a.info p).locks) (hself : (a.info p).phase.lock p ≠ some (.queue Q))
    (hhand : ∀ y, y ∈ hand ↔ y = (hd, x) ∨ y ∈ (a.info p).hand)
    (hnodup : (hd, x) ∉ (a.info p).hand → hand.Nodup)
    (hfate : ∀ o, Fate (s.cproc x) (.on Q) o →
      (∀ ph : Phase M C, o = some ph → ph.lock x ≠ some (.queue Q)) →
      Fate (s.cproc x) (.hand hd k) o)
    (hknows : a'.Knows s.cproc) (halone : (a.info p).alone = [])
    (htaken : taken x = s.taken x + (Place.hand hd k : Place M C).owed)
    (hrest : ∀ q, q ≠ x → taken q = s.taken q)
    (hready : readyCount + sent - short + (if Q = .ready then 1 else 0) =
      s.readyCount + (a.info p).sent - (a.info p).short)
    (hwait : waitCount + sent - idle = s.waitCount + (a.info p).sent - (a.info p).idle) :
    Inv { s with
      queue := update s.queue Q (s.queue Q).tail
      taken, readyCount, waitCount
      thread := update s.thread k (some (p, a')) }
      { g with place := update g.place x (.hand hd k) } := by
  have hplace : g.place x = .on Q := (h.mem Q x).1 (by rw [hq]; exact mem_cons_self)
  have hx : x < s.fresh := h.lt_of_place (by rw [hplace]; exact nofun)
  have hnone : ∀ i, (g.place x).holder i = none := fun i => by rw [hplace]; rfl
  have hout : (hd, x) ∉ (a.info p).hand := fun hmem => by
    rw [h.hand_eq ht hmem] at hplace
    cases hplace
  have hqueue := h.queue Q
  have hmsgs := h.msgs x
  have hsum := h.taken x
  rw [hplace] at hmsgs hsum
  generalize (s.queue Q).tail = rest at hq ⊢
  rw [hq] at hqueue
  refine h.requeue ht hinfo hlock hx ?_ (hnodup hout) (nodup_cons.1 hqueue).2 (fun y => ?_)
    (fun q hqQ => ⟨by rw [hplace]; exact fun heq => hqQ (Place.on.inj heq).symm, nofun⟩) ?_
    (fun _ => h.self ht) (h.sure k _ ht) hknows (by rw [halone]; exact nofun) hmsgs ?_
    (fun q hqx => ⟨hrest q hqx, rfl⟩) ?_ hwait
  · rw [holder_enter hnone]
    exact h.hand.acquire ht (hnone hd) fun y => by rw [hinfo]; exact hhand y
  · rw [hq]
    split
    · next hy =>
      rw [hy]
      exact iff_of_false (nodup_cons.1 hqueue).1 nofun
    · next hy => rw [mem_cons, or_iff_right hy]
  · refine hfate _ (hplace ▸ h.fate_if ht hx) fun ph hph => ?_
    split at hph
    · next hxp =>
      cases hph
      rw [hxp]
      exact hself
    · next hxp => exact fun hl => hxp (h.excluded ht hlock hph hl).1
  · rw [htaken, hsum]
    exact congrArg (· + _) (Nat.add_zero _)
  · rw [update_apply]
    split at hready
    · next hQ =>
      rw [hQ] at hq
      rw [if_pos hQ.symm, hq, length_cons]
      omega
    · next hQ =>
      rw [if_neg fun heq => hQ heq.symm]
      omega

theorem Inv.enqueue (h : Inv s g) (ht : s.thread k = some (p, a)) (hd : Hand)
        (hinfo : a'.info p = { a.info p with hand := (a.info p).hand.tail, sure })
    (hhand : (a.info p).hand = (hd, x) :: (a.info p).hand.tail)
    (hlock : .queue Q ∈ (a.info p).locks) (hl : l.Perm (x :: s.queue Q))
    (hfate : ∀ o, Fate (s.cproc x) (.hand hd k) o → (x ∈ (a.info p).sure → o = none) →
      Fate (s.cproc x) (.on Q) o)
    (hsure : sure = []) (hknows : a'.Knows s.cproc) (halone : (a.info p).alone = [])
    (hwoken : s.woken x + (Place.hand hd k : Place M C).owed = woken x)
    (hrest : ∀ q, q ≠ x → woken q = s.woken q)
    (hready : readyCount = s.readyCount + if Q = .ready then 1 else 0) :
    Inv { s with
      queue := update s.queue Q l
      woken, readyCount
      thread := update s.thread k (some (p, a')) }
      { g with place := update g.place x (.on Q) } := by
  have hmem : (hd, x) ∈ (a.info p).hand := by
    rw [hhand]
    exact mem_cons_self
  have hplace := h.hand_eq ht hmem
  have hx : x < s.fresh := h.lt_of_place (by rw [hplace]; exact nofun)
  have hnodup := h.handNodup k _ ht
  have hmsgs := h.msgs x
  have hsum := h.taken x
  have hnot : x ∉ s.queue Q := by
    rw [h.mem, hplace]
    exact nofun
  rw [hplace] at hmsgs hsum
  dsimp only at hnodup
  rw [hhand] at hnodup
  refine h.requeue ht hinfo hlock hx ?_ (nodup_cons.1 hnodup).2
    (hl.nodup_iff.2 (nodup_cons.2 ⟨hnot, h.queue Q⟩)) (fun y => ?_)
    (fun q hq => ⟨by rw [hplace]; exact nofun, fun heq => hq (Place.on.inj heq).symm⟩) ?_
    (fun _ => h.self ht) (by rw [hsure]; exact nofun) hknows (by rw [halone]; exact nofun) hmsgs ?_
    (fun q hqx => ⟨rfl, hrest q hqx⟩) ?_ rfl
  · rw [holder_leave hplace fun _ => rfl]
    refine h.hand.release ht hmem fun y => ?_
    dsimp only
    rw [hinfo, hhand]
    exact mem_iff_of_nodup_cons hnodup y
  · rw [hl.mem_iff, mem_cons]
    split
    · next hy => exact iff_of_true (.inl hy) rfl
    · next hy => exact or_iff_right hy
  · refine hfate _ (hplace ▸ h.fate_if ht hx) fun hxs => ?_
    have hexec := h.sure k _ ht x hxs
    have hne : x ≠ p := by
      rintro rfl
      rw [h.exec.owns ht (mem_singleton.2 rfl)] at hexec
      cases hexec
    rw [if_neg hne]
    exact (phase_none h).2 hexec
  · rw [hsum, ← hwoken]
    exact (Nat.add_zero _).symm
  · rw [update_apply, hready]
    split
    · next hQ =>
      rw [if_pos hQ.symm, hl.length_eq, length_cons, hQ]
      omega
    · next hQ =>
      rw [if_neg fun heq => hQ heq.symm]
      omega

end Queues

/-! New cprocs and threads, and switches. -/

theorem Pc.sure_hand (a : Pc M C) : ∀ q ∈ (a.info p).sure, ∃ hd, (hd, q) ∈ (a.info p).hand := by
  cases a with
  | solidTry m queued => cases queued <;> simp [Pc.info]
  | _ => simp [Pc.info, Ret.info]

theorem Inv.alloc (h : Inv s g) (ht : s.thread k = some (p, a)) (hd : Hand)
    (hinfo : a'.info p = { a.info p with
      hand := [(hd, s.fresh)]
      sure := if hd = .child then [s.fresh] else [] })
    (hhand : (a.info p).hand = []) (hhd : hd = .spare ∨ hd = .child)
    (hknows : ∀ cproc, a'.Knows cproc) :
    Inv (s.alloc.go k p a') { g with place := update g.place s.fresh (.hand hd k) } := by
  have hplace : g.place s.fresh = .free := h.unborn _ le_rfl
  have hnone : ∀ i, (g.place s.fresh).holder i = none := fun i => by rw [hplace]; rfl
  have hexec : g.exec s.fresh = none := by
    cases hj : g.exec s.fresh with
    | none => rfl
    | some j =>
      obtain ⟨t, hjt, hmem⟩ := (h.exec _ j).1 hj
      have hlow := (h.low j t hjt).1
      rw [mem_singleton.1 hmem] at hlow
      exact absurd hlow (lt_irrefl _)
  have hmsgs := h.msgs s.fresh
  have htaken := h.taken s.fresh
  have hout : ∀ {j t q}, s.thread j = some t → (∃ i, (i, q) ∈ (t.2.info t.1).hand) →
      q ≠ s.fresh := by
    rintro j ⟨r, b⟩ q hjt ⟨i, hi⟩ rfl
    rw [h.hand_eq hjt hi] at hplace
    cases hplace
  rw [hplace] at hmsgs htaken
  refine h.advance ht rfl ⟨rfl, Nat.le_succ _, rfl⟩ rfl (h.locks.same ht fun l => by rw [hinfo])
    ?_ (by rw [hinfo]; exact nodup_singleton _) (h.unlocker.same ht fun l => by rw [hinfo])
    h.queue (fun q y => ?_) (fun q hq => ?_) (fun q hq => ?_) ?_ (hknows _)
    (by rw [hinfo]; exact h.alone k _ ht)
    (fun j t hj hjt => ⟨?_, h.alone j t hjt, h.owns j t hjt⟩)
    (by rw [hinfo]; exact h.owns k _ ht) h.held (fun q => ?_) (fun q => ?_) (by rw [hinfo]; rfl)
    (by rw [hinfo]; rfl)
  · dsimp only
    rw [holder_enter hnone]
    refine h.hand.acquire ht (hnone hd) fun y => ?_
    dsimp only
    rw [hinfo, hhand, mem_singleton]
    exact (or_iff_left nofun).symm
  · dsimp only [System.go, System.alloc]
    rw [update_apply, h.mem]
    split
    · next hy => rw [hy, hplace]; exact iff_of_false nofun nofun
    · rfl
  · dsimp only [System.go, System.alloc] at hq ⊢
    rw [update_of_ne (by omega)]
    exact h.unborn q (by omega)
  · dsimp only [System.go, System.alloc] at hq ⊢
    rw [hinfo]
    by_cases hqf : q = s.fresh
    · have hqp : q ≠ p := by
        rintro rfl
        rw [hqf] at ht
        exact absurd (h.low k _ ht).1 (lt_irrefl _)
      rw [if_neg hqp, hqf, update_self, update_self, (phase_none h).2 hexec]
      rcases hhd with rfl | rfl
      · trivial
      · exact ⟨rfl, rfl⟩
    · rw [update_of_ne hqf, update_of_ne hqf]
      exact h.fate_if ht (by omega)
  · rw [hinfo]
    intro q hq
    dsimp only at hq
    split at hq
    · rw [mem_singleton.1 hq]
      exact hexec
    · cases hq
  · exact (h.knows j t hjt).of_hand fun i q hq =>
      update_of_ne (hout hjt ⟨i, hq⟩) ..
  · dsimp only [System.go, System.alloc]
    rw [update_apply, update_apply]
    split
    · rfl
    · exact h.msgs q
  · dsimp only [System.go, System.alloc]
    rw [update_apply]
    split
    · next hq =>
      rw [hq]
      rcases hhd with rfl | rfl
      · exact htaken
      · exact htaken
    · exact h.taken q

theorem Inv.jump (h : Inv s g) (ht : s.thread k = some (p, a)) (hd : Hand)
    (hinfo : a'.info x = { a.info p with hand := [], sure := [], phase := .free })
    (hphase : (a.info p).phase = .saved) (hhand : (a.info p).hand = [(hd, x)])
    (hsure : x ∈ (a.info p).sure) (halone : (a.info p).alone = []) (howns : (a.info p).owns = [])
    (hc : c.wired = (s.cproc x).wired ∧ c.state = (s.cproc x).state ∧ c.msgs = (s.cproc x).msgs)
    (howed : (Place.hand hd k : Place M C).owed = 0) (hknows : ∀ cproc, a'.Knows cproc) :
    Inv ({ s with cproc := update s.cproc x c }.go k x a')
      { g with
        exec := update (update g.exec p none) x (some k)
        place := update g.place x .free } := by
  have hplace : g.place x = .hand hd k := h.hand_eq ht (by rw [hhand]; exact mem_cons_self)
  have hx : x < s.fresh := h.lt_of_place (by rw [hplace]; exact nofun)
  have hexec := h.sure k _ ht x hsure
  have hp := h.exec.owns ht (mem_singleton.2 rfl)
  have hne : x ≠ p := by
    rintro rfl
    rw [hp] at hexec
    cases hexec
  have hmsgs := h.msgs x
  have htaken := h.taken x
  rw [hplace] at hmsgs htaken
  have hbound := h.low k _ ht
  have hk : ∀ {j t}, (update s.thread k (some (x, a'))) j = some t →
      j = k ∧ t = (x, a') ∨ j ≠ k ∧ s.thread j = some t := by
    intro j t hj
    rw [update_apply] at hj
    split at hj
    · next hjk => exact .inl ⟨hjk, (some.inj hj).symm⟩
    · next hjk => exact .inr ⟨hjk, hj⟩
  have hother : ∀ {j t q}, j ≠ k → s.thread j = some t → q ∈ (t.2.info t.1).sure → q ≠ x := by
    rintro j ⟨r, b⟩ q hj hjt hq rfl
    obtain ⟨i, hi⟩ := b.sure_hand q hq
    rw [h.hand_eq hjt hi] at hplace
    exact hj (Place.hand.inj hplace).2
  refine
    { found := h.found, queue := h.queue, held := h.held
      exec := ?_, locks := h.locks.same ht fun l => by rw [hinfo], hand := ?_
      handNodup := fun j t hj => ?_
      unlocker := h.unlocker.same ht fun l => by rw [hinfo]
      mem := fun q y => ?_, low := fun j t hj => ?_, unborn := fun q hq => ?_
      fate := fun q hq => ?_, sure := fun j t hj q hq => ?_, knows := fun j t hj => ?_
      alone := fun j t hj => ?_, owns := fun j t hj => ?_, msgs := fun q => ?_
      taken := fun q => ?_, readyCount := ?_, waitCount := ?_ }
  · refine h.exec.move (fun q => ?_) fun q j hj => ?_
    · dsimp only
      rw [mem_singleton, update_apply]
      split
      · next hq => exact iff_of_true rfl hq
      · next hq =>
        refine iff_of_false (fun hqk => ?_) hq
        rw [update_apply] at hqk
        split at hqk
        · cases hqk
        · next hqp => exact hqp (mem_singleton.1 (h.exec.mem ht hqk))
    · dsimp only
      rw [update_apply]
      split
      · next hq =>
        rw [hq, hexec]
        exact iff_of_false (fun heq => hj (some.inj heq).symm) nofun
      · rw [update_apply]
        split
        · next hq =>
          rw [hq, hp]
          exact iff_of_false nofun fun heq => hj (some.inj heq).symm
        · rfl
  · dsimp only
    rw [holder_leave hplace fun _ => rfl]
    refine h.hand.release ht (by rw [hhand]; exact mem_cons_self) fun y => ?_
    dsimp only
    rw [hinfo, hhand]
    exact iff_of_false nofun fun hy => hy.1 (mem_singleton.1 hy.2)
  · rcases hk hj with ⟨rfl, rfl⟩ | ⟨-, hj⟩
    · rw [hinfo]
      exact nodup_nil
    · exact h.handNodup j t hj
  · dsimp only [System.go]
    rw [update_apply, h.mem]
    split
    · next hy => rw [hy, hplace]; exact iff_of_false nofun nofun
    · rfl
  · rcases hk hj with ⟨rfl, rfl⟩ | ⟨-, hj⟩
    · exact ⟨hx, hbound.2⟩
    · exact h.low j t hj
  · dsimp only [System.go] at hq ⊢
    rw [update_of_ne (by omega)]
    exact h.unborn q hq
  · unfold phaseOf
    dsimp only [System.go] at hq ⊢
    by_cases hqx : q = x
    · rw [hqx, update_self, update_self, update_self, bind_some, update_self, map_some, hinfo]
      rfl
    · rw [update_of_ne hqx, update_of_ne hqx, update_of_ne hqx]
      by_cases hqp : q = p
      · rw [hqp, update_self]
        have hself := h.self ht
        rwa [hphase] at hself
      · rw [update_of_ne hqp]
        have hfate := h.fate q hq
        unfold phaseOf at hfate
        cases hj : g.exec q with
        | none => rwa [hj] at hfate
        | some j =>
          have hjk : j ≠ k := by
            rintro rfl
            exact hqp (mem_singleton.1 (h.exec.mem ht hj))
          rw [hj] at hfate
          rw [bind_some, update_of_ne hjk]
          exact hfate
  · dsimp only [System.go] at hq ⊢
    rcases hk hj with ⟨rfl, rfl⟩ | ⟨hjk, hj⟩
    · rw [hinfo] at hq
      cases hq
    · rw [update_of_ne (hother hjk hj hq), update_apply]
      split
      · rfl
      · exact h.sure j t hj q hq
  · rcases hk hj with ⟨rfl, rfl⟩ | ⟨-, hj⟩
    · exact hknows _
    · refine (h.knows j t hj).congr (fun q => ?_) fun q r _ => ?_
      all_goals
        dsimp only [System.go]
        rw [update_apply]
        split
        · next hq => rw [hq]; first | exact hc.1 | rw [hc.2.1]
        · rfl
  · rcases hk hj with ⟨rfl, rfl⟩ | ⟨-, hj⟩
    · rw [hinfo, halone]
      exact nofun
    · exact h.alone j t hj
  · rcases hk hj with ⟨rfl, rfl⟩ | ⟨-, hj⟩
    · rw [hinfo, howns]
      exact nofun
    · exact h.owns j t hj
  · dsimp only [System.go]
    rw [update_apply, update_apply]
    split
    · exact hc.2.2.trans hmsgs
    · exact h.msgs q
  · dsimp only [System.go]
    rw [update_apply]
    split
    · next hq =>
      rw [hq, htaken, howed]
      rfl
    · exact h.taken q
  · have hcount := h.readyCount
    dsimp only [System.go]
    rw [total_update hbound.2 ht]
    dsimp only
    rw [hinfo]
    dsimp only
    omega
  · have hcount := h.waitCount
    dsimp only [System.go]
    rw [total_update hbound.2 ht, total_update hbound.2 ht]
    dsimp only
    rw [hinfo]
    dsimp only
    omega

theorem Inv.createThread (h : Inv s g) (ht : s.thread k = some (p, .createThread x)) :
    Inv { s.go k p .user with
        thread := update (s.go k p .user).thread s.nextThread (some (x, .user))
        nextThread := s.nextThread + 1 }
      { g with
        exec := update g.exec x (some s.nextThread)
        place := update g.place x .free } := by
  have hplace : g.place x = .hand .child k := h.hand_eq ht mem_cons_self
  have hx : x < s.fresh := h.lt_of_place (by rw [hplace]; exact nofun)
  have hexec := h.sure k _ ht x mem_cons_self
  have hp := h.exec.owns ht (mem_singleton.2 rfl)
  have hne : x ≠ p := by
    rintro rfl
    rw [hp] at hexec
    cases hexec
  have hbound := h.low k _ ht
  have hnew : s.thread s.nextThread = none := by
    cases hj : s.thread s.nextThread with
    | none => rfl
    | some t => exact absurd (h.low _ t hj).2 (lt_irrefl _)
  have hmsgs := h.msgs x
  have htaken := h.taken x
  rw [hplace] at hmsgs htaken
  have hk : ∀ {j t}, (update (s.go k p .user).thread s.nextThread (some (x, .user))) j =
      some t → t.2 = .user ∧ t.1 < s.fresh ∧ j < s.nextThread + 1 ∨
        j ≠ k ∧ j ≠ s.nextThread ∧ s.thread j = some t := by
    intro j t hj
    rw [update_apply] at hj
    split at hj
    · next hjn =>
      cases hj
      exact .inl ⟨rfl, hx, by rw [hjn]; exact Nat.lt_succ_self _⟩
    · next hjn =>
      dsimp only [System.go] at hj
      rw [update_apply] at hj
      split at hj
      · next hjk =>
        cases hj
        exact .inl ⟨rfl, hbound.1, by rw [hjk]; exact hbound.2.trans (Nat.lt_succ_self _)⟩
      · next hjk => exact .inr ⟨hjk, hjn, hj⟩
  have hother : ∀ {j t q}, j ≠ k → s.thread j = some t → q ∈ (t.2.info t.1).sure → q ≠ x := by
    rintro j ⟨r, b⟩ q hj hjt hq rfl
    obtain ⟨i, hi⟩ := b.sure_hand q hq
    rw [h.hand_eq hjt hi] at hplace
    exact hj (Place.hand.inj hplace).2
  have hkn : s.nextThread ≠ k := hbound.2.ne'
  have hnew' : update s.thread k (some (p, .user)) s.nextThread = none :=
    (update_of_ne hkn ..).trans hnew
  have hexec' : Owned g.exec (update s.thread k (some (p, .user))) fun t => [t.1] :=
    h.exec.same ht fun _ => Iff.rfl
  have hlocks : Owned s.lock (update s.thread k (some (p, .user))) fun t =>
      (t.2.info t.1).locks := h.locks.same ht fun _ => Iff.rfl
  have hunlocker : Owned g.unlocker (update s.thread k (some (p, .user))) fun t =>
      (t.2.info t.1).unlocks := h.unlocker.same ht fun _ => Iff.rfl
  have hhand : Owned (update (fun y : Hand × ℕ => (g.place y.2).holder y.1) (.child, x)
      none) (update s.thread k (some (p, .user))) fun t => (t.2.info t.1).hand :=
    h.hand.release ht mem_cons_self fun y =>
      iff_of_false nofun fun hy => hy.1 (mem_singleton.1 hy.2)
  refine
    { found := h.found, queue := h.queue, held := h.held
      exec := hexec'.startWith hnew' hexec rfl, locks := hlocks.start hnew' rfl
      hand := ?_, handNodup := fun j t hj => ?_
      unlocker := hunlocker.start hnew' rfl
      mem := fun q y => ?_, low := fun j t hj => ?_, unborn := fun q hq => ?_
      fate := fun q hq => ?_, sure := fun j t hj q hq => ?_, knows := fun j t hj => ?_
      alone := fun j t hj => ?_, owns := fun j t hj => ?_, msgs := fun q => ?_
      taken := fun q => ?_, readyCount := ?_, waitCount := ?_ }
  · dsimp only
    rw [holder_leave hplace fun _ => rfl]
    exact hhand.start hnew' rfl
  · rcases hk hj with ⟨ht2, -⟩ | ⟨-, -, hj⟩
    · rw [ht2]
      exact nodup_nil
    · exact h.handNodup j t hj
  · dsimp only [System.go]
    rw [update_apply, h.mem]
    split
    · next hy => rw [hy, hplace]; exact iff_of_false nofun nofun
    · rfl
  · rcases hk hj with ⟨-, hlow⟩ | ⟨-, -, hj⟩
    · exact hlow
    · exact ⟨(h.low j t hj).1, (h.low j t hj).2.trans (Nat.lt_succ_self _)⟩
  · dsimp only [System.go] at hq ⊢
    rw [update_of_ne (by omega)]
    exact h.unborn q hq
  · unfold phaseOf
    dsimp only [System.go] at hq ⊢
    by_cases hqx : q = x
    · rw [hqx, update_self, update_self, bind_some, update_self]
      rfl
    · rw [update_of_ne hqx, update_of_ne hqx]
      have hfate := h.fate q hq
      unfold phaseOf at hfate
      cases hj : g.exec q with
      | none => rwa [hj] at hfate
      | some j =>
        have hjn : j ≠ s.nextThread := by
          rintro rfl
          exact h.exec.none_of_none hnew q hj
        rw [hj] at hfate
        rw [bind_some, update_of_ne hjn]
        by_cases hjk : j = k
        · rw [hjk] at hfate ⊢
          rw [bind_some, ht] at hfate
          rw [update_self]
          exact hfate
        · rw [update_of_ne hjk]
          exact hfate
  · rcases hk hj with ⟨ht2, -⟩ | ⟨hjk, -, hj⟩
    · rw [ht2] at hq
      cases hq
    · dsimp only
      rw [update_of_ne (hother hjk hj hq)]
      exact h.sure j t hj q hq
  · rcases hk hj with ⟨ht2, -⟩ | ⟨-, -, hj⟩
    · rw [ht2]
      trivial
    · exact h.knows j t hj
  · rcases hk hj with ⟨ht2, -⟩ | ⟨-, -, hj⟩
    · rw [ht2]
      exact nofun
    · exact h.alone j t hj
  · rcases hk hj with ⟨ht2, -⟩ | ⟨-, -, hj⟩
    · rw [ht2]
      exact nofun
    · exact h.owns j t hj
  · dsimp only [System.go]
    rw [update_apply]
    split
    · next hq => rw [hq]; exact hmsgs
    · exact h.msgs q
  · dsimp only [System.go]
    rw [update_apply]
    split
    · next hq => rw [hq]; exact htaken
    · exact h.taken q
  · have hcount := h.readyCount
    dsimp only [System.go]
    rw [total_start, total_update hbound.2 ht]
    change s.readyCount = _ - _ - (total _ _ _ - (0 - 0) + (0 - 0) + (0 - 0))
    omega
  · have hcount := h.waitCount
    dsimp only [System.go]
    rw [total_start, total_start, total_update hbound.2 ht, total_update hbound.2 ht]
    change s.waitCount = total _ _ _ - 0 + 0 + 0 - _ - (total _ _ _ - 0 + 0 + 0)
    omega

/-! What a thread finds out about a cproc in its hand. -/

theorem Fate.of_next (hfate : Fate y (.hand .next j) o) : y.wired = false ∧ y.state.switching = false ∧
      (o = none ∨ o = some .leaving ∨ o = some .saved) := by
  cases o with
  | none => exact ⟨hfate.1, hfate.2.1, .inl rfl⟩
  | some ph =>
    cases ph with
    | leaving => exact ⟨hfate.1, hfate.2.1, .inr (.inl rfl)⟩
    | saved => exact ⟨hfate.1, hfate.2.1, .inr (.inr rfl)⟩
    | waiting =>
      unfold Fate Phase.Ok at hfate
      dsimp only at hfate
      split at hfate
      · exact (hfate.2.elim id nofun).elim
      · split at hfate
        · exact hfate.elim
        · cases hfate
    | parked => exact (hfate.elim id nofun).elim
    | receiving => exact (hfate.2.elim id nofun).elim
    | asleep => exact hfate.2.elim
    | blocking => exact (hfate.2.elim (fun hw => hw.2) nofun).elim
    | idleLeaving => exact (hfate.elim nofun nofun)
    | free => cases hfate
    | unwired => cases hfate.1
    | cond => cases hfate.1
    | queued => cases hfate.1
    | yielding => cases hfate.2

theorem Fate.of_woken {q : ℕ} (hfate : Fate y (.hand .waker j) o) (hwired : y.wired = false)
    (hswitching : y.state.switching = false) :
    o = none ∨ ∃ ph : Phase M C, o = some ph ∧ ph.lock q = some (.cproc q) := by
  cases o with
  | none => exact .inl rfl
  | some ph =>
    right
    refine ⟨ph, rfl, ?_⟩
    cases ph with
    | parked | asleep | leaving | idleLeaving | saved => rfl
    | waiting =>
      unfold Fate Phase.Ok at hfate
      dsimp only at hfate
      rw [if_neg (by rw [hwired]; exact Bool.false_ne_true),
        if_neg (by rw [hswitching]; exact Bool.false_ne_true)] at hfate
      cases hfate
    | receiving => exact absurd hfate.1 (by rw [hwired]; exact Bool.false_ne_true)
    | blocking =>
      rcases hfate.2 with ⟨hstate, -⟩ | ⟨-, hw⟩
      · rw [hstate] at hswitching
        cases hswitching
      · cases hw
    | free => cases hfate
    | unwired => cases hfate.1
    | cond => cases hfate.1
    | queued => cases hfate.1
    | yielding => cases hfate.2

theorem Inv.exec_of_lock (h : Inv s g) (hlock : s.lock (.cproc x) = none)
    (hphase : phaseOf s g x = none ∨
      ∃ ph : Phase M C, phaseOf s g x = some ph ∧ ph.lock x = some (.cproc x)) :
    g.exec x = none := by
  rcases hphase with hnone | ⟨ph, hph, hl⟩
  · exact (phase_none h).1 hnone
  · obtain ⟨j, b, hb, rfl⟩ := phase_eq h hph
    rw [h.locks.owns hb (b.phase_locked _ hl)] at hlock
    cases hlock

theorem Inv.next_exec (h : Inv s g) (ht : s.thread k = some (p, a))
    (hhand : (Hand.next, x) ∈ (a.info p).hand) (hlock : s.lock (.cproc x) = none) :
    g.exec x = none := by
  have hplace := h.hand_eq ht hhand
  have hfate := h.fate x (h.lt_of_place (by rw [hplace]; exact nofun))
  rw [hplace] at hfate
  rcases hfate.of_next.2.2 with hph | hph | hph
  · exact h.exec_of_lock hlock (.inl hph)
  · exact h.exec_of_lock hlock (.inr ⟨_, hph, rfl⟩)
  · exact h.exec_of_lock hlock (.inr ⟨_, hph, rfl⟩)

theorem Inv.spare_exec (h : Inv s g) (ht : s.thread k = some (p, a))
    (hhand : (Hand.spare, x) ∈ (a.info p).hand) (hlock : s.lock (.cproc x) = none) :
    g.exec x = none := by
  have hplace := h.hand_eq ht hhand
  have hfate := h.fate x (h.lt_of_place (by rw [hplace]; exact nofun))
  rw [hplace] at hfate
  rcases hfate.of_waiter (.inr ⟨k, rfl⟩) with hph | hph | hph | ⟨-, hw⟩
  · exact h.exec_of_lock hlock (.inl hph)
  · exact h.exec_of_lock hlock (.inr ⟨_, hph, rfl⟩)
  · exact h.exec_of_lock hlock (.inr ⟨_, hph, rfl⟩)
  · cases hw

theorem Inv.readyTest [DecidableEq M] [DecidableEq C] (h : Inv s g) {q : ℕ} {preq : Bool}

    (ht : s.thread k = some (p, .readyTest q preq r)) :
    Inv (s.turnAt k p (.readyTest q preq r)) g := by
  have hplace := h.hand_eq ht mem_cons_self
  have hwired : (s.cproc q).wired = false := h.knows k _ ht
  have hfate := h.fate q (h.lt_of_place (by rw [hplace]; exact nofun))
  have hlock : .cproc q ∈ ((Pc.readyTest q preq r : Pc M C).info p).locks :=
    mem_singleton.2 rfl
  have hexcl : ∀ ph : Phase M C, phaseOf s g q = some ph → ph.lock q ≠ some (.cproc q) := by
    intro ph hph hl
    have hown := (h.excluded ht hlock hph hl).2
    rw [hown] at hl
    exact absurd (r.phase_lock.symm.trans hl) nofun
  rw [hplace] at hfate
  unfold System.turnAt
  dsimp only
  split
  · next hswitching =>
    cases preq with
    | true =>
      rw [hfate.of_next.2.1] at hswitching
      cases hswitching
    | false => exact h.pass ht rfl ⟨hwired, hswitching⟩
  · next hswitching =>
    refine h.go ht rfl (h.self ht) (fun x hx => ?_) (fun _ hm => hm) trivial
    rw [mem_singleton.1 hx]
    refine (phase_none h).1 ?_
    cases preq with
    | true =>
      rcases hfate.of_next.2.2 with hph | hph | hph
      · exact hph
      · exact (hexcl _ hph rfl).elim
      · exact (hexcl _ hph rfl).elim
    | false =>
      rcases hfate.of_woken hwired (Bool.eq_false_of_not_eq_true hswitching) with
        hph | ⟨ph, hph, hl⟩
      · exact hph
      · exact (hexcl ph hph hl).elim

end Step

end MachKernel.Cthreads
