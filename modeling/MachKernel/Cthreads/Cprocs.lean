import MachKernel.Lib.Threads

/-! The scheduling of cprocs on kernel threads (`cprocs.c`, `cthreads.h`), cut between any two
operations on spin locks and on other words that the kernel threads share. What is read and written
only under a lock is cut less finely. -/

namespace MachKernel.Cthreads
open Function

/-- `p->state`, whose bits are these: none is set in `CPROC_RUNNING`. -/
structure State where
  switching : Bool
  blocked : Bool
  condwait : Bool
  deriving DecidableEq

def cprocRunning : State := ⟨false, false, false⟩
def cprocSwitching : State := ⟨true, false, false⟩
def cprocBlocked : State := ⟨false, true, false⟩

/-- The queues: of a mutex and a condition, `ready` and `waiters`. -/
inductive Queue (M C : Type)
  | mutex (m : M)
  | cond (c : C)
  | ready
  | waiters
  deriving DecidableEq

/-- The spin locks: of a queue and a cproc, and `n_kern_lock`. -/
inductive Lock (M C : Type)
  | queue (q : Queue M C)
  | cproc (p : ℕ)
  | kern
  deriving DecidableEq

/-- Where a cproc goes on that was switched from. -/
inductive Cont (M : Type)
  -- in its own code
  | user
  -- in `condition_wait`, at the last `mutex_lock`
  | lock (m : M)
  -- in `mutex_lock_solid`, after `cproc_block`
  | relock (m : M)
  -- in `cproc_waiting`, to which nothing goes back
  | waited
  deriving DecidableEq

/-- Where `cproc_ready` and `mutex_unlock` return to. -/
inductive Ret (M : Type)
  | to (b : Cont M)
  -- in `cond_broadcast`, with the cprocs that are left
  | rest (l : List ℕ)
  -- in `condition_wait`, after `mutex_unlock`
  | wait (m : M)
  deriving DecidableEq

/-- Where a kernel thread is in the code of the cproc that it executes. -/
inductive Pc (M C : Type)
  | user
  -- nowhere
  | fallen
  -- `mutex_lock`, `mutex_lock_solid`
  | lock (m : M)
  | solid (m : M)
  | solidHead (m : M)
  | solidTry (m : M) (queued : Bool)
  | solidDeq (m : M)
  | solidLeave (m : M)
  | solidEnq (m : M)
  | solidSelf (m : M)
  | solidBlock (m : M)
  | relock (m : M)
  -- `mutex_unlock`, `mutex_unlock_solid`
  | unlock (m : M) (r : Ret M)
  | unlockHead (m : M) (r : Ret M)
  | unlockTry (m : M) (r : Ret M)
  | unlockSolid (m : M) (r : Ret M)
  | unlockDeq (m : M) (r : Ret M)
  | unlockHeld (m : M) (new : Option ℕ) (r : Ret M)
  | unlockLeave (m : M) (new : Option ℕ) (r : Ret M)
  -- `cproc_ready`
  | ready (q : ℕ) (preq : Bool) (r : Ret M)
  | readySend (q : ℕ) (r : Ret M)
  | readyLock (q : ℕ) (preq : Bool) (r : Ret M)
  | readyTest (q : ℕ) (preq : Bool) (r : Ret M)
  | readyCatch (q : ℕ) (r : Ret M)
  | readyCaught (q : ℕ) (r : Ret M)
  | readyMiss (q : ℕ) (preq : Bool) (r : Ret M)
  | readyQueue (q : ℕ) (preq : Bool) (r : Ret M)
  | readyEnq (q : ℕ) (preq : Bool) (r : Ret M)
  | readySelf (r : Ret M)
  | readyCount (r : Ret M)
  | readyLeave (r : Ret M)
  | readyWake (r : Ret M)
  | wakeup (r : Ret M)
  -- `cproc_block`
  | block (b : Cont M)
  | blockWired (b : Cont M)
  | receive (b : Cont M)
  | blockState (b : Cont M)
  | blockLeave (b : Cont M)
  | blockReady (b : Cont M)
  | blockDeq (b : Cont M)
  | blockNew (new : ℕ) (b : Cont M)
  | blockSelf (new : ℕ) (b : Cont M)
  | blockTest (new : ℕ) (b : Cont M)
  | blockSaved (new : ℕ) (b : Cont M)
  | blocked (new : ℕ) (b : Cont M)
  | idle (b : Cont M)
  | idleSelf (waiter : ℕ) (b : Cont M)
  | idleTest (waiter : ℕ) (b : Cont M)
  | idleSaved (waiter : ℕ) (b : Cont M)
  | idleReady (waiter : ℕ) (b : Cont M)
  | idleCount (waiter : ℕ) (b : Cont M)
  | idleCounted (waiter : ℕ) (b : Cont M)
  | idleBack (waiter : ℕ) (b : Cont M)
  | idlePreq (waiter : ℕ) (b : Cont M)
  | idleDone (b : Cont M)
  | idleBlocked (waiter : ℕ) (b : Cont M)
  | idleWaiter (waiter : ℕ) (b : Cont M)
  | idleWaited (waiter : ℕ) (b : Cont M)
  -- `cproc_waiter`
  | waiter (b : Cont M)
  | waiterDeq (b : Cont M)
  | waiterLeave (waiter : Option ℕ) (b : Cont M)
  | waiterAlloc (b : Cont M)
  -- the switch from `cproc_block` and `cthread_yield`, when the lock of `new` is to be taken
  | resume (new : ℕ) (b : Cont M)
  | resumeState (new : ℕ) (b : Cont M)
  | resumeLeave (new : ℕ) (b : Cont M)
  -- `cproc_switch`: the context is saved, the next one taken, the lock of the old cproc cleared
  | switch (new : ℕ) (b : Cont M)
  | switchTo (new : ℕ)
  | switched (old : ℕ) (b : Cont M)
  -- `cproc_start_wait`
  | startWait (waiter : ℕ) (b : Cont M)
  | startWaitOn (waiter : ℕ)
  | startedWait (old : ℕ)
  -- `cproc_waiting`
  | waiting
  | waitingReady
  | waitingDeq
  | waitingNone
  | waitingNew (new : ℕ)
  | waitingLock (new : ℕ)
  | waitingState (new : ℕ)
  | waitingUnlock (new : ℕ)
  | waitingBack (new : ℕ)
  | waitingEnq (new : ℕ)
  | waitingSelf (new : ℕ)
  | waitingLeave (new : ℕ)
  | waitingSwitch (new : ℕ)
  -- `condition_wait`
  | condState (c : C) (m : M)
  | condLock (c : C) (m : M)
  | condEnq (c : C) (m : M)
  | condLeave (c : C) (m : M)
  | condSelf (m : M)
  | condTest (m : M)
  | condCaught (m : M)
  | condDone (m : M)
  -- `cond_signal`
  | signal (c : C)
  | signalDeq (c : C)
  | signalLeave (c : C) (new : Option ℕ)
  -- `cond_broadcast`, with what is on `blocked_queue`
  | broadcast (c : C)
  | broadcastDeq (c : C) (l : List ℕ)
  | broadcastLeave (c : C) (l : List ℕ)
  -- `cthread_yield`
  | yield
  | yieldReady
  | yieldDeq
  | yieldNone
  | yieldEnq (new : ℕ)
  | yieldSelf (new : ℕ)
  | yieldState (new : ℕ)
  | yieldLeave (new : ℕ)
  -- `cproc_create`
  | create
  | createKern (child : ℕ)
  | createTest (child : ℕ)
  | createCounted (child : ℕ)
  | createThread (child : ℕ)
  | createFull (child : ℕ)
  | createState (child : ℕ)
  | createPrepare (child : ℕ)
  deriving DecidableEq

/-- `struct cproc`. -/
structure Cproc (M : Type) where
  state : State
  wired : Bool
  -- the messages on the port that it is wired to
  msgs : ℕ
  context : Option (Cont M)

structure System (M C : Type) where
  cproc : ℕ → Cproc M
  -- the next cproc that `cproc_alloc` makes
  fresh : ℕ
  -- the kernel threads, with the cproc that each executes, and the next that `thread_create` makes
  thread : ℕ → Option (ℕ × Pc M C)
  nextThread : ℕ
  -- `cthread_kernel_threads`, `cthread_max_kernel_threads`
  kernelThreads : ℕ
  maxKernelThreads : ℕ
  -- the kernel thread that has each spin lock
  lock : Lock M C → Option ℕ
  queue : Queue M C → List ℕ
  -- `m->held`, and the cprocs that have locked the mutex
  held : M → Bool
  owners : M → List ℕ
  readyCount : ℤ
  waitCount : ℤ
  -- the messages on `wait_port`
  wakeups : ℕ
  -- how often a cproc was taken off a queue to be made runnable (or made), and made runnable
  taken : ℕ → ℕ
  woken : ℕ → ℕ
  -- a cproc was switched to that has no context
  lost : Bool

/-- What a cproc asks for. -/
inductive Call (M C : Type)
  | lock (m : M)
  | unlock (m : M)
  | wait (c : C) (m : M)
  | signal (c : C)
  | broadcast (c : C)
  | yield
  | create
  -- `cthread_wire`
  | wire
  deriving DecidableEq

inductive Event (M C : Type)
  | call (k : ℕ) (call : Call M C)
  -- a kernel thread goes on
  | turn (k : ℕ)
  -- `cthread_set_kernel_limit`
  | limit (n : ℕ)
  deriving DecidableEq

variable {M C : Type}

def Cont.pc : Cont M → Pc M C
  | .user => .user
  | .lock m => .lock m
  | .relock m => .relock m
  | .waited => .fallen

def Ret.pc : Ret M → Pc M C
  | .to b => b.pc
  | .rest [] => .user
  | .rest (q :: l) => .ready q false (.rest l)
  | .wait m => .condSelf m

/-- What comes after a queue was looked at for a cproc to make runnable. -/
def Ret.then (r : Ret M) : Option ℕ → Pc M C
  | none => r.pc
  | some new => .ready new false r

namespace System
variable [DecidableEq M] [DecidableEq C] (s : System M C) (k p : ℕ)

def go (pc : Pc M C) : System M C := { s with thread := update s.thread k (some (p, pc)) }

def spinLock (l : Lock M C) (pc : Pc M C) : System M C :=
  if s.lock l = none then { s with lock := update s.lock l (some k) }.go k p pc else s

def spinUnlock (l : Lock M C) (pc : Pc M C) : System M C :=
  { s with lock := update s.lock l none }.go k p pc

def setQueue (q : Queue M C) (l : List ℕ) : System M C :=
  { s with queue := update s.queue q l }

/-- `cthread_queue_enq`, `cthread_queue_preq`, and what `cthread_queue_deq` leaves. -/
def enq (q : Queue M C) (x : ℕ) : System M C := s.setQueue q (s.queue q ++ [x])
def preq (q : Queue M C) (x : ℕ) : System M C := s.setQueue q (x :: s.queue q)
def deq (q : Queue M C) : System M C := s.setQueue q (s.queue q).tail

def modify (x : ℕ) (f : Cproc M → Cproc M) : System M C :=
  { s with cproc := update s.cproc x (f (s.cproc x)) }

def setState (x : ℕ) (state : State) : System M C := s.modify x fun c => { c with state }

/-- A cproc is taken off a queue to be made runnable, and is made runnable. -/
def take (x : ℕ) : System M C := { s with taken := update s.taken x (s.taken x + 1) }
def wake (x : ℕ) : System M C := { s with woken := update s.woken x (s.woken x + 1) }

/-- `spin_try_lock (&m->held)` succeeds, and the mutex is locked. -/
def hold (m : M) : System M C :=
  { s with
    held := update s.held m true
    owners := update s.owners m (p :: s.owners m) }

/-- `cproc_alloc`: the lock of the new cproc is clear, as all locks are at the start. -/
def alloc : System M C :=
  { s with
    cproc := update s.cproc s.fresh ⟨cprocRunning, false, 0, none⟩
    fresh := s.fresh + 1 }

/-- The kernel thread `k` goes on in the code of the cproc `p`. -/
def turnAt : Pc M C → System M C
  | .user | .fallen => s
  | .lock m => if s.held m then s.go k p (.solid m) else (s.hold p m).go k p .user
  -- `mutex_lock_solid`
  | .solid m => s.spinLock k p (.queue (.mutex m)) (.solidHead m)
  | .solidHead m =>
    if s.queue (.mutex m) = [] then (s.enq (.mutex m) p).go k p (.solidTry m true)
    else s.go k p (.solidTry m false)
  | .solidTry m queued =>
    if s.held m then s.go k p (if queued then .solidSelf m else .solidEnq m)
    else (s.hold p m).go k p (if queued then .solidDeq m else .solidLeave m)
  | .solidDeq m => (s.deq (.mutex m)).go k p (.solidLeave m)
  | .solidLeave m => s.spinUnlock k p (.queue (.mutex m)) .user
  | .solidEnq m => (s.enq (.mutex m) p).go k p (.solidSelf m)
  | .solidSelf m => s.spinLock k p (.cproc p) (.solidBlock m)
  | .solidBlock m => s.spinUnlock k p (.queue (.mutex m)) (.block (.relock m))
  | .relock m => if s.held m then s.go k p (.solid m) else (s.hold p m).go k p .user
  -- `mutex_unlock`
  | .unlock m r =>
    { s with
      held := update s.held m false
      owners := update s.owners m ((s.owners m).erase p) }.go k p (.unlockHead m r)
  | .unlockHead m r => s.go k p (if s.queue (.mutex m) = [] then r.pc else .unlockTry m r)
  -- `mutex_unlock_solid`
  | .unlockTry m r =>
    if s.held m then s.go k p r.pc
    else { s with held := update s.held m true }.go k p (.unlockSolid m r)
  | .unlockSolid m r => s.spinLock k p (.queue (.mutex m)) (.unlockDeq m r)
  | .unlockDeq m r => match s.queue (.mutex m) with
    | [] => s.go k p (.unlockHeld m none r)
    | new :: _ => ((s.deq (.mutex m)).take new).go k p (.unlockHeld m (some new) r)
  | .unlockHeld m new r =>
    { s with held := update s.held m false }.go k p (.unlockLeave m new r)
  | .unlockLeave m new r => s.spinUnlock k p (.queue (.mutex m)) (r.then new)
  -- `cproc_ready`
  | .ready q preq r =>
    s.go k p (if (s.cproc q).wired then .readySend q r else .readyLock q preq r)
  | .readySend q r =>
    ((s.modify q fun c => { c with msgs := c.msgs + 1 }).wake q).go k p r.pc
  | .readyLock q preq r => s.spinLock k p (.cproc q) (.readyTest q preq r)
  | .readyTest q preq r =>
    s.go k p (if (s.cproc q).state.switching then .readyCatch q r else .readyMiss q preq r)
  | .readyCatch q r =>
    ((s.setState q { (s.cproc q).state with switching := false }).wake q).go k p (.readyCaught q r)
  | .readyCaught q r => s.spinUnlock k p (.cproc q) r.pc
  | .readyMiss q preq r => s.spinUnlock k p (.cproc q) (.readyQueue q preq r)
  | .readyQueue q preq r => s.spinLock k p (.queue .ready) (.readyEnq q preq r)
  | .readyEnq q preq r =>
    { (if preq then s.preq .ready q else (s.enq .ready q).wake q) with
      readyCount := s.readyCount + 1 }.go k p (.readySelf r)
  | .readySelf r =>
    -- the thread of a cproc that waits for a condition blocks momentarily
    s.go k p (if (s.cproc p).state.condwait ∧ !(s.cproc p).wired then .readyLeave r
      else .readyCount r)
  | .readyCount r =>
    if 0 < s.readyCount ∧ s.waitCount ≠ 0 then
      { s with
        waitCount := s.waitCount - 1
        readyCount := s.readyCount - 1 }.go k p (.readyWake r)
    else s.go k p (.readyLeave r)
  | .readyLeave r => s.spinUnlock k p (.queue .ready) r.pc
  | .readyWake r => s.spinUnlock k p (.queue .ready) (.wakeup r)
  | .wakeup r => { s with wakeups := s.wakeups + 1 }.go k p r.pc
  -- `cproc_block`
  | .block b => s.go k p (if (s.cproc p).wired then .blockWired b else .blockState b)
  | .blockWired b => s.spinUnlock k p (.cproc p) (.receive b)
  | .receive b =>
    if 0 < (s.cproc p).msgs then
      (s.modify p fun c => { c with msgs := c.msgs - 1 }).go k p b.pc
    else s
  | .blockState b => (s.setState p cprocSwitching).go k p (.blockLeave b)
  | .blockLeave b => s.spinUnlock k p (.cproc p) (.blockReady b)
  | .blockReady b => s.spinLock k p (.queue .ready) (.blockDeq b)
  | .blockDeq b => match s.queue .ready with
    | new :: _ =>
      { s.deq .ready with readyCount := s.readyCount - 1 }.go k p (.blockNew new b)
    | [] => { s with waitCount := s.waitCount + 1 }.go k p (.idle b)
  | .blockNew new b => s.spinUnlock k p (.queue .ready) (.blockSelf new b)
  | .blockSelf new b => s.spinLock k p (.cproc p) (.blockTest new b)
  | .blockTest new b =>
    s.go k p (if (s.cproc p).state = cprocRunning then .blockSaved new b else .blocked new b)
  | .blockSaved new b => s.spinUnlock k p (.cproc p) (.ready new true (.to b))
  | .blocked new b => (s.setState p cprocBlocked).go k p (.resume new b)
  | .idle b => s.spinUnlock k p (.queue .ready) (.waiter b)
  | .idleSelf w b => s.spinLock k p (.cproc p) (.idleTest w b)
  | .idleTest w b =>
    s.go k p (if (s.cproc p).state = cprocRunning then .idleSaved w b else .idleBlocked w b)
  | .idleSaved w b => s.spinUnlock k p (.cproc p) (.idleReady w b)
  | .idleReady w b => s.spinLock k p (.queue .ready) (.idleCount w b)
  | .idleCount w b => { s with waitCount := s.waitCount - 1 }.go k p (.idleCounted w b)
  | .idleCounted w b => s.spinUnlock k p (.queue .ready) (.idleBack w b)
  | .idleBack w b => s.spinLock k p (.queue .waiters) (.idlePreq w b)
  | .idlePreq w b => (s.preq .waiters w).go k p (.idleDone b)
  | .idleDone b => s.spinUnlock k p (.queue .waiters) b.pc
  | .idleBlocked w b => (s.setState p cprocBlocked).go k p (.idleWaiter w b)
  | .idleWaiter w b => s.spinLock k p (.cproc w) (.idleWaited w b)
  | .idleWaited w b => s.spinUnlock k p (.cproc w) (.startWait w b)
  -- `cproc_waiter`
  | .waiter b => s.spinLock k p (.queue .waiters) (.waiterDeq b)
  | .waiterDeq b => match s.queue .waiters with
    | w :: _ => (s.deq .waiters).go k p (.waiterLeave (some w) b)
    | [] => s.go k p (.waiterLeave none b)
  | .waiterLeave none b => s.spinUnlock k p (.queue .waiters) (.waiterAlloc b)
  | .waiterLeave (some w) b => s.spinUnlock k p (.queue .waiters) (.idleSelf w b)
  | .waiterAlloc b => s.alloc.go k p (.idleSelf s.fresh b)
  | .resume new b => s.spinLock k p (.cproc new) (.resumeState new b)
  | .resumeState new b => (s.setState new cprocRunning).go k p (.resumeLeave new b)
  | .resumeLeave new b => s.spinUnlock k p (.cproc new) (.switch new b)
  -- `cproc_switch`
  | .switch new b => (s.modify p fun c => { c with context := some b }).go k p (.switchTo new)
  | .switchTo new => match (s.cproc new).context with
    | none => { s with lost := true }
    | some b => (s.modify new fun c => { c with context := none }).go k new (.switched p b)
  | .switched old b => s.spinUnlock k p (.cproc old) b.pc
  -- `cproc_start_wait`
  | .startWait w b => (s.modify p fun c => { c with context := some b }).go k p (.startWaitOn w)
  | .startWaitOn w => s.go k w (.startedWait p)
  | .startedWait old => s.spinUnlock k p (.cproc old) .waiting
  -- `cproc_waiting`
  | .waiting =>
    if 0 < s.wakeups then { s with wakeups := s.wakeups - 1 }.go k p .waitingReady else s
  | .waitingReady => s.spinLock k p (.queue .ready) .waitingDeq
  | .waitingDeq => match s.queue .ready with
    | new :: _ => (s.deq .ready).go k p (.waitingNew new)
    | [] =>
      { s with
        waitCount := s.waitCount + 1
        readyCount := s.readyCount + 1 }.go k p .waitingNone
  | .waitingNone => s.spinUnlock k p (.queue .ready) .waiting
  | .waitingNew new => s.spinUnlock k p (.queue .ready) (.waitingLock new)
  | .waitingLock new => s.spinLock k p (.cproc new) (.waitingState new)
  | .waitingState new => (s.setState new cprocRunning).go k p (.waitingUnlock new)
  | .waitingUnlock new => s.spinUnlock k p (.cproc new) (.waitingBack new)
  | .waitingBack new => s.spinLock k p (.queue .waiters) (.waitingEnq new)
  | .waitingEnq new => (s.enq .waiters p).go k p (.waitingSelf new)
  | .waitingSelf new => s.spinLock k p (.cproc p) (.waitingLeave new)
  | .waitingLeave new => s.spinUnlock k p (.queue .waiters) (.waitingSwitch new)
  | .waitingSwitch new =>
    (s.modify p fun c => { c with context := some .waited }).go k p (.switchTo new)
  -- `condition_wait`
  | .condState c m => (s.setState p ⟨true, false, true⟩).go k p (.condLock c m)
  | .condLock c m => s.spinLock k p (.queue (.cond c)) (.condEnq c m)
  | .condEnq c m => (s.enq (.cond c) p).go k p (.condLeave c m)
  | .condLeave c m => s.spinUnlock k p (.queue (.cond c)) (.unlock m (.wait m))
  | .condSelf m => s.spinLock k p (.cproc p) (.condTest m)
  | .condTest m =>
    s.go k p (if (s.cproc p).state.switching then .block (.lock m) else .condCaught m)
  | .condCaught m => (s.setState p cprocRunning).go k p (.condDone m)
  | .condDone m => s.spinUnlock k p (.cproc p) (.lock m)
  -- `cond_signal`
  | .signal c => s.spinLock k p (.queue (.cond c)) (.signalDeq c)
  | .signalDeq c => match s.queue (.cond c) with
    | [] => s.go k p (.signalLeave c none)
    | new :: _ => ((s.deq (.cond c)).take new).go k p (.signalLeave c (some new))
  | .signalLeave c new => s.spinUnlock k p (.queue (.cond c)) ((Ret.to .user).then new)
  -- `cond_broadcast`
  | .broadcast c => s.spinLock k p (.queue (.cond c)) (.broadcastDeq c [])
  | .broadcastDeq c l => match s.queue (.cond c) with
    | [] => s.go k p (.broadcastLeave c l)
    | new :: _ => ((s.deq (.cond c)).take new).go k p (.broadcastDeq c (l ++ [new]))
  | .broadcastLeave c l => s.spinUnlock k p (.queue (.cond c)) (Ret.rest l).pc
  -- `cthread_yield`
  | .yield => s.go k p (if (s.cproc p).wired then .user else .yieldReady)
  | .yieldReady => s.spinLock k p (.queue .ready) .yieldDeq
  | .yieldDeq => match s.queue .ready with
    | new :: _ => (s.deq .ready).go k p (.yieldEnq new)
    | [] => s.go k p .yieldNone
  | .yieldNone => s.spinUnlock k p (.queue .ready) .user
  | .yieldEnq new => (s.enq .ready p).go k p (.yieldSelf new)
  | .yieldSelf new => s.spinLock k p (.cproc p) (.yieldState new)
  | .yieldState new => (s.setState p cprocBlocked).go k p (.yieldLeave new)
  | .yieldLeave new => s.spinUnlock k p (.queue .ready) (.resume new .user)
  -- `cproc_create`
  | .create => s.alloc.go k p (.createKern s.fresh)
  | .createKern child => s.spinLock k p .kern (.createTest child)
  | .createTest child =>
    if s.maxKernelThreads = 0 ∨ s.kernelThreads < s.maxKernelThreads then
      { s with kernelThreads := s.kernelThreads + 1 }.go k p (.createCounted child)
    else s.go k p (.createFull child)
  | .createCounted child => s.spinUnlock k p .kern (.createThread child)
  | .createThread child =>
    { s.go k p .user with
      thread := update (s.go k p .user).thread s.nextThread (some (child, .user))
      nextThread := s.nextThread + 1 }
  | .createFull child => s.spinUnlock k p .kern (.createState child)
  | .createState child => (s.setState child cprocBlocked).go k p (.createPrepare child)
  | .createPrepare child =>
    ((s.modify child fun c => { c with context := some .user }).take child).go k p
      (.ready child false (.to .user))

/-- A cproc calls a function: it unlocks, and waits with, a mutex that it has locked. -/
def call : Call M C → System M C
  | .lock m => s.go k p (.lock m)
  | .unlock m => if p ∈ s.owners m then s.go k p (.unlock m (.to .user)) else s
  | .wait c m => if p ∈ s.owners m then s.go k p (.condState c m) else s
  | .signal c => s.go k p (.signal c)
  | .broadcast c => s.go k p (.broadcast c)
  | .yield => s.go k p .yield
  | .create => s.go k p .create
  | .wire => s.modify p fun c => { c with wired := true }

def event : Event M C → System M C
  | .call k c => match s.thread k with
    | some (p, .user) => s.call k p c
    | _ => s
  | .turn k => match s.thread k with
    | some (p, pc) => s.turnAt k p pc
    | none => s
  | .limit n => { s with maxKernelThreads := n }

/-- After `cproc_init`, with one kernel thread and one cproc. -/
def start : System M C where
  cproc _ := ⟨cprocRunning, false, 0, none⟩
  fresh := 1
  thread := update (fun _ => none) 0 (some (0, .user))
  nextThread := 1
  kernelThreads := 1
  maxKernelThreads := 0
  lock _ := none
  queue _ := []
  held _ := false
  owners _ := []
  readyCount := 0
  waitCount := 0
  wakeups := 0
  taken _ := 0
  woken _ := 0
  lost := false

def run (es : List (Event M C)) : System M C := es.foldl event start

end System

end MachKernel.Cthreads
