import MachKernel.Lib.Runs

/-! Sleep and wakeup in the Unix server (`mach_synch.c`): the sleep queues, the threads on their way
through `tsleep`, and those that wake them. -/

namespace MachKernel.Ux.Sleep
open Function List

abbrev pzero : ℤ := 25

/-- The macro `SLEEP_HASH`. -/
def sleepHash (chan : ℕ) : ℕ := (chan >>> 16) &&& 63

/-- What `tsleep` returns. -/
inductive Result
  | ok
  | time
  | sig
  deriving DecidableEq

/-- What `tsleep_main` has found when it comes to its last test. -/
structure Verdict where
  -- whether signals count
  asks : Bool
  timedOut : Bool
  -- whether the time limit of this sleep had expired before any wakeup
  own : Bool
  deriving DecidableEq

/-- Where a thread is. -/
inductive Place
  -- its code
  | code
  -- in code between `tsleep_enter` and `tsleep_main`
  | between (limit : Bool)
  -- in `tsleep_main`, with `uu_lock`
  | arming (limit : Bool)
  -- about to wait
  | armed
  -- in `condition_wait`
  | waiting
  -- signalled there
  | signalled
  -- with `uu_lock` released again, it wants the master lock
  | leaving (timedOut own : Bool)
  -- at the last test, perhaps in `issig`
  | deciding (v : Verdict)
  deriving DecidableEq

open Place

structure Thread where
  -- the fields of `struct uthread`
  chan : ℕ
  interruptible : Bool
  timedout : Bool
  procExit : Bool
  place : Place
  -- the sleeps in whose `issig` it is
  outer : List Verdict
  -- how many sleeps it has begun
  gen : ℕ
  -- whether the time limit of the last of them took it off its queue
  expired : Bool
  deriving DecidableEq

/-- What a thread does that holds `sleep_lock`. -/
inductive Hold (T : Type)
  -- the loop of `wakeup`, with the rest of the queue
  | wake (chan : ℕ) (todo : List T)
  -- in it, about to take the `uu_lock` of a thread that it has dequeued
  | wakeSignal (chan : ℕ) (u : T) (todo : List T)
  -- the same in `unsleep`
  | unsleepSignal (u : T)
  deriving DecidableEq

structure System (T : Type) where
  thread : T → Thread
  -- `sleep_queue`
  queue : ℕ → List T
  sleepLock : Option (T × Hold T)
  master : Option T
  -- the calls of `uthread_wakeup` on the list of timeouts, by thread and sleep
  timers : List (T × ℕ)
  -- those that `softclock` has taken from the list and is to make
  firing : List (T × ℕ)
  -- whether the process of a thread exits or has signals
  pending : T → Bool
  -- the threads for whose channel `wakeup` has been called in their last sleep
  called : T → Bool

open Sleep.System

/-- What can happen next. -/
inductive Event (T : Type)
  | tsleepEnter (t : T) (chan : ℕ) (pri : ℤ) (limit : Bool)
  -- the next step of a thread
  | turn (t : T)
  -- the last test, and whether `issig` finds a signal
  | decide (t : T) (issig : Bool)
  | wakeup (w : T) (chan : ℕ)
  | unsleep (w u : T)
  -- `softclock` takes a timeout from the list, and then makes the call
  | expire (p : T × ℕ)
  | uthreadWakeup (p : T × ℕ)
  | takeMaster (t : T)
  | dropMaster (t : T)
  -- signals are posted or taken, or a thread goes to exit
  | sets (t : T) (pending procExit : Bool)
  deriving DecidableEq

/-- It runs code, of its own or of `issig`. -/
def Place.runs : Place → Bool
  | .code | .between _ | .deciding _ => true
  | _ => false

def Place.isBetween : Place → Bool
  | .between _ => true
  | _ => false

/-- It may begin a sleep. -/
def Place.begins : Place → Bool
  | .code | .deciding _ => true
  | _ => false

/-- It holds its `uu_lock`. -/
def Place.locked : Place → Bool
  | .arming _ | .armed => true
  | _ => false

def Verdict.result (v : Verdict) (pending issig : Bool) : Result :=
  if v.asks ∧ pending ∧ issig then .sig else if v.timedOut then .time else .ok

/-- What `tsleep_enter` does with the fields of the thread. A sleep in `issig` is inside another. -/
def Thread.enter (th : Thread) (chan : ℕ) (pri : ℤ) (limit : Bool) : Thread :=
  { th with
    chan
    interruptible := pzero < pri ∧ !th.procExit
    place := .between limit
    outer := match th.place with
      | .deciding v => v :: th.outer
      | _ => th.outer
    gen := th.gen + 1
    expired := false }

/-- What `condition_signal` does to the thread that may wait. -/
def Place.signal : Place → Place
  | .waiting => .signalled
  | p => p

/-- What `uthread_wakeup` does to a thread on a queue, for a timeout of one of its sleeps. -/
def Thread.wakeup (th : Thread) (gen : ℕ) : Thread :=
  { th with chan := 0, place := th.place.signal, expired := gen = th.gen }

namespace System
variable {T : Type} [DecidableEq T] (s : System T)

def put (t : T) (th : Thread) : System T := { s with thread := Function.update s.thread t th }

def setLock (l : Option (T × Hold T)) : System T := { s with sleepLock := l }

/-- `queue_remove` from the queue of a channel. -/
def queueRemove (chan : ℕ) (t : T) : System T :=
  { s with
    queue := Function.update s.queue (sleepHash chan) ((s.queue (sleepHash chan)).erase t) }

/-- `queue_remove`, and the channel is cleared. -/
def dequeue (u : T) : System T :=
  (s.queueRemove (s.thread u).chan u).put u { s.thread u with chan := 0 }

/-- What `wakeup` and `unsleep` do under the `uu_lock`. -/
def signal (u : T) : System T :=
  s.put u { s.thread u with timedout := false, place := (s.thread u).place.signal }

def tsleepEnter (t : T) (chan : ℕ) (pri : ℤ) (limit : Bool) : System T :=
  { s.put t ((s.thread t).enter chan pri limit) with
    queue := Function.update s.queue (sleepHash chan) (s.queue (sleepHash chan) ++ [t])
    called := Function.update s.called t false }

/-- A step in `tsleep_main`. -/
def mainTurn (t : T) : System T :=
  let th := s.thread t
  match th.place with
  | .between limit =>
    if s.sleepLock ≠ none then s
    else if th.chan = 0 then
      s.put t { th with place := .deciding ⟨th.interruptible, false, false⟩ }
    else if th.interruptible ∧ s.pending t then
      -- it removes itself from its queue and takes the signal
      (s.queueRemove th.chan t).put t { th with place := .deciding ⟨true, false, false⟩ }
    else s.put t { th with place := .arming limit }
  | .arming limit =>
    { s.put t { th with timedout := th.timedout || limit, place := .armed } with
      master := none
      timers := if limit then (t, th.gen) :: s.timers else s.timers }
  | .armed => s.put t { th with place := .waiting }
  | .signalled =>
    { s.put t { th with place := .leaving th.timedout th.expired } with
      timers := s.timers.filter fun p => p ≠ (t, th.gen) }
  | .leaving timedOut own =>
    if s.master = none then
      { s.put t { th with place := .deciding ⟨th.interruptible, timedOut, own⟩ } with
        master := some t }
    else s
  | .code | .waiting | .deciding _ => s

/-- A step of a thread that holds `sleep_lock`. -/
def holdTurn (w : T) : Hold T → System T
  | .wake _ [] => s.setLock none
  | .wake chan (u :: todo) =>
    if (s.thread u).chan = chan then (s.dequeue u).setLock (some (w, .wakeSignal chan u todo))
    else s.setLock (some (w, .wake chan todo))
  | .wakeSignal chan u todo =>
    if (s.thread u).place.locked then s
    else (s.signal u).setLock (some (w, .wake chan todo))
  | .unsleepSignal u =>
    if (s.thread u).place.locked then s else (s.signal u).setLock none

/-- `uthread_wakeup`; it takes both locks before it looks at anything. -/
def uthreadWakeup (p : T × ℕ) : System T :=
  let th := s.thread p.1
  let s := { s with firing := s.firing.erase p }
  if th.chan = 0 then s.put p.1 { th with place := th.place.signal }
  else (s.queueRemove th.chan p.1).put p.1 (th.wakeup p.2)

/-- Whether a thread runs code outside these routines. -/
def runs (t : T) : Bool := (s.thread t).place.runs ∧ (s.sleepLock.map Prod.fst) ≠ some t

def event : Event T → System T
  | .tsleepEnter t chan pri limit =>
    if (s.thread t).place.begins ∧ s.sleepLock = none ∧ s.master = some t ∧ chan ≠ 0 then
      s.tsleepEnter t chan pri limit
    else s
  | .turn t => match s.sleepLock with
    | some (w, hold) => if w = t then s.holdTurn w hold else s.mainTurn t
    | none => s.mainTurn t
  | .decide t _ => match (s.thread t).place, (s.thread t).outer with
    | .deciding _, [] =>
      if s.runs t then s.put t { s.thread t with place := .code } else s
    | .deciding _, v :: outer =>
      if s.runs t then s.put t { s.thread t with place := .deciding v, outer } else s
    | _, _ => s
  | .wakeup w chan =>
    if s.runs w ∧ s.sleepLock = none then
      { s with
        sleepLock := some (w, .wake chan (s.queue (sleepHash chan)))
        called := fun t => s.called t || (s.thread t).chan = chan }
    else s
  | .unsleep w u =>
    if s.runs w ∧ s.sleepLock = none ∧ (s.thread u).interruptible ∧ (s.thread u).chan ≠ 0 then
      (s.dequeue u).setLock (some (w, .unsleepSignal u))
    else s
  | .expire p =>
    if p ∈ s.timers then { s with timers := s.timers.erase p, firing := p :: s.firing } else s
  | .uthreadWakeup p =>
    if p ∈ s.firing ∧ s.sleepLock = none ∧ !(s.thread p.1).place.locked then s.uthreadWakeup p
    else s
  | .takeMaster t =>
    if (s.thread t).place.begins ∧ s.master = none then { s with master := some t } else s
  | .dropMaster t =>
    if (s.thread t).place.begins ∧ s.master = some t then { s with master := none } else s
  | .sets t pending procExit =>
    { s.put t { s.thread t with procExit } with
      pending := Function.update s.pending t pending }

def step (e : Event T) : Option (Unit × System T) := some ((), s.event e)

omit [DecidableEq T] in
/-- Every thread runs its code. -/
def init : System T where
  thread _ := ⟨0, false, false, false, .code, [], 0, false⟩
  queue _ := []
  sleepLock := none
  master := none
  timers := []
  firing := []
  pending _ := false
  called _ := false

def run (es : List (Event T)) : System T := es.foldl event init

end System

/-! What should hold in every state. -/

/-- It sleeps, or is about to. -/
def Place.sleeps : Place → Bool
  | .arming _ | .armed | .waiting => true
  | _ => false

namespace Hold
variable {T : Type}

/-- The thread that is to be signalled next. -/
def target : Hold T → Option T
  | .wake _ _ => none
  | .wakeSignal _ u _ => some u
  | .unsleepSignal u => some u

/-- The channel of a call of `wakeup`. -/
def chan : Hold T → Option ℕ
  | .wake chan _ => some chan
  | .wakeSignal chan _ _ => some chan
  | .unsleepSignal _ => none

/-- The threads that it has still to look at. -/
def todo : Hold T → List T
  | .wake _ todo => todo
  | .wakeSignal _ _ todo => todo
  | .unsleepSignal _ => []

end Hold

section Spec
variable {T : Type}

structure Safe [DecidableEq T] (s : System T) : Prop where
  linked : ∀ t h, t ∈ s.queue h ↔ (s.thread t).chan ≠ 0 ∧ sleepHash (s.thread t).chan = h
  once : ∀ h, (s.queue h).Nodup
  -- `wakeup` is not yet done with a thread that still sleeps, or would when it goes on
  woken : ∀ t, s.called t → (s.thread t).place.sleeps ∨ (s.thread t).chan ≠ 0 →
    ∃ w hold, s.sleepLock = some (w, hold) ∧ (hold.target = some t ∨
      hold.chan = some (s.thread t).chan ∧ t ∈ hold.todo)
  -- and then its own steps take it through `tsleep_main`
  leaves : ∀ t, s.called t → s.sleepLock = none → s.master = none →
    ∃ n, (((mainTurn · t)^[n] s).thread t).place.begins
  -- the timeout that wakes a thread is that of its last sleep
  fires : ∀ p ∈ s.firing, (s.thread p.1).chan ≠ 0 ∨ (s.thread p.1).place = .waiting →
    p.2 = (s.thread p.1).gen
  time : ∀ t v issig, (s.thread t).place = .deciding v →
    v.result (s.pending t) issig = .time → v.own
  sig : ∀ t v issig, (s.thread t).place = .deciding v →
    v.result (s.pending t) issig = .sig → s.pending t

/-- No timeout of an earlier sleep is still to be called when a thread begins one, and no signal is
there when it comes to `tsleep_main` on its queue and would take it. -/
def Fits (s : System T) : Event T → Prop
  | .tsleepEnter t _ _ _ => ∀ p ∈ s.firing, p.1 ≠ t
  | .turn t => s.sleepLock = none → (s.thread t).place.isBetween → (s.thread t).chan ≠ 0 →
    ¬((s.thread t).interruptible ∧ s.pending t)
  | _ => True

instance [DecidableEq T] (s : System T) : DecidablePred (Fits s)
  | .tsleepEnter t _ _ _ => inferInstanceAs (Decidable (∀ p ∈ s.firing, p.1 ≠ t))
  | .turn _ => inferInstanceAs (Decidable (s.sleepLock = none → _ → _ → ¬(_ ∧ _)))
  | .decide _ _ | .wakeup _ _ | .unsleep _ _ | .expire _ | .uthreadWakeup _ | .takeMaster _
  | .dropMaster _ | .sets _ _ _ => isTrue trivial

end Spec

/-! The invariant. -/

/-- A timeout may be on the list for it. -/
def Place.late : Place → Bool
  | .armed | .waiting | .signalled => true
  | _ => false

/-- A verdict that the time limit has expired is about the time limit of the sleep. -/
def Verdict.Ok (v : Verdict) : Prop := v.timedOut → v.own

/-- The time limit at a place, against the flags of the thread. -/
def Place.Ok (timedout expired : Bool) : Place → Prop
  | .signalled => timedout → expired
  | .leaving timedOut own => timedOut → own
  | .deciding v => v.Ok
  | _ => True

structure Thread.Ok (th : Thread) : Prop where
  awake : th.place.sleeps = false → th.place.isBetween = false → th.chan = 0
  place : th.place.Ok th.timedout th.expired
  outer : ∀ v ∈ th.outer, v.Ok

section Agreement
variable {T : Type} (queue : ℕ → List T) (thread : T → Thread) (lock : Option (T × Hold T))

def Linked : Prop :=
  ∀ t h, t ∈ queue h ↔ (thread t).chan ≠ 0 ∧ sleepHash (thread t).chan = h

/-- The threads that `wakeup` has still to look at: all that are on its channel. -/
structure Scans (chan : ℕ) (todo : List T) : Prop where
  nodup : todo.Nodup
  mem : ∀ u ∈ todo, (thread u).chan ≠ 0
  all : ∀ u, (thread u).chan = chan → chan ≠ 0 → u ∈ todo

/-- What a thread with `sleep_lock` is at. -/
structure Holds (hold : Hold T) : Prop where
  scans : ∀ chan, hold.chan = some chan → Scans thread chan hold.todo
  target : ∀ u, hold.target = some u → (thread u).chan = 0

/-- A thread that sleeps is on a queue, or about to be signalled. -/
def Asleep : Prop := ∀ t, (thread t).place.sleeps = true →
  (thread t).chan ≠ 0 ∨ ∃ w hold, lock = some (w, hold) ∧ hold.target = some t

/-- A thread that `wakeup` was called for is off its queue, or `wakeup` is still at work. -/
def Called (called : T → Bool) : Prop := ∀ t, called t = true →
  (thread t).chan = 0 ∨ ∃ w hold, lock = some (w, hold) ∧ hold.chan = some (thread t).chan

/-- The timeouts belong to the last sleeps. -/
def Timed (timers firing : List (T × ℕ)) : Prop :=
  (∀ p ∈ timers, p.2 = (thread p.1).gen ∧ (thread p.1).place.late = true) ∧
    ∀ p ∈ firing, p.2 = (thread p.1).gen

end Agreement

structure Inv {T : Type} (s : System T) : Prop where
  linked : Linked s.queue s.thread
  once : ∀ h, (s.queue h).Nodup
  ok : ∀ t, (s.thread t).Ok
  holds : ∀ w hold, s.sleepLock = some (w, hold) → Holds s.thread hold
  asleep : Asleep s.thread s.sleepLock
  called : Called s.thread s.sleepLock s.called
  timed : Timed s.thread s.timers s.firing

section Put
variable {T : Type} [DecidableEq T] {s : System T} {t u : T} {th : Thread}

variable {thread : T → Thread} {timers firing : List (T × ℕ)} {lock : Option (T × Hold T)}
  {queue : ℕ → List T} {hold : Hold T} {p : Place} {chan : ℕ} {limit timedOut own : Bool}
  {w : T} {todo : List T}

theorem chan_update (hchan : th.chan = (thread t).chan) (v : T) :
    (Function.update thread t th v).chan = (thread v).chan := by
  rw [update_apply]
  split
  · next hv => rw [hchan, hv]
  · rfl

theorem gen_update (hgen : th.gen = (thread t).gen) (v : T) :
    (Function.update thread t th v).gen = (thread v).gen := by
  rw [update_apply]
  split
  · next hv => rw [hgen, hv]
  · rfl

theorem Inv.ok_put (h : Inv s) (hok : th.Ok) : ∀ v, (Function.update s.thread t th v).Ok :=
  (forall_update_iff s.thread (p := fun _ th => Thread.Ok th)).2 ⟨hok, fun v _ => h.ok v⟩

theorem Timed.update (h : Timed thread timers firing) (hgen : th.gen = (thread t).gen)
    (hlate : (thread t).place.late = true → th.place.late = true) :
    Timed (Function.update thread t th) timers firing := by
  refine ⟨fun p hp => ?_, fun p hp => (h.2 p hp).trans (gen_update hgen _).symm⟩
  obtain ⟨hgen', hlate'⟩ := h.1 p hp
  refine ⟨hgen'.trans (gen_update hgen _).symm, ?_⟩
  rw [update_apply]
  split
  · next heq => exact hlate (heq ▸ hlate')
  · exact hlate'

theorem Asleep.update {lock' : Option (T × Hold T)} (h : Asleep thread lock)
    (hsleeps : th.place.sleeps = true → th.chan ≠ 0 ∨ ∃ w hold, lock' = some (w, hold) ∧
      hold.target = some t)
    (hlock : ∀ v ≠ t, ∀ w hold, lock = some (w, hold) → hold.target = some v →
      ∃ w hold, lock' = some (w, hold) ∧ hold.target = some v) :
    Asleep (Function.update thread t th) lock' :=
  (forall_update_iff thread (p := fun t th => th.place.sleeps = true →
      th.chan ≠ 0 ∨ ∃ w hold, lock' = some (w, hold) ∧ hold.target = some t)).2
    ⟨hsleeps, fun v hv hv' => (h v hv').imp_right fun ⟨w, hold, hlock', htarget⟩ =>
      hlock v hv w hold hlock' htarget⟩

theorem Linked.put (h : Linked queue thread)
    (hchan : th.chan = (thread t).chan) : Linked queue (Function.update thread t th) := by
  intro v i
  rw [chan_update hchan]
  exact h v i

theorem Holds.put (h : Holds thread hold)
    (hchan : th.chan = (thread t).chan) : Holds (Function.update thread t th) hold := by
  refine ⟨fun chan hc => ?_, fun v hv => (chan_update hchan v).trans (h.target v hv)⟩
  obtain ⟨hnodup, hmem, hall⟩ := h.scans chan hc
  exact ⟨hnodup, fun v hv => (chan_update hchan v).symm ▸ hmem v hv,
    fun v hv => hall v ((chan_update hchan v).symm.trans hv)⟩

theorem Called.put {called : T → Bool}
    (h : Called thread lock called) (hchan : th.chan = (thread t).chan) :
    Called (Function.update thread t th) lock called := by
  intro v hv
  rw [chan_update hchan]
  exact h v hv

/-- A step that leaves the queues and `sleep_lock` alone. -/
theorem Inv.put (h : Inv s) (hchan : th.chan = (s.thread t).chan)
    (hok : th.Ok)
    (hsleeps : th.place.sleeps = true → (s.thread t).place.sleeps = true ∨ th.chan ≠ 0)
    (htimed : Timed (Function.update s.thread t th) timers s.firing) :
    Inv { s.put t th with timers } where
  linked := h.linked.put hchan
  once := h.once
  ok := h.ok_put hok
  holds w hold hlock := (h.holds w hold hlock).put hchan
  asleep := by
    refine h.asleep.update (fun hs => ?_) fun v _ w hold hlock htarget =>
      ⟨w, hold, hlock, htarget⟩
    rcases hsleeps hs with hs' | hne
    · rw [hchan]
      exact h.asleep t hs'
    · exact .inl hne
  called := h.called.put hchan
  timed := htimed

theorem Linked.enqueue (h : Linked queue thread)
    (hnot : (thread t).chan = 0) (hchan : th.chan ≠ 0) :
    Linked (Function.update queue (sleepHash th.chan) (queue (sleepHash th.chan) ++ [t]))
      (Function.update thread t th) := by
  intro v i
  have hv := h v i
  rw [update_apply, update_apply]
  by_cases hvt : v = t
  · subst hvt
    rw [if_pos rfl]
    split
    · next hi => simp [hi, hchan]
    · next hi => simp [hv, hnot, hchan, Ne.symm hi]
  · rw [if_neg hvt]
    split
    · next hi => simp [hvt, ← hi, hv]
    · exact hv

theorem Linked.dequeue (h : Linked queue thread)
    (hnodup : ∀ i, (queue i).Nodup) (hchan : th.chan = 0) :
    Linked (Function.update queue (sleepHash (thread u).chan)
      ((queue (sleepHash (thread u).chan)).erase u)) (Function.update thread u th) := by
  intro v i
  have hv := h v i
  rw [update_apply, update_apply]
  by_cases hvu : v = u
  · subst hvu
    rw [if_pos rfl, hchan]
    refine iff_of_false ?_ fun hne => hne.1 rfl
    split
    · exact (hnodup _).not_mem_erase
    · next hi => exact fun hmem => hi (hv.1 hmem).2.symm
  · rw [if_neg hvu]
    split
    · next hi => rw [mem_erase_of_ne hvu, ← hi, hv]
    · exact hv

/-- A thread is taken off its queue. -/
theorem Inv.dequeue (h : Inv s) (hchan : th.chan = 0)
    (hgen : th.gen = (s.thread u).gen) (hok : th.Ok)
    (hlate : (s.thread u).place.late = true → th.place.late = true)
    (hholds : ∀ w hold, lock = some (w, hold) → Holds (Function.update s.thread u th) hold)
    (hsleeps : th.place.sleeps = true → ∃ w hold, lock = some (w, hold) ∧ hold.target = some u)
    (htarget : ∀ v ≠ u, ∀ w hold, s.sleepLock = some (w, hold) → hold.target = some v →
      ∃ w hold, lock = some (w, hold) ∧ hold.target = some v)
    (hcalled : ∀ w hold chan, s.sleepLock = some (w, hold) → hold.chan = some chan →
      ∃ w hold, lock = some (w, hold) ∧ hold.chan = some chan) :
    Inv (((s.queueRemove (s.thread u).chan u).put u th).setLock lock) where
  linked := h.linked.dequeue h.once hchan
  once i := by
    change (Function.update s.queue _ _ i).Nodup
    rw [update_apply]
    split
    · exact (h.once _).erase u
    · exact h.once i
  ok := h.ok_put hok
  holds := hholds
  asleep := h.asleep.update (fun hs => .inr (hsleeps hs)) htarget
  called := by
    refine (forall_update_iff s.thread (p := fun v th => s.called v = true →
      th.chan = 0 ∨ ∃ w hold, lock = some (w, hold) ∧ hold.chan = some th.chan)).2
      ⟨fun _ => .inl hchan, fun v _ hv => (h.called v hv).imp_right ?_⟩
    rintro ⟨w, hold, hlock, hc⟩
    exact hcalled w hold _ hlock hc
  timed := h.timed.update hgen hlate

/-! The steps of a thread that sleeps. -/

omit [DecidableEq T] in
theorem Inv.chan_eq_zero (h : Inv s) (hsleeps : (s.thread t).place.sleeps = false)
    (hbetween : (s.thread t).place.isBetween = false) : (s.thread t).chan = 0 :=
  (h.ok t).awake hsleeps hbetween

theorem Place.begins_quiet (h : p.begins = true) :
    p.sleeps = false ∧ p.isBetween = false ∧ p.late = false := by
  cases p <;> simp_all [begins, sleeps, isBetween, late]

theorem Thread.Ok.enter {th : Thread} (hok : th.Ok) {pri : ℤ} : (th.enter chan pri limit).Ok := by
  refine ⟨fun _ hb => (by cases hb), trivial, ?_⟩
  unfold Thread.enter
  dsimp only
  split
  · next v hv =>
    have hverdict := hok.place
    rw [hv] at hverdict
    exact forall_mem_cons.2 ⟨hverdict, hok.outer⟩
  · exact hok.outer

theorem Timed.enter (h : Timed thread timers firing) (hlate : (thread t).place.late = false)
    (hfits : ∀ p ∈ firing, p.1 ≠ t) : Timed (Function.update thread t th) timers firing := by
  refine ⟨fun p hp => ?_, fun p hp => ?_⟩
  · have hne : p.1 ≠ t := by
      rintro rfl
      rw [(h.1 p hp).2] at hlate
      cases hlate
    rw [update_of_ne hne]
    exact h.1 p hp
  · rw [update_of_ne (hfits p hp)]
    exact h.2 p hp

theorem Inv.tsleepEnter (h : Inv s) {pri : ℤ}
    (hbegins : (s.thread t).place.begins = true) (hlock : s.sleepLock = none) (hchan : chan ≠ 0)
    (hfits : ∀ p ∈ s.firing, p.1 ≠ t) : Inv (s.tsleepEnter t chan pri limit) := by
  obtain ⟨hsleeps, hbetween, hlate⟩ := begins_quiet hbegins
  have hzero := h.chan_eq_zero hsleeps hbetween
  have hnot : t ∉ s.queue (sleepHash chan) := fun hmem => ((h.linked t _).1 hmem).1 hzero
  have hthread : (s.tsleepEnter t chan pri limit).thread =
      Function.update s.thread t ((s.thread t).enter chan pri limit) := rfl
  have hqueue : (s.tsleepEnter t chan pri limit).queue = Function.update s.queue (sleepHash chan)
      (s.queue (sleepHash chan) ++ [t]) := rfl
  refine ⟨?linked, fun i => ?once, ?ok, fun w hold hl => ?holds, ?asleep, ?called, ?timed⟩
  case linked =>
    rw [hthread, hqueue]
    generalize hth : (s.thread t).enter chan pri limit = th
    have hchan' : th.chan = chan := by rw [← hth]; rfl
    rw [← hchan'] at hchan ⊢
    exact h.linked.enqueue hzero hchan
  case once =>
    rw [hqueue, update_apply]
    split
    · exact concat_eq_append ▸ (h.once _).concat hnot
    · exact h.once i
  case ok =>
    rw [hthread]
    exact h.ok_put (h.ok t).enter
  case holds =>
    rw [show (s.tsleepEnter t chan pri limit).sleepLock = s.sleepLock from rfl, hlock] at hl
    cases hl
  case asleep =>
    rw [hthread]
    refine h.asleep.update (fun hs => ?_) fun v _ w hold hl htarget => ⟨w, hold, hl, htarget⟩
    rw [show ((s.thread t).enter chan pri limit).place.sleeps = false from rfl] at hs
    cases hs
  case called =>
    rw [hthread]
    intro v hv
    rw [show (s.tsleepEnter t chan pri limit).called = Function.update s.called t false from rfl,
      update_apply] at hv
    split at hv
    · cases hv
    · next hne =>
      rw [update_of_ne hne]
      exact h.called v hv
  case timed =>
    rw [hthread]
    exact h.timed.enter hlate hfits

omit [DecidableEq T] in
theorem Inv.congr {s' : System T} (h : Inv s) (hthread : s'.thread = s.thread)
    (hqueue : s'.queue = s.queue) (hlock : s'.sleepLock = s.sleepLock)
    (hcalled : s'.called = s.called) (htimed : Timed s.thread s'.timers s'.firing) : Inv s' where
  linked := by rw [hqueue, hthread]; exact h.linked
  once := by rw [hqueue]; exact h.once
  ok := by rw [hthread]; exact h.ok
  holds := by rw [hlock, hthread]; exact h.holds
  asleep := by rw [hlock, hthread]; exact h.asleep
  called := by rw [hlock, hthread, hcalled]; exact h.called
  timed := by rw [hthread]; exact htimed

theorem Inv.between (h : Inv s) (hp : (s.thread t).place = .between limit)
    (hfits : Fits s (.turn t)) : Inv (s.mainTurn t) := by
  have hok := h.ok t
  unfold mainTurn
  simp only [hp]
  split
  · exact h
  · next hlock =>
    rw [not_not] at hlock
    split
    · next hzero =>
      exact h.put rfl ⟨fun _ _ => hzero, nofun, hok.outer⟩ nofun
        (h.timed.update rfl (by rw [hp]; exact nofun))
    · next hchan =>
      rw [if_neg (hfits hlock (by rw [hp]; rfl) hchan)]
      exact h.put rfl ⟨nofun, trivial, hok.outer⟩ (fun _ => .inr hchan)
        (h.timed.update rfl (by rw [hp]; exact nofun))

@[simp]
theorem System.put_thread : (s.put t th).thread = Function.update s.thread t th := rfl

theorem Inv.arming (h : Inv s) (hp : (s.thread t).place = .arming limit) : Inv (s.mainTurn t) := by
  have hok := h.ok t
  unfold mainTurn
  simp only [hp]
  generalize hth : { s.thread t with
    timedout := (s.thread t).timedout || limit, place := .armed } = th
  have htimed : Timed (Function.update s.thread t th) s.timers s.firing :=
    h.timed.update (by rw [← hth]) (by rw [hp]; exact nofun)
  have htimed' : Timed (Function.update s.thread t th)
      (if limit then (t, (s.thread t).gen) :: s.timers else s.timers) s.firing := by
    refine ⟨fun p hmem => ?_, htimed.2⟩
    split at hmem
    · rcases mem_cons.1 hmem with rfl | hmem
      · rw [update_self, ← hth]
        exact ⟨rfl, rfl⟩
      · exact htimed.1 p hmem
    · exact htimed.1 p hmem
  have hput := h.put (by rw [← hth]) (hth ▸ ⟨nofun, trivial, hok.outer⟩)
    (fun _ => .inl (by rw [hp]; rfl)) htimed'
  exact hput.congr rfl rfl rfl rfl htimed'

theorem Inv.signalled (h : Inv s) (hp : (s.thread t).place = .signalled) : Inv (s.mainTurn t) := by
  have hok := h.ok t
  unfold mainTurn
  simp only [hp]
  have htime : (s.thread t).timedout → (s.thread t).expired := by
    have hplace := hok.place
    rwa [hp] at hplace
  have hzero : (s.thread t).chan = 0 := h.chan_eq_zero (by rw [hp]; rfl) (by rw [hp]; rfl)
  refine h.put rfl ⟨fun _ _ => hzero, htime, hok.outer⟩ nofun
    ⟨fun p hmem => ?_, fun p hmem => (h.timed.2 p hmem).trans (gen_update ?_ _).symm⟩
  · -- its own timeout is off the list
    obtain ⟨hmem, hne⟩ := mem_filter.1 hmem
    have hother : p.1 ≠ t := fun heq => of_decide_eq_true hne (Prod.ext heq (by
      rw [(h.timed.1 p hmem).1, heq]))
    rw [update_of_ne hother]
    exact h.timed.1 p hmem
  · rfl

theorem Inv.leaving (h : Inv s)
    (hp : (s.thread t).place = .leaving timedOut own) : Inv (s.mainTurn t) := by
  have hok := h.ok t
  unfold mainTurn
  simp only [hp]
  split
  · have hplace := hok.place
    rw [hp] at hplace
    have hzero : (s.thread t).chan = 0 := h.chan_eq_zero (by rw [hp]; rfl) (by rw [hp]; rfl)
    generalize hth : { s.thread t with
      place := .deciding ⟨(s.thread t).interruptible, timedOut, own⟩ } = th
    have htimed : Timed (Function.update s.thread t th) s.timers s.firing :=
      h.timed.update (by rw [← hth]) (by rw [hp]; exact nofun)
    have hput := h.put (by rw [← hth]) (hth ▸ ⟨fun _ _ => hzero, hplace, hok.outer⟩)
      (by rw [← hth]; exact nofun) htimed
    exact hput.congr rfl rfl rfl rfl htimed
  · exact h

theorem Inv.mainTurn (h : Inv s) (hfits : Fits s (.turn t)) : Inv (s.mainTurn t) := by
  rcases hp : (s.thread t).place with _ | limit | limit | _ | _ | _ | ⟨timedOut, own⟩ | v
  case between => exact h.between hp hfits
  case arming => exact h.arming hp
  case signalled => exact h.signalled hp
  case leaving => exact h.leaving hp
  case armed =>
    have hok := h.ok t
    unfold System.mainTurn
    simp only [hp]
    exact h.put rfl ⟨nofun, trivial, hok.outer⟩ (fun _ => .inl (by rw [hp]; rfl))
      (h.timed.update rfl fun _ => rfl)
  all_goals
    unfold System.mainTurn
    simp only [hp]
    exact h

/-! The steps of a thread with `sleep_lock`. -/

omit [DecidableEq T] in
theorem Inv.setLock (h : Inv s) {lock : Option (T × Hold T)}
    (hholds : ∀ w hold, lock = some (w, hold) → Holds s.thread hold)
    (hasleep : Asleep s.thread lock) (hcalled : Called s.thread lock s.called) :
    Inv (s.setLock lock) :=
  ⟨h.linked, h.once, h.ok, hholds, hasleep, hcalled, h.timed⟩

theorem Place.signal_sleeps (h : p.locked = false) : p.signal.sleeps = false := by
  cases p <;> simp_all [Place.locked, signal, sleeps]

theorem Place.signal_late (h : p.late = true) : p.signal.late = true := by
  cases p <;> simp_all [signal, late]

theorem Place.signal_of_awake (h : p.sleeps = false) : p.signal = p := by
  cases p <;> simp_all [signal, sleeps]

theorem Place.Ok.signal {timedout expired timedout' expired' : Bool}
    (h : p.Ok timedout expired) (htime : timedout' = true → expired' = true) :
    p.signal.Ok timedout' expired' := by
  cases p with
  | waiting | signalled => exact htime
  | _ => exact h

/-- The end of a wakeup: `condition_signal` for a thread that is off its queue. -/
theorem Inv.signal (h : Inv s)
    (hlock : s.sleepLock = some (w, hold)) (htarget : hold.target = some u)
    (hfree : (s.thread u).place.locked = false)
    (hholds : ∀ w hold, lock = some (w, hold) → Holds s.thread hold)
    (hcalled : ∀ chan, hold.chan = some chan → ∃ w hold, lock = some (w, hold) ∧
      hold.chan = some chan) : Inv ((s.signal u).setLock lock) := by
  have hok := h.ok u
  have hzero := (h.holds w hold hlock).target u htarget
  have hput : Inv (s.signal u) := h.put rfl ⟨fun _ _ => hzero, hok.place.signal nofun, hok.outer⟩
    (fun hs => by rw [signal_sleeps hfree] at hs; cases hs)
    (h.timed.update rfl signal_late)
  refine hput.setLock (fun w' hold' hlock' => (hholds w' hold' hlock').put rfl) ?_ ?_
  · -- no other thread was to be signalled
    refine h.asleep.update (fun hs => by rw [signal_sleeps hfree] at hs; cases hs)
      fun v hv w' hold' hlock' htarget' => ?_
    rw [hlock] at hlock'
    cases hlock'
    rw [htarget] at htarget'
    cases htarget'
    exact absurd rfl hv
  · intro v hv
    refine (hput.called v hv).imp_right ?_
    rintro ⟨w', hold', hlock', hc⟩
    have hlock' : s.sleepLock = some (w', hold') := hlock'
    rw [hlock] at hlock'
    cases hlock'
    exact hcalled _ hc

omit [DecidableEq T] in
theorem Scans.tail {thread : T → Thread} {chan : ℕ} {todo : List T}
    (h : Scans thread chan (u :: todo)) (hu : (thread u).chan ≠ chan) : Scans thread chan todo := by
  refine ⟨h.nodup.of_cons, fun v hv => h.mem v (.tail u hv), fun v hv hne => ?_⟩
  refine (mem_cons.1 (h.all v hv hne)).resolve_left ?_
  rintro rfl
  exact hu hv

theorem Scans.dequeue (h : Scans thread chan (u :: todo)) (hth : th.chan = 0) :
    Scans (Function.update thread u th) chan todo := by
  refine ⟨h.nodup.of_cons, fun v hv => ?_, fun v hv hne => ?_⟩
  · have hvu : v ≠ u := by
      rintro rfl
      exact (nodup_cons.1 h.nodup).1 hv
    rw [update_of_ne hvu]
    exact h.mem v (.tail u hv)
  · have hvu : v ≠ u := by
      rintro rfl
      rw [update_self, hth] at hv
      exact hne hv.symm
    rw [update_of_ne hvu] at hv
    exact (mem_cons.1 (h.all v hv hne)).resolve_left hvu

theorem Inv.wake (h : Inv s)
    (hlock : s.sleepLock = some (w, .wake chan todo)) : Inv (s.holdTurn w (.wake chan todo)) := by
  have hscans := (h.holds w _ hlock).scans chan rfl
  have htarget : ∀ v, ∀ w' hold, s.sleepLock = some (w', hold) → hold.target ≠ some v := by
    intro v w' hold hlock' ht
    rw [hlock] at hlock'
    cases hlock'
    cases ht
  have hchan : ∀ w' hold c, s.sleepLock = some (w', hold) → hold.chan = some c → c = chan := by
    intro w' hold c hlock' hc
    rw [hlock] at hlock'
    cases hlock'
    cases hc
    rfl
  have hasleep : ∀ lock, Asleep s.thread lock := fun lock v hv =>
    .inl ((h.asleep v hv).resolve_right fun ⟨w', hold, hlock', ht⟩ => htarget v w' hold hlock' ht)
  cases todo with
  | nil =>
    refine h.setLock nofun (hasleep none) fun v hv => ?_
    by_contra hne
    rw [not_or] at hne
    obtain ⟨w', hold, hlock', hc⟩ := (h.called v hv).resolve_left hne.1
    have heq := hchan w' hold _ hlock' hc
    exact not_mem_nil (hscans.all v heq (heq ▸ hne.1))
  | cons u todo =>
    unfold holdTurn
    dsimp only
    split
    · next hu =>
      have hok := h.ok u
      refine h.dequeue rfl rfl ⟨fun _ _ => rfl, hok.place, hok.outer⟩ id ?_
        (fun _ => ⟨w, _, rfl, rfl⟩)
        (fun v _ w' hold hlock' ht => (htarget v w' hold hlock' ht).elim)
        fun w' hold c hlock' hc => ⟨w, _, rfl, congrArg some (hchan w' hold c hlock' hc).symm⟩
      rintro w' hold heq
      cases heq
      refine ⟨fun c hc => ?_, fun v hv => ?_⟩
      · cases hc
        exact hscans.dequeue rfl
      · cases hv
        rw [update_self]
    · next hu =>
      refine h.setLock (fun w' hold heq => ?_) (hasleep _) fun v hv => ?_
      · cases heq
        refine ⟨fun c hc => ?_, nofun⟩
        cases hc
        exact hscans.tail hu
      · refine (h.called v hv).imp_right ?_
        rintro ⟨w', hold, hlock', hc⟩
        exact ⟨w, _, rfl, congrArg some (hchan w' hold _ hlock' hc).symm⟩

theorem Inv.holdTurn (h : Inv s)
    (hlock : s.sleepLock = some (w, hold)) : Inv (s.holdTurn w hold) := by
  cases hold with
  | wake chan todo => exact h.wake hlock
  | wakeSignal chan u todo =>
    unfold holdTurn
    dsimp only
    split
    · exact h
    · next hfree =>
      refine h.signal hlock rfl (Bool.eq_false_iff.2 hfree) (fun w' hold heq => ?_)
        fun c hc => ⟨w, _, rfl, hc⟩
      cases heq
      exact ⟨(h.holds w _ hlock).scans, nofun⟩
  | unsleepSignal u =>
    unfold holdTurn
    dsimp only
    split
    · exact h
    · next hfree => exact h.signal hlock rfl (Bool.eq_false_iff.2 hfree) nofun nofun

/-! The other events. -/

theorem Inv.wakeup (h : Inv s) (hlock : s.sleepLock = none) : Inv (s.event (.wakeup w chan)) := by
  unfold event
  dsimp only
  split
  · refine ⟨h.linked, h.once, h.ok, fun w' hold heq => ?_, ?_, fun v hv => ?_, h.timed⟩
    · cases heq
      refine ⟨fun c hc => ?_, nofun⟩
      cases hc
      exact ⟨h.once _, fun v hv => ((h.linked v _).1 hv).1,
        fun v hv hne => (h.linked v _).2 ⟨hv ▸ hne, congrArg sleepHash hv⟩⟩
    · intro v hv
      refine .inl ((h.asleep v hv).resolve_right ?_)
      rintro ⟨w', hold, hlock', -⟩
      rw [hlock] at hlock'
      cases hlock'
    · rcases Bool.or_eq_true_iff.1 hv with hv | hv
      · refine .inl ((h.called v hv).resolve_right ?_)
        rintro ⟨w', hold, hlock', -⟩
        rw [hlock] at hlock'
        cases hlock'
      · exact .inr ⟨w, _, rfl, congrArg some (of_decide_eq_true hv).symm⟩
  · exact h

theorem Inv.unsleep (h : Inv s) (hlock : s.sleepLock = none) :
    Inv ((s.dequeue u).setLock (some (w, .unsleepSignal u))) := by
  have hok := h.ok u
  have hidle : ∀ {w' hold}, s.sleepLock = some (w', hold) → False := by
    intro w' hold hlock'
    rw [hlock] at hlock'
    cases hlock'
  refine h.dequeue rfl rfl ⟨fun _ _ => rfl, hok.place, hok.outer⟩ id (fun w' hold heq => ?_)
    (fun _ => ⟨w, _, rfl, rfl⟩) (fun _ _ _ _ hlock' => (hidle hlock').elim)
    fun _ _ _ hlock' => (hidle hlock').elim
  cases heq
  refine ⟨nofun, fun v hv => ?_⟩
  cases hv
  rw [update_self]

theorem Timed.expire (h : Timed thread timers firing) {p : T × ℕ} (hp : p ∈ timers) :
    Timed thread (timers.erase p) (p :: firing) :=
  ⟨fun q hq => h.1 q (mem_of_mem_erase hq), forall_mem_cons.2 ⟨(h.1 p hp).1, h.2⟩⟩

theorem Inv.uthreadWakeup (h : Inv s) {p : T × ℕ} (hp : p ∈ s.firing)
    (hlock : s.sleepLock = none) (hfree : (s.thread p.1).place.locked = false) :
    Inv (s.uthreadWakeup p) := by
  have hok := h.ok p.1
  have hidle : ∀ {w' hold}, s.sleepLock = some (w', hold) → False := by
    intro w' hold hlock'
    rw [hlock] at hlock'
    cases hlock'
  have hgen : decide (p.2 = (s.thread p.1).gen) = true := decide_eq_true (h.timed.2 p hp)
  have hfiring : Inv { s with firing := s.firing.erase p } := h.congr rfl rfl rfl rfl
    ⟨h.timed.1, fun q hq => h.timed.2 q (mem_of_mem_erase hq)⟩
  unfold System.uthreadWakeup
  dsimp only
  split
  · next hzero =>
    -- it does not wait, for nothing would wake it
    have hawake : (s.thread p.1).place.sleeps = false := by
      by_contra hs
      rw [Bool.not_eq_false] at hs
      rcases h.asleep p.1 hs with hne | ⟨w, hold, hlock', -⟩
      · exact hne hzero
      · exact hidle hlock'
    rw [signal_of_awake hawake]
    exact hfiring.put rfl ⟨hok.awake, hok.place, hok.outer⟩ (fun hs => .inl hs)
      (hfiring.timed.update rfl id)
  · next hne =>
    have hput : Inv ((({ s with firing := s.firing.erase p }.queueRemove (s.thread p.1).chan
        p.1).put p.1 ((s.thread p.1).wakeup p.2)).setLock none) :=
      hfiring.dequeue rfl rfl
        ⟨fun _ _ => rfl, hok.place.signal fun _ => hgen, hok.outer⟩ signal_late nofun
        (fun hs => absurd ((signal_sleeps hfree).symm.trans hs) Bool.false_ne_true)
        (fun _ _ _ _ hlock' => (hidle hlock').elim) fun _ _ _ hlock' => (hidle hlock').elim
    exact hput.congr rfl rfl hlock rfl hput.timed

theorem Inv.decide (h : Inv s) {issig : Bool} : Inv (s.event (.decide t issig)) := by
  have hok := h.ok t
  unfold event
  dsimp only
  split
  · next v hp houter =>
    split
    · exact h.put rfl ⟨fun _ _ => h.chan_eq_zero (by rw [hp]; rfl) (by rw [hp]; rfl), trivial,
        hok.outer⟩ nofun (h.timed.update rfl (by rw [hp]; exact nofun))
    · exact h
  · next v v' outer hp houter =>
    have hverdicts := forall_mem_cons.1 (houter ▸ hok.outer)
    split
    · exact h.put rfl ⟨fun _ _ => h.chan_eq_zero (by rw [hp]; rfl) (by rw [hp]; rfl), hverdicts.1,
        hverdicts.2⟩ nofun (h.timed.update rfl (by rw [hp]; exact nofun))
    · exact h
  · exact h

theorem Inv.event (h : Inv s) {e : Event T} (hfits : Fits s e) : Inv (s.event e) := by
  cases e with
  | tsleepEnter t chan pri limit =>
    unfold System.event
    dsimp only
    split
    · next hguard => exact h.tsleepEnter hguard.1 hguard.2.1 hguard.2.2.2 hfits
    · exact h
  | turn t =>
    unfold System.event
    dsimp only
    split
    · next w hold hlock =>
      split
      · exact h.holdTurn hlock
      · exact h.mainTurn hfits
    · exact h.mainTurn hfits
  | decide t issig => exact h.decide
  | wakeup w chan =>
    by_cases hguard : s.runs w ∧ s.sleepLock = none
    · exact h.wakeup hguard.2
    · rw [System.event, if_neg hguard]
      exact h
  | unsleep w u =>
    unfold System.event
    dsimp only
    split
    · next hguard => exact h.unsleep hguard.2.1
    · exact h
  | expire p =>
    unfold System.event
    dsimp only
    split
    · next hp => exact h.congr rfl rfl rfl rfl (h.timed.expire hp)
    · exact h
  | uthreadWakeup p =>
    unfold System.event
    dsimp only
    split
    · next hguard =>
      exact h.uthreadWakeup hguard.1 hguard.2.1 (by simpa using hguard.2.2)
    · exact h
  | takeMaster t =>
    unfold System.event
    dsimp only
    split
    · exact h.congr rfl rfl rfl rfl h.timed
    · exact h
  | dropMaster t =>
    unfold System.event
    dsimp only
    split
    · exact h.congr rfl rfl rfl rfl h.timed
    · exact h
  | sets t pending procExit =>
    have hok := h.ok t
    have hput : Inv (s.put t { s.thread t with procExit }) :=
      h.put rfl ⟨hok.awake, hok.place, hok.outer⟩ .inl (h.timed.update rfl id)
    exact hput.congr rfl rfl rfl rfl hput.timed

omit [DecidableEq T] in
theorem Inv.init : Inv (System.init : System T) where
  linked _ _ := iff_of_false not_mem_nil fun h => h.1 rfl
  once _ := nodup_nil
  ok _ := ⟨fun _ _ => rfl, trivial, nofun⟩
  holds := nofun
  asleep := nofun
  called := nofun
  timed := ⟨nofun, nofun⟩

theorem System.mainTurn_leaving
    (hp : (s.thread t).place = .leaving timedOut own) (hmaster : s.master = none) :
    ((s.mainTurn t).thread t).place.begins = true := by
  unfold mainTurn
  simp only [hp, if_pos hmaster, System.put, update_self]
  rfl

theorem System.leaves (hlock : s.sleepLock = none) (hmaster : s.master = none)
    (hsleeps : (s.thread t).place.sleeps = false) (hzero : (s.thread t).chan = 0) :
    ∃ n, (((mainTurn · t)^[n] s).thread t).place.begins := by
  rcases hp : (s.thread t).place with _ | limit | limit | _ | _ | _ | ⟨timedOut, own⟩ | v
  case code | deciding => exact ⟨0, by simp only [Function.iterate_zero, id, hp]; rfl⟩
  case between =>
    refine ⟨1, ?_⟩
    rw [Function.iterate_one]
    unfold mainTurn
    simp only [hp, hlock, ne_eq, not_true_eq_false, if_false, hzero, if_true, System.put,
      update_self]
    rfl
  case signalled =>
    have hstep : ((s.mainTurn t).thread t).place =
        .leaving (s.thread t).timedout (s.thread t).expired := by
      unfold mainTurn
      simp only [hp, System.put, update_self]
    have hmaster' : (s.mainTurn t).master = none := by
      unfold mainTurn
      simp only [hp, System.put, hmaster]
    exact ⟨2, mainTurn_leaving hstep hmaster'⟩
  case leaving => exact ⟨1, mainTurn_leaving hp hmaster⟩
  all_goals
    rw [hp] at hsleeps
    cases hsleeps

omit [DecidableEq T] in
theorem Inv.woken (h : Inv s) (hcalled : s.called t = true)
    (hpart : (s.thread t).place.sleeps = true ∨ (s.thread t).chan ≠ 0) :
    ∃ w hold, s.sleepLock = some (w, hold) ∧ (hold.target = some t ∨
      hold.chan = some (s.thread t).chan ∧ t ∈ hold.todo) := by
  by_cases hzero : (s.thread t).chan = 0
  · have hsleeps := hpart.resolve_right (not_not.2 hzero)
    obtain ⟨w, hold, hlock, htarget⟩ := (h.asleep t hsleeps).resolve_left (not_not.2 hzero)
    exact ⟨w, hold, hlock, .inl htarget⟩
  · obtain ⟨w, hold, hlock, hc⟩ := (h.called t hcalled).resolve_left hzero
    exact ⟨w, hold, hlock, .inr ⟨hc, ((h.holds w hold hlock).scans _ hc).all t rfl hzero⟩⟩

theorem Inv.safe (h : Inv s) : Safe s where
  linked := h.linked
  once := h.once
  woken _ := h.woken
  leaves t hcalled hlock hmaster := by
    have hnot : ¬((s.thread t).place.sleeps = true ∨ (s.thread t).chan ≠ 0) := by
      intro hpart
      obtain ⟨w, hold, hlock', -⟩ := h.woken hcalled hpart
      rw [hlock] at hlock'
      cases hlock'
    rw [not_or, not_not, Bool.not_eq_true] at hnot
    exact leaves hlock hmaster hnot.1 hnot.2
  fires p hp _ := h.timed.2 p hp
  time t v issig hp htime := by
    have hverdict := (h.ok t).place
    rw [hp] at hverdict
    refine hverdict ?_
    unfold Verdict.result at htime
    split at htime
    · cases htime
    · split at htime
      · assumption
      · cases htime
  sig t v issig hp hsig := by
    unfold Verdict.result at hsig
    split at hsig
    · next hcond => exact hcond.2.1
    · split at hsig <;> cases hsig

end Put

/-- While no timeout is late and no thread finds a signal on its way into a sleep, every state that
any number of threads reach is safe. -/
theorem sleepRuns_safe {T : Type} [DecidableEq T] (es : List (Event T))
    (hes : Runs.Along System.step Fits System.init es) : Safe (System.run es) :=
  (hes.foldl (fun _ _ h hfits => h.event hfits) Inv.init : Inv (System.run es)).safe

/-- The time limit of a sleep expires; the thread sleeps again, on the channel of another, and a
third wakes both. -/
def twoSleeps : List (Event (Fin 3)) :=
  [.takeMaster 0, .tsleepEnter 0 65536 30 true, .turn 0, .turn 0, .turn 0, .takeMaster 1,
    .tsleepEnter 1 131072 20 false, .turn 1, .turn 1, .expire (0, 1), .turn 1,
    .uthreadWakeup (0, 1), .turn 0, .turn 0, .decide 0 false, .tsleepEnter 0 131072 30 false,
    .turn 0, .turn 0, .turn 0, .wakeup 2 131072, .turn 2, .turn 2, .turn 2, .turn 2, .turn 2,
    .turn 0, .turn 0]

theorem sleepRuns_safe_twoSleeps : Safe (System.run twoSleeps) :=
  sleepRuns_safe twoSleeps (by decide +kernel)

/-- A thread comes to `tsleep_main` with a signal and leaves its queue by itself. -/
def signalFirst : List (Event (Fin 2)) :=
  [.takeMaster 0, .tsleepEnter 0 65536 30 false, .sets 0 true false, .turn 0]

theorem signalFirst_not_safe : ¬Safe (System.run signalFirst) := by
  intro h
  have hlinked := h.linked 0 (sleepHash 65536)
  revert hlinked
  decide +kernel

end MachKernel.Ux.Sleep
