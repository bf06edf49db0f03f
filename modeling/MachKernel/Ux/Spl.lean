import MachKernel.Lib.Runs

/-! The priority levels of the Unix server (`mach_synch.c`): a lock for each level, which threads
take and release in `spl_n`, `interrupt_enter` and `interrupt_exit`. -/

namespace MachKernel.Ux.Spl
open Function List Option

abbrev splCount : ℕ := 6
abbrev splnet : ℤ := 2

/-- Where a thread is that wants the lock of a level. -/
inductive Turn
  | asks
  | asleep
  | signalled
  deriving DecidableEq

/-- A call of `spl_n`, by where it is. -/
inductive Call
  -- taking the level `i`
  | raising (old new i : ℤ) (turn : Turn)
  -- releasing the level `i`
  | lowering (old new i : ℤ)
  -- it is released, and its condition is still to be signalled
  | signalling (old new i : ℤ)
  -- at the test for software interrupts
  | simulate (old new : ℤ)
  -- in its call of `splnet`
  | splnet (old : ℤ)
  -- in `dosoftnet`, with the level to go back to
  | softnet (old s : ℤ)
  -- in its call of `splx`
  | splx (old : ℤ)
  deriving DecidableEq

/-- Where a thread is outside `spl_n`. -/
inductive Place
  -- its own code
  | code
  -- in `interrupt_enter`
  | entering (level : ℤ) (turn : Turn)
  -- in `interrupt_exit`: releasing the level `i`
  | leaving (level i : ℤ)
  | leaveSignal (level i : ℤ)
  -- at its test for software interrupts
  | testing (level : ℤ)
  -- looking whether the level `i` is held
  | checking (i : ℤ)
  -- in its call of `interrupt_enter`
  | enteringNet (turn : Turn)
  -- in `dosoftnet`
  | softnet
  deriving DecidableEq

structure Thread where
  -- `u_ipl`
  ipl : ℤ
  -- the level at which an interrupt thread has entered
  entered : Option ℤ
  -- the calls of `spl_n` that it is in, the innermost first
  calls : List Call
  place : Place
  deriving DecidableEq

open Thread

structure System (T : Type) where
  -- `spl_locks`: the holders, and the threads that wait on the conditions
  holder : ℤ → Option T
  waiters : ℤ → List T
  thread : T → Thread
  netisr : Bool

open Spl.System

/-- What can happen next. -/
inductive Event (T : Type)
  -- the code that a thread runs calls `spl_n`
  | spl (t : T) (new : Fin splCount)
  -- an interrupt thread calls `interrupt_enter`, and then `interrupt_exit` with the same level
  | enter (t : T) (level : Fin splCount)
  | exit (t : T)
  -- the next step of a thread in one of these routines
  | turn (t : T)
  -- `dosoftnet` returns
  | softnetDone (t : T)
  -- `schednetisr`, or `dosoftnet` clears a bit
  | sched (netisr : Bool)
  deriving DecidableEq

/-- `spl_n` from its test of the two levels on. -/
def splN (old new : ℤ) : Call := if old < new then .raising old new (old + 1) .asks
  else .lowering old new old

/-- What the callers of a call of `spl_n` do when it returns. -/
def returns (old : ℤ) : List Call → List Call
  | .splnet o :: rest => .softnet o old :: rest
  | .splx o :: rest => returns o rest
  | rest => rest

namespace Thread
variable (th : Thread)

/-- It runs code of its own, or that of `dosoftnet`. -/
def inCode : Bool := match th.calls, th.place with
  | .softnet _ _ :: _, _ => true
  | [], .code => true
  | [], .softnet => true
  | _, _ => false

/-- The level on whose condition it waits. -/
def asleepAt : Option ℤ := match th.calls, th.place with
  | .raising _ _ i .asleep :: _, _ => some i
  | [], .entering level .asleep => some level
  | [], .enteringNet .asleep => some Spl.splnet
  | _, _ => none

def signalled : Thread := match th.calls, th.place with
  | .raising old new i .asleep :: rest, _ =>
    { th with calls := .raising old new i .signalled :: rest }
  | [], .entering level .asleep => { th with place := .entering level .signalled }
  | [], .enteringNet .asleep => { th with place := .enteringNet .signalled }
  | _, _ => th

end Thread

namespace System
variable {T : Type} (s : System T)

def setHolder (i : ℤ) (h : Option T) : System T :=
  { s with holder := update s.holder i h }

def setWaiters (i : ℤ) (l : List T) : System T :=
  { s with waiters := update s.waiters i l }

@[simp] theorem setHolder_holder (i : ℤ) (h : Option T) :
    (s.setHolder i h).holder = update s.holder i h := rfl
@[simp] theorem setWaiters_waiters (i : ℤ) (l : List T) :
    (s.setWaiters i l).waiters = update s.waiters i l := rfl
@[simp] theorem setWaiters_thread (i : ℤ) (l : List T) : (s.setWaiters i l).thread = s.thread := rfl

variable [DecidableEq T] (t : T)

def put (th : Thread) : System T := { s with thread := update s.thread t th }

@[simp] theorem put_holder (th : Thread) : (s.put t th).holder = s.holder := rfl
@[simp] theorem put_waiters (th : Thread) : (s.put t th).waiters = s.waiters := rfl
@[simp] theorem put_thread (th : Thread) :
    (s.put t th).thread = update s.thread t th := rfl

/-- The loop that takes the lock of a level: with `taken` once it is held, or asleep. -/
def take (i : ℤ) (taken asleep : Thread) : System T :=
  if s.holder i = none ∨ s.holder i = some t then (s.setHolder i (some t)).put t taken
  else (s.put t asleep).setWaiters i (s.waiters i ++ [t])

/-- `condition_signal`. -/
def signal (i : ℤ) : System T := match s.waiters i with
  | [] => s
  | u :: rest => (s.put u (s.thread u).signalled).setWaiters i rest

/-- A step in `spl_n`. -/
def callTurn (th : Thread) (call : Call) (rest : List Call) : System T := match call with
  | .raising _ _ _ .asleep => s
  | .raising old new i _ =>
    if new < i then s.put t { th with ipl := new, calls := .simulate old new :: rest }
    else s.take t i { th with calls := .raising old new (i + 1) .asks :: rest }
      { th with calls := .raising old new i .asleep :: rest }
  | .lowering old new i =>
    if new < i then
      (s.setHolder i none).put t { th with calls := .signalling old new i :: rest }
    else s.put t { th with ipl := new, calls := .simulate old new :: rest }
  | .signalling old new i =>
    (s.put t { th with calls := .lowering old new (i - 1) :: rest }).signal i
  | .simulate old new =>
    if new < splnet ∧ s.netisr then
      s.put t { th with calls := splN th.ipl splnet :: .splnet old :: rest }
    else s.put t { th with calls := returns old rest }
  | .softnet _ _ | .splnet _ | .splx _ => s

/-- A step in `interrupt_enter` or `interrupt_exit`. The second of these ends with a call of itself
for the network level, after which each of the calls sets `u_ipl`: one does here. -/
def placeTurn (th : Thread) : System T := match th.place with
  | .code | .softnet | .entering _ .asleep | .enteringNet .asleep => s
  | .entering level _ =>
    s.take t level { th with ipl := level, entered := some level, place := .code }
      { th with place := .entering level .asleep }
  | .leaving level i =>
    if level ≤ i then (s.setHolder i none).put t { th with place := .leaveSignal level i }
    else s.put t { th with entered := none, place := .testing level }
  | .leaveSignal level i => (s.put t { th with place := .leaving level (i - 1) }).signal i
  | .testing level =>
    if s.netisr ∧ splnet ≤ level then s.put t { th with place := .checking level }
    else s.put t { th with ipl := -1, place := .code }
  | .checking i =>
    if i < splnet then s.put t { th with place := .enteringNet .asks }
    else if s.holder i = none then s.put t { th with place := .checking (i - 1) }
    else s.put t { th with ipl := -1, place := .code }
  | .enteringNet _ =>
    s.take t splnet { th with ipl := splnet, entered := some splnet, place := .softnet }
      { th with place := .enteringNet .asleep }

end System

section Events
variable {T : Type} [DecidableEq T] (interrupt : T → Bool) (s : System T)

/-- What an event does. An interrupt thread that has not entered is in no code that calls `spl_n`:
its `u_ipl` is negative there, and `spl_n` panics. -/
def System.event : Event T → System T
  | .spl t new =>
    let th := s.thread t
    if th.inCode ∧ (interrupt t → th.entered ≠ none) then
      s.put t { th with calls := splN th.ipl new :: th.calls }
    else s
  | .enter t level =>
    let th := s.thread t
    if interrupt t ∧ th.calls = [] ∧ th.place = .code ∧ th.entered = none then
      s.put t { th with place := .entering level .asks }
    else s
  | .exit t =>
    let th := s.thread t
    match interrupt t, th.calls, th.place, th.entered with
    | true, [], .code, some level => s.put t { th with place := .leaving level th.ipl }
    | _, _, _, _ => s
  | .turn t =>
    let th := s.thread t
    match th.calls with
    | call :: rest => s.callTurn t th call rest
    | [] => s.placeTurn t th
  | .softnetDone t =>
    let th := s.thread t
    match th.calls, th.place with
    | .softnet old level :: rest, _ =>
      s.put t { th with calls := splN th.ipl level :: .splx old :: rest }
    | [], .softnet => s.put t { th with place := .leaving splnet th.ipl }
    | _, _ => s
  | .sched netisr => { s with netisr }

def System.step (e : Event T) : Option (Unit × System T) := some ((), s.event interrupt e)

def System.init : System T where
  holder _ := none
  waiters _ := []
  thread t := ⟨if interrupt t then -1 else 0, none, [], .code⟩
  netisr := false

/-- The state that a sequence of events leads to. -/
def System.run (es : List (Event T)) : System T :=
  es.foldl (event interrupt) (System.init interrupt)

end Events

/-! What should hold in every state. -/

namespace Thread
variable (interrupt : Bool) (th : Thread)

/-- The lowest level that a thread holds when it holds any. -/
def base : Option ℤ := if interrupt then th.entered else some 1

/-- The highest level that it takes itself to hold: `u_ipl`, but for the loops. -/
def top : ℤ := match th.calls, th.place with
  | .raising _ _ i _ :: _, _ => i - 1
  | .lowering _ _ i :: _, _ => i
  | .signalling _ _ i :: _, _ => i - 1
  | _ :: _, _ => th.ipl
  | [], .leaving _ i => i
  | [], .leaveSignal _ i => i - 1
  | [], _ => th.ipl

/-- The levels that it takes itself to hold. -/
def Holds (i : ℤ) : Prop := ∃ b ∈ th.base interrupt, b ≤ i ∧ i ≤ th.top

/-- The level that its next step releases. -/
def releases : Option ℤ := match th.calls, th.place with
  | .lowering _ new i :: _, _ => if new < i then some i else none
  | [], .leaving level i => if level ≤ i then some i else none
  | _, _ => none

/-- The level whose condition it is about to signal, or has been signalled on. -/
def owes : Option ℤ := match th.calls, th.place with
  | .raising _ _ i .signalled :: _, _ => some i
  | .signalling _ _ i :: _, _ => some i
  | [], .entering level .signalled => some level
  | [], .enteringNet .signalled => some Spl.splnet
  | [], .leaveSignal _ i => some i
  | _, _ => none

end Thread

section Spec
variable {T : Type} (interrupt : T → Bool)

structure Safe (s : System T) : Prop where
  one : ∀ t u i, (s.thread t).Holds (interrupt t) i → (s.thread u).Holds (interrupt u) i → t = u
  ordinary : ∀ t, interrupt t = false → (s.thread t).inCode →
    ∀ i, s.holder i = some t ↔ 1 ≤ i ∧ i ≤ (s.thread t).ipl
  inside : ∀ t l, interrupt t = true → (s.thread t).entered = some l → (s.thread t).inCode →
    ∀ i, s.holder i = some t ↔ l ≤ i ∧ i ≤ (s.thread t).ipl
  left : ∀ t, interrupt t = true → (s.thread t).entered = none → ∀ i, s.holder i ≠ some t
  releases : ∀ t i, (s.thread t).releases = some i → s.holder i = some t
  waits : ∀ t i, (s.thread t).asleepAt = some i → s.holder i = none →
    ∃ u, (s.thread u).owes = some i

/-- An interrupt thread does not lower its priority below that of what it interrupted. -/
def Fits (s : System T) : Event T → Prop
  | .spl t new => interrupt t = true → ∀ l ∈ (s.thread t).entered, l ≤ (new : ℤ) + 1
  | _ => True

instance (s : System T) : DecidablePred (Fits interrupt s)
  | .spl t _ => inferInstanceAs (Decidable (_ → ∀ l ∈ (s.thread t).entered, _))
  | .enter _ _ | .exit _ | .turn _ | .softnetDone _ | .sched _ => isTrue trivial

end Spec

/-! The invariant: what holds of one thread. -/

/-- A call that waits for another or for `dosoftnet`. -/
def Call.outer : Call → Bool
  | .splnet _ | .softnet _ _ | .splx _ => true
  | _ => false

/-- Where a call may be in a thread that holds levels from `b` on. -/
def Call.Ok (b : ℤ) : Call → Prop
  | .raising old new i turn =>
    b ≤ old + 1 ∧ old + 1 ≤ i ∧ i ≤ new + 1 ∧ (turn = .asks ∨ i ≤ new)
  | .lowering old new i => b ≤ old + 1 ∧ b ≤ new + 1 ∧ new ≤ i
  | .signalling old new i => b ≤ old + 1 ∧ b ≤ new + 1 ∧ new < i
  | .simulate old new => b ≤ old + 1 ∧ b ≤ new + 1
  | .splnet old => b ≤ old + 1
  | .softnet old s => b ≤ old + 1 ∧ b ≤ s + 1
  | .splx old => b ≤ old + 1

/-- Where a thread may be outside `spl_n` when it is at a level. -/
def Place.Ok (entered : Option ℤ) : Place → Prop
  | .leaving level i => entered = some level ∧ level ≤ i + 1
  | .leaveSignal level i => entered = some level ∧ level ≤ i
  | .testing _ | .checking _ | .entering _ _ | .enteringNet _ => entered = none
  | .softnet => entered = some splnet
  | .code => True

structure Thread.Ok (interrupt : Bool) (th : Thread) : Prop where
  ipl : ∀ b ∈ th.base interrupt, b ≤ th.ipl + 1
  calls : ∀ b ∈ th.base interrupt, ∀ call ∈ th.calls, call.Ok b
  outer : ∀ call ∈ th.calls.tail, call.outer
  place : th.place.Ok th.entered
  ordinary : interrupt = false → th.place = .code
  -- `spl_n` is called by code, with levels held from one on
  inside : th.calls ≠ [] → ∃ b, b ∈ th.base interrupt
  apart : th.calls ≠ [] → th.place = .code ∨ th.place = .softnet

/-- The calls of a thread that runs code, or is about to. -/
structure Thread.Quiet (th : Thread) : Prop where
  calls : ∀ call ∈ th.calls, call.outer
  place : th.place = .code ∨ th.place = .softnet

theorem splN_ok {b old new : ℤ} (hold : b ≤ old + 1) (hnew : b ≤ new + 1) :
    (splN old new).Ok b := by
  unfold splN
  split
  · exact ⟨hold, le_rfl, by omega, .inl rfl⟩
  · exact ⟨hold, hnew, by omega⟩

theorem returns_outer {old : ℤ} {rest : List Call} (h : ∀ call ∈ rest, call.outer) :
    ∀ call ∈ returns old rest, call.outer := by
  induction rest generalizing old with
  | nil => exact h
  | cons call rest ih =>
    have hrest := fun call hc => h call (mem_cons_of_mem _ hc)
    cases call with
    | splnet o => exact forall_mem_cons.2 ⟨rfl, hrest⟩
    | splx o => exact ih hrest
    | _ => exact h

theorem returns_ok {b old : ℤ} {rest : List Call} (hold : b ≤ old + 1)
    (h : ∀ call ∈ rest, call.Ok b) : ∀ call ∈ returns old rest, call.Ok b := by
  induction rest generalizing old with
  | nil => exact h
  | cons call rest ih =>
    obtain ⟨hcall, hrest⟩ := forall_mem_cons.1 h
    cases call with
    | splnet o => exact forall_mem_cons.2 ⟨⟨hcall, hold⟩, hrest⟩
    | splx o => exact ih hcall hrest
    | _ => exact h

namespace Thread
variable {interrupt : Bool} {th : Thread}

theorem Quiet.plain (h : th.Quiet) :
    th.top = th.ipl ∧ th.asleepAt = none ∧ th.owes = none ∧ th.releases = none := by
  obtain ⟨ipl, entered, calls, place⟩ := th
  cases calls with
  | nil => rcases h.place with rfl | rfl <;> exact ⟨rfl, rfl, rfl, rfl⟩
  | cons call rest =>
    have hcall := h.calls call mem_cons_self
    cases call with
    | splnet _ | softnet _ _ | splx _ => exact ⟨rfl, rfl, rfl, rfl⟩
    | _ => cases hcall

/-- What `condition_signal` leaves of a thread that waits. -/
structure Wakes (i : ℤ) (th th' : Thread) : Prop where
  ipl : th'.ipl = th.ipl
  entered : th'.entered = th.entered
  top : th'.top = th.top
  asleepAt : th'.asleepAt = none
  owes : th'.owes = some i

theorem signalled_wakes {i : ℤ} (h : th.asleepAt = some i) : Wakes i th th.signalled := by
  obtain ⟨ipl, entered, calls, place⟩ := th
  unfold asleepAt at h
  dsimp only at h
  split at h
  · cases h
    exact ⟨rfl, rfl, rfl, rfl, rfl⟩
  · cases h
    exact ⟨rfl, rfl, rfl, rfl, rfl⟩
  · cases h
    exact ⟨rfl, rfl, rfl, rfl, rfl⟩
  · cases h

theorem owes_of_asleep {i : ℤ} (h : th.asleepAt = some i) : th.owes = none := by
  obtain ⟨ipl, entered, calls, place⟩ := th
  unfold asleepAt at h
  dsimp only at h
  split at h
  · rfl
  · rfl
  · rfl
  · cases h

theorem Ok.signalled {i : ℤ} (hok : th.Ok interrupt) (h : th.asleepAt = some i) :
    th.signalled.Ok interrupt := by
  obtain ⟨ipl, entered, calls, place⟩ := th
  unfold asleepAt at h
  dsimp only at h
  split at h
  · next _ old new j rest _ =>
    refine ⟨hok.ipl, fun b hb => ?_, hok.outer, hok.place, hok.ordinary, fun _ =>
      hok.inside (cons_ne_nil _ _), fun _ => hok.apart (cons_ne_nil _ _)⟩
    obtain ⟨⟨hold, hle, hi, hturn⟩, hrest⟩ := forall_mem_cons.1 (hok.calls b hb)
    exact forall_mem_cons.2 ⟨⟨hold, hle, hi, .inr (hturn.resolve_left nofun)⟩, hrest⟩
  · exact ⟨hok.ipl, hok.calls, hok.outer, hok.place, (fun hi => nomatch hok.ordinary hi),
      fun hne => absurd rfl hne, fun hne => absurd rfl hne⟩
  · exact ⟨hok.ipl, hok.calls, hok.outer, hok.place, (fun hi => nomatch hok.ordinary hi),
      fun hne => absurd rfl hne, fun hne => absurd rfl hne⟩
  · cases h

theorem holds_congr {th' : Thread} (hentered : th'.entered = th.entered) (htop : th'.top = th.top)
    (i : ℤ) : th'.Holds interrupt i ↔ th.Holds interrupt i := by
  simp only [Holds, base, hentered, htop]

theorem not_holds (hinterrupt : interrupt = true) (hentered : th.entered = none) (i : ℤ) :
    ¬th.Holds interrupt i := by
  rintro ⟨b, hb, -⟩
  rw [base, if_pos hinterrupt, hentered] at hb
  cases hb

theorem holds_entered {level : ℤ} (hinterrupt : interrupt = true)
    (hentered : th.entered = some level) (i : ℤ) :
    th.Holds interrupt i ↔ level ≤ i ∧ i ≤ th.top := by
  simp [Holds, base, hinterrupt, hentered]

/-- A thread outside `spl_n`. -/
theorem Ok.outside {ipl : ℤ} {entered : Option ℤ} {place : Place} (hinterrupt : interrupt = true)
    (hipl : ∀ b ∈ entered, b ≤ ipl + 1) (hplace : place.Ok entered) :
    Ok interrupt ⟨ipl, entered, [], place⟩ where
  ipl b hb := hipl b (by rwa [base, if_pos hinterrupt] at hb)
  calls _ _ := nofun
  outer := nofun
  place := hplace
  ordinary h := absurd (hinterrupt.symm.trans h) nofun
  inside h := absurd rfl h
  apart h := absurd rfl h

theorem Ok.quiet (h : th.Ok interrupt) (hcode : th.inCode) : th.Quiet := by
  obtain ⟨ipl, entered, calls, place⟩ := th
  cases calls with
  | nil =>
    refine ⟨by simp, ?_⟩
    cases place with
    | code => exact .inl rfl
    | softnet => exact .inr rfl
    | _ => cases hcode
  | cons call rest =>
    refine ⟨forall_mem_cons.2 ⟨?_, h.outer⟩, h.apart (cons_ne_nil _ _)⟩
    cases call with
    | softnet _ _ => rfl
    | _ => cases hcode

end Thread

/-! The invariant: how the threads and the locks agree. -/

section Agreement
variable {T : Type} (interrupt : T → Bool) (holder : ℤ → Option T) (waiters : ℤ → List T)
  (thread : T → Thread)

def Held : Prop := ∀ t i, holder i = some t ↔ (thread t).Holds (interrupt t) i

def Queued : Prop := ∀ t i, t ∈ waiters i ↔ (thread t).asleepAt = some i

/-- A level with waiters that is free is owed a signal. -/
def Waits : Prop := ∀ i, waiters i ≠ [] → holder i = none → ∃ t, (thread t).owes = some i

variable {interrupt holder waiters thread} [DecidableEq T] {holder' : ℤ → Option T}
  {waiters' : ℤ → List T} {t : T} {th : Thread}

theorem Held.update (h : Held interrupt holder thread)
    (ht : ∀ i, holder' i = some t ↔ th.Holds (interrupt t) i)
    (hu : ∀ u ≠ t, ∀ i, holder' i = some u ↔ holder i = some u) :
    Held interrupt holder' (update thread t th) :=
  (forall_update_iff thread (p := fun u th => ∀ i, holder' i = some u ↔ th.Holds (interrupt u) i)).2
    ⟨ht, fun u hne i => (hu u hne i).trans (h u i)⟩

theorem Queued.update (h : Queued waiters thread) (ht : ∀ i, t ∈ waiters' i ↔ th.asleepAt = some i)
    (hu : ∀ u ≠ t, ∀ i, u ∈ waiters' i ↔ u ∈ waiters i) : Queued waiters' (update thread t th) :=
  (forall_update_iff thread (p := fun u th => ∀ i, u ∈ waiters' i ↔ th.asleepAt = some i)).2
    ⟨ht, fun u hne i => (hu u hne i).trans (h u i)⟩

theorem Waits.update (h : Waits holder waiters thread)
    (hstep : ∀ i, waiters' i ≠ [] → holder' i = none → th.owes = some i ∨
      waiters i ≠ [] ∧ holder i = none ∧ (thread t).owes ≠ some i) :
    Waits holder' waiters' (update thread t th) := by
  intro i hi hnone
  rcases hstep i hi hnone with howes | ⟨hwait, hfree, howes⟩
  · exact ⟨t, by rwa [update_self]⟩
  · obtain ⟨u, hu⟩ := h i hwait hfree
    refine ⟨u, ?_⟩
    rwa [update_of_ne]
    rintro rfl
    exact howes hu

end Agreement

section Inv
variable {T : Type} [DecidableEq T] (interrupt : T → Bool)

structure Inv (s : System T) : Prop where
  held : Held interrupt s.holder s.thread
  ok : ∀ t, (s.thread t).Ok (interrupt t)
  queued : Queued s.waiters s.thread
  nodup : ∀ i, (s.waiters i).Nodup
  waits : Waits s.holder s.waiters s.thread

variable {interrupt} {s : System T} {t : T} {th : Thread}

theorem Inv.ok_put (h : Inv interrupt s) (hok : th.Ok (interrupt t)) :
    ∀ u, (update s.thread t th u).Ok (interrupt u) :=
  (forall_update_iff s.thread (p := fun u th => th.Ok (interrupt u))).2 ⟨hok, fun u _ => h.ok u⟩

theorem Inv.put (h : Inv interrupt s)
    (hheld : ∀ i, th.Holds (interrupt t) i ↔ (s.thread t).Holds (interrupt t) i)
    (hok : th.Ok (interrupt t)) (hasleep : th.asleepAt = (s.thread t).asleepAt)
    (howes : (s.thread t).owes = none) : Inv interrupt (s.put t th) where
  held := h.held.update (fun i => (h.held t i).trans (hheld i).symm) fun _ _ _ => Iff.rfl
  ok := h.ok_put hok
  queued := h.queued.update (fun i => by rw [hasleep]; exact h.queued t i) fun _ _ _ => Iff.rfl
  nodup := h.nodup
  waits := h.waits.update fun i hi hnone => .inr ⟨hi, hnone, by rw [howes]; exact nofun⟩

theorem Inv.take (h : Inv interrupt s) {i : ℤ} (hfree : s.holder i = none ∨ s.holder i = some t)
    (hheld : ∀ j, th.Holds (interrupt t) j ↔ j = i ∨ (s.thread t).Holds (interrupt t) j)
    (hok : th.Ok (interrupt t)) (hasleep : th.asleepAt = (s.thread t).asleepAt)
    (howes : ∀ j, (s.thread t).owes = some j → j = i) :
    Inv interrupt ((s.setHolder i (some t)).put t th) where
  held := by
    refine h.held.update (fun j => ?_) fun u hu j => ?_
    · rw [hheld, ← h.held, put_holder, setHolder_holder, update_apply]
      split <;> simp [*]
    · rw [put_holder, setHolder_holder, update_apply]
      split
      · next hj =>
        subst hj
        rcases hfree with hfree | hfree <;> simp [hfree, Ne.symm hu]
      · rfl
  ok := h.ok_put hok
  queued := h.queued.update (fun i => by rw [hasleep]; exact h.queued t i) fun _ _ _ => Iff.rfl
  nodup := h.nodup
  waits := by
    refine h.waits.update fun j hj hnone => .inr ?_
    simp only [put_holder, setHolder_holder, update_apply] at hnone
    split at hnone
    · cases hnone
    · next hji => exact ⟨hj, hnone, fun howes' => hji (howes j howes')⟩

theorem Inv.sleep (h : Inv interrupt s) {i : ℤ} (hbusy : s.holder i ≠ none)
    (hheld : ∀ j, th.Holds (interrupt t) j ↔ (s.thread t).Holds (interrupt t) j)
    (hok : th.Ok (interrupt t)) (hasleep : (s.thread t).asleepAt = none)
    (hasleep' : th.asleepAt = some i) (howes : ∀ j, (s.thread t).owes = some j → j = i) :
    Inv interrupt ((s.put t th).setWaiters i (s.waiters i ++ [t])) where
  held := h.held.update (fun i => (h.held t i).trans (hheld i).symm) fun _ _ _ => Iff.rfl
  ok := h.ok_put hok
  queued := by
    refine h.queued.update (fun j => ?_) fun u hu j => ?_
    · have hnot : t ∉ s.waiters j := by
        rw [h.queued, hasleep]
        exact nofun
      rw [setWaiters_waiters, update_apply, hasleep']
      split
      · next hj => simp [hj]
      · next hj => simp [hnot, Ne.symm hj]
    · rw [setWaiters_waiters, update_apply]
      split
      · next hj => simp [hj, hu]
      · rfl
  nodup j := by
    have hnot : t ∉ s.waiters i := by
      rw [h.queued, hasleep]
      exact nofun
    rw [setWaiters_waiters, update_apply]
    split
    · exact concat_eq_append ▸ (h.nodup i).concat hnot
    · exact h.nodup j
  waits := by
    refine h.waits.update fun j hj hnone => .inr ?_
    have hji : j ≠ i := by
      rintro rfl
      exact hbusy hnone
    rw [setWaiters_waiters, update_of_ne hji] at hj
    exact ⟨hj, hnone, fun howes' => hji (howes j howes')⟩

theorem Inv.release (h : Inv interrupt s) {i : ℤ} (hi : (s.thread t).Holds (interrupt t) i)
    (hheld : ∀ j, th.Holds (interrupt t) j ↔ j ≠ i ∧ (s.thread t).Holds (interrupt t) j)
    (hok : th.Ok (interrupt t)) (hasleep : th.asleepAt = (s.thread t).asleepAt)
    (howes : (s.thread t).owes = none) (howes' : th.owes = some i) :
    Inv interrupt ((s.setHolder i none).put t th) where
  held := by
    refine h.held.update (fun j => ?_) fun u hu j => ?_
    · rw [hheld, ← h.held, put_holder, setHolder_holder, update_apply]
      split <;> simp [*]
    · rw [put_holder, setHolder_holder, update_apply]
      split
      · next hj => simp [hj, (h.held t i).2 hi, Ne.symm hu]
      · rfl
  ok := h.ok_put hok
  queued := h.queued.update (fun i => by rw [hasleep]; exact h.queued t i) fun _ _ _ => Iff.rfl
  nodup := h.nodup
  waits := by
    refine h.waits.update fun j hj hnone => ?_
    by_cases hji : j = i
    · exact .inl (howes'.trans (by rw [hji]))
    · rw [put_holder, setHolder_holder, update_of_ne hji] at hnone
      exact .inr ⟨hj, hnone, by rw [howes]; exact nofun⟩

theorem Inv.signal (h : Inv interrupt s) {i : ℤ}
    (hheld : ∀ j, th.Holds (interrupt t) j ↔ (s.thread t).Holds (interrupt t) j)
    (hok : th.Ok (interrupt t)) (hasleep : (s.thread t).asleepAt = none)
    (hasleep' : th.asleepAt = none) (howes : ∀ j, (s.thread t).owes = some j → j = i) :
    Inv interrupt ((s.put t th).signal i) := by
  have hheld' : Held interrupt s.holder (update s.thread t th) :=
    h.held.update (fun j => (h.held t j).trans (hheld j).symm) fun _ _ _ => Iff.rfl
  have hqueued' : Queued s.waiters (update s.thread t th) :=
    h.queued.update (fun j => by rw [hasleep', ← hasleep]; exact h.queued t j) fun _ _ _ => Iff.rfl
  have hkeep : ∀ j, s.waiters j ≠ [] → s.holder j = none → j ≠ i →
      s.waiters j ≠ [] ∧ s.holder j = none ∧ (s.thread t).owes ≠ some j :=
    fun j hj hnone hji => ⟨hj, hnone, fun howes' => hji (howes j howes')⟩
  unfold System.signal
  split
  · next hwaiters =>
    exact
      { held := hheld'
        ok := h.ok_put hok
        queued := hqueued'
        nodup := h.nodup
        waits := h.waits.update fun j hj hnone => .inr (hkeep j hj hnone fun hji =>
          hj (by rw [System.put_waiters, hji]; exact hwaiters)) }
  · next u rest hwaiters =>
    rw [System.put_waiters] at hwaiters
    have hu : (update s.thread t th u).asleepAt = some i :=
      (hqueued' u i).1 (hwaiters ▸ mem_cons_self)
    have hwakes := signalled_wakes hu
    have hnodup := nodup_cons.1 (hwaiters ▸ h.nodup i)
    exact
      { held := hheld'.update (fun j => (hheld' u j).trans
          (holds_congr hwakes.entered hwakes.top j).symm) fun _ _ _ => Iff.rfl
        ok := (forall_update_iff _ (p := fun u th => Ok (interrupt u) th)).2
          ⟨(h.ok_put hok u).signalled hu, fun v _ => h.ok_put hok v⟩
        queued := by
          refine hqueued'.update (fun j => ?_) fun v hv j => ?_
          · rw [System.setWaiters_waiters, update_apply, System.put_thread, hwakes.asleepAt]
            split
            · exact iff_of_false hnodup.1 nofun
            · next hji =>
              refine iff_of_false (fun hmem => hji ?_) nofun
              have hasleep'' := (hqueued' u j).1 hmem
              exact some.inj (hasleep''.symm.trans hu)
          · rw [System.setWaiters_waiters, update_apply]
            split
            · next hji => rw [hji, hwaiters, mem_cons, or_iff_right hv]
            · rfl
        nodup := fun j => by
          rw [System.setWaiters_waiters, update_apply]
          split
          · exact hnodup.2
          · exact h.nodup j
        waits := by
          intro j hj hnone
          rw [System.setWaiters_thread, System.put_thread]
          by_cases hji : j = i
          · exact ⟨u, by rw [update_self, hji]; exact hwakes.owes⟩
          · rw [System.setWaiters_waiters, update_of_ne hji] at hj
            obtain ⟨v, hv⟩ := h.waits j hj hnone
            have hvt : v ≠ t := by
              rintro rfl
              exact hji (howes j hv)
            have hvt' : update s.thread t th v = s.thread v :=
              update_of_ne hvt _ _
            have hvu : v ≠ u := by
              rintro rfl
              rw [owes_of_asleep (hvt' ▸ hu)] at hv
              cases hv
            refine ⟨v, ?_⟩
            rw [update_of_ne hvu]
            exact (congrArg owes hvt').trans hv }

theorem Inv.takes (h : Inv interrupt s) {i : ℤ} {taken asleep : Thread}
    (hasleep : (s.thread t).asleepAt = none) (howes : ∀ j, (s.thread t).owes = some j → j = i)
    (htaken : ∀ j, taken.Holds (interrupt t) j ↔ j = i ∨ (s.thread t).Holds (interrupt t) j)
    (hok : taken.Ok (interrupt t)) (hquiet : taken.asleepAt = none)
    (hheld : ∀ j, asleep.Holds (interrupt t) j ↔ (s.thread t).Holds (interrupt t) j)
    (hok' : asleep.Ok (interrupt t)) (hasleep' : asleep.asleepAt = some i) :
    Inv interrupt (s.take t i taken asleep) := by
  unfold System.take
  split
  · next hfree => exact h.take hfree htaken hok (hquiet.trans hasleep.symm) howes
  · next hbusy =>
    exact h.sleep (fun hnone => hbusy (.inl hnone)) hheld hok' hasleep hasleep' howes

/-- A thread that holds the levels up to its `u_ipl` calls `spl_n`. -/
theorem Inv.calls (h : Inv interrupt s) {new : ℤ} {rest : List Call}
    (hplain : (s.thread t).top = (s.thread t).ipl ∧ (s.thread t).asleepAt = none ∧
      (s.thread t).owes = none)
    (hplace : (s.thread t).place = .code ∨ (s.thread t).place = .softnet)
    (hbase : ∃ b, b ∈ (s.thread t).base (interrupt t))
    (hnew : ∀ b ∈ (s.thread t).base (interrupt t), b ≤ new + 1)
    (hrest : ∀ b ∈ (s.thread t).base (interrupt t), ∀ call ∈ rest, call.Ok b)
    (houter : ∀ call ∈ rest, call.outer) :
    Inv interrupt (s.put t { s.thread t with calls := splN (s.thread t).ipl new :: rest }) := by
  obtain ⟨htop, hasleep, howes⟩ := hplain
  have hok := h.ok t
  refine h.put (holds_congr rfl ?_) ⟨hok.ipl, fun b hb => ?_, houter, hok.place,
    hok.ordinary, fun _ => hbase, fun _ => hplace⟩ ?_ howes
  · rw [htop]
    unfold splN
    split
    · exact Int.add_sub_cancel _ _
    · rfl
  · exact forall_mem_cons.2 ⟨splN_ok (hok.ipl b hb) (hnew b hb), hrest b hb⟩
  · rw [hasleep]
    unfold splN
    split <;> rfl

/-! The steps of `spl_n`. -/

section CallTurn
variable {ipl : ℤ} {entered : Option ℤ} {rest : List Call} {place : Place} {old new i : ℤ}

theorem Inv.simulates (h : Inv interrupt s) {call : Call}
    (hth : s.thread t = ⟨ipl, entered, call :: rest, place⟩)
    (hcall : ∀ b, call.Ok b → b ≤ old + 1 ∧ b ≤ new + 1) (htop : (s.thread t).top = new)
    (hasleep : (s.thread t).asleepAt = none) (howes : (s.thread t).owes = none) :
    Inv interrupt (s.put t ⟨new, entered, .simulate old new :: rest, place⟩) := by
  have hok := h.ok t
  refine h.put (holds_congr (by rw [hth]) htop.symm) ?_ hasleep.symm howes
  rw [hth] at hok
  have hone := fun b hb => forall_mem_cons.1 (hok.calls b hb)
  exact ⟨fun b hb => (hcall b (hone b hb).1).2,
    fun b hb => forall_mem_cons.2 ⟨hcall b (hone b hb).1, (hone b hb).2⟩,
    hok.outer, hok.place, hok.ordinary, fun _ => hok.inside (cons_ne_nil _ _),
    fun _ => hok.apart (cons_ne_nil _ _)⟩

theorem Thread.Ok.goes {interrupt : Bool} {call call' : Call}
    (hok : Ok interrupt ⟨ipl, entered, call :: rest, place⟩)
    (hcall : ∀ b, call.Ok b → call'.Ok b) :
    Ok interrupt ⟨ipl, entered, call' :: rest, place⟩ :=
  ⟨hok.ipl, fun b hb => by
    obtain ⟨hone, hrest⟩ := forall_mem_cons.1 (hok.calls b hb)
    exact forall_mem_cons.2 ⟨hcall b hone, hrest⟩,
    hok.outer, hok.place, hok.ordinary, fun _ => hok.inside (cons_ne_nil _ _),
    fun _ => hok.apart (cons_ne_nil _ _)⟩

theorem Inv.raising (h : Inv interrupt s) {turn : Turn} (hturn : turn ≠ .asleep)
    (hth : s.thread t = ⟨ipl, entered, .raising old new i turn :: rest, place⟩) :
    Inv interrupt (s.callTurn t (s.thread t) (.raising old new i turn) rest) := by
  have hok := h.ok t
  have hasleep : (s.thread t).asleepAt = none := by
    rw [hth]
    cases turn with
    | asleep => exact absurd rfl hturn
    | _ => rfl
  have howes : ∀ j, (s.thread t).owes = some j → j = i ∧ turn = .signalled := by
    rw [hth]
    cases turn with
    | signalled => exact fun j hj => ⟨(some.inj hj).symm, rfl⟩
    | _ => exact nofun
  have hturns : s.callTurn t (s.thread t) (.raising old new i turn) rest =
      if new < i then s.put t { s.thread t with ipl := new, calls := .simulate old new :: rest }
      else s.take t i { s.thread t with calls := .raising old new (i + 1) .asks :: rest }
        { s.thread t with calls := .raising old new i .asleep :: rest } := by
    cases turn with
    | asleep => exact absurd rfl hturn
    | _ => rfl
  rw [hturns]
  rw [hth] at hok
  obtain ⟨b, hb⟩ := hok.inside (cons_ne_nil _ _)
  obtain ⟨hold, hle, hi, hnew⟩ := (forall_mem_cons.1 (hok.calls b hb)).1
  split
  · next hdone =>
    rw [hth]
    refine h.simulates hth (fun b hcall => ?_) ?_ hasleep ?_
    · obtain ⟨hold, hle, hi, -⟩ := hcall
      omega
    · rw [hth]
      change i - 1 = new
      omega
    · refine Option.eq_none_iff_forall_not_mem.2 fun j hj => ?_
      rcases hnew with hnew | hnew
      · rw [(howes j hj).2] at hnew
        cases hnew
      · omega
  · next hmore =>
    rw [hth]
    refine h.takes hasleep (fun j hj => (howes j hj).1) (fun j => ?_) ?_ rfl ?_ ?_ rfl
    · rw [hth]
      constructor
      · rintro ⟨b', hb', hlow, hhigh⟩
        change j ≤ i + 1 - 1 at hhigh
        by_cases hj : j = i
        · exact .inl hj
        · refine .inr ⟨b', hb', hlow, ?_⟩
          change j ≤ i - 1
          omega
      · rintro (rfl | ⟨b', hb', hlow, hhigh⟩)
        · refine ⟨b, hb, by omega, ?_⟩
          change j ≤ j + 1 - 1
          omega
        · refine ⟨b', hb', hlow, ?_⟩
          change j ≤ i - 1 at hhigh
          change j ≤ i + 1 - 1
          omega
    · refine hok.goes fun b hcall => ?_
      obtain ⟨hold, hle, hi, -⟩ := hcall
      exact ⟨hold, by omega, by omega, .inl rfl⟩
    · rw [hth]
      exact holds_congr rfl rfl
    · refine hok.goes fun b hcall => ?_
      obtain ⟨hold, hle, hi, -⟩ := hcall
      exact ⟨hold, hle, hi, .inr (by omega)⟩

theorem Inv.lowering (h : Inv interrupt s)
    (hth : s.thread t = ⟨ipl, entered, .lowering old new i :: rest, place⟩) :
    Inv interrupt (s.callTurn t (s.thread t) (.lowering old new i) rest) := by
  have hok := h.ok t
  have hasleep : (s.thread t).asleepAt = none := by rw [hth]; rfl
  have howes : (s.thread t).owes = none := by rw [hth]; rfl
  dsimp only [callTurn]
  rw [hth] at hok
  obtain ⟨b, hb⟩ := hok.inside (cons_ne_nil _ _)
  obtain ⟨hold, hnew, hi⟩ := (forall_mem_cons.1 (hok.calls b hb)).1
  split
  · next hmore =>
    refine h.release (i := i) ?_ (fun j => ?_) ?_ ?_ howes ?_
    · rw [hth]
      exact ⟨b, hb, by omega, le_refl i⟩
    · rw [hth]
      constructor
      · rintro ⟨b', hb', hlow, hhigh⟩
        change j ≤ i - 1 at hhigh
        refine ⟨by omega, b', hb', hlow, ?_⟩
        change j ≤ i
        omega
      · rintro ⟨hne, b', hb', hlow, hhigh⟩
        change j ≤ i at hhigh
        refine ⟨b', hb', hlow, ?_⟩
        change j ≤ i - 1
        omega
    · rw [hth]
      refine hok.goes fun b hcall => ?_
      obtain ⟨hold, hnew, -⟩ := hcall
      exact ⟨hold, hnew, hmore⟩
    · rw [hth]
      rfl
    · rw [hth]
      rfl
  · next hdone =>
    rw [hth]
    refine h.simulates hth (fun b hcall => ⟨hcall.1, hcall.2.1⟩) ?_ hasleep howes
    rw [hth]
    change i = new
    omega

theorem Inv.signalling (h : Inv interrupt s)
    (hth : s.thread t = ⟨ipl, entered, .signalling old new i :: rest, place⟩) :
    Inv interrupt (s.callTurn t (s.thread t) (.signalling old new i) rest) := by
  have hok := h.ok t
  rw [hth] at hok
  dsimp only [callTurn]
  rw [hth]
  refine h.signal (fun j => ?_) ?_ ?_ rfl fun j hj => ?_
  · rw [hth]
    exact holds_congr rfl rfl j
  · refine hok.goes fun b hcall => ?_
    obtain ⟨hold, hnew, hi⟩ := hcall
    exact ⟨hold, hnew, by omega⟩
  · rw [hth]
    rfl
  · rw [hth] at hj
    exact (some.inj hj).symm

theorem Inv.simulate (h : Inv interrupt s)
    (hth : s.thread t = ⟨ipl, entered, .simulate old new :: rest, place⟩) :
    Inv interrupt (s.callTurn t (s.thread t) (.simulate old new) rest) := by
  have hok := h.ok t
  rw [hth] at hok
  have hcalls := fun b hb => forall_mem_cons.1 (hok.calls b hb)
  have hplace := hok.apart (cons_ne_nil _ _)
  dsimp only [callTurn]
  split
  · next hnet =>
    refine h.calls ⟨by rw [hth]; rfl, by rw [hth]; rfl, by rw [hth]; rfl⟩
      (by rw [hth]; exact hplace) (by rw [hth]; exact hok.inside (cons_ne_nil _ _))
      (fun b hb => ?_) (fun b hb => ?_) (forall_mem_cons.2 ⟨rfl, hok.outer⟩)
    · rw [hth] at hb
      have hnew := (hcalls b hb).1.2
      have hlt := hnet.1
      omega
    · rw [hth] at hb
      exact forall_mem_cons.2 ⟨(hcalls b hb).1.1, (hcalls b hb).2⟩
  · rw [hth]
    have hquiet : Thread.Quiet ⟨ipl, entered, returns old rest, place⟩ :=
      ⟨returns_outer hok.outer, hplace⟩
    obtain ⟨htop, hasleep, -⟩ := hquiet.plain
    refine h.put (holds_congr (by rw [hth]) (htop.trans (by rw [hth]; rfl))) ?_
      (hasleep.trans (by rw [hth]; rfl)) (by rw [hth]; rfl)
    exact ⟨hok.ipl, fun b hb => returns_ok (hcalls b hb).1.1 (hcalls b hb).2,
      fun call hc => hquiet.calls call (mem_of_mem_tail hc), hok.place, hok.ordinary,
      fun _ => hok.inside (cons_ne_nil _ _), fun _ => hplace⟩

theorem Inv.callTurn (h : Inv interrupt s) {call : Call}
    (hcalls : (s.thread t).calls = call :: rest) :
    Inv interrupt (s.callTurn t (s.thread t) call rest) := by
  have hth : s.thread t =
      ⟨(s.thread t).ipl, (s.thread t).entered, call :: rest, (s.thread t).place⟩ := by
    rw [← hcalls]
  cases call with
  | raising old new i turn =>
    cases turn with
    | asleep => exact h
    | asks => exact h.raising nofun hth
    | signalled => exact h.raising nofun hth
  | lowering old new i => exact h.lowering hth
  | signalling old new i => exact h.signalling hth
  | simulate old new => exact h.simulate hth
  | _ => exact h

end CallTurn

/-! The steps of `interrupt_enter` and `interrupt_exit`. -/

section PlaceTurn
variable {ipl : ℤ} {entered : Option ℤ} {place : Place} {level i : ℤ}

theorem Inv.moves (h : Inv interrupt s) {ipl' : ℤ} {place' : Place}
    (hth : s.thread t = ⟨ipl, none, [], place⟩) (hinterrupt : interrupt t = true)
    (hplace : place'.Ok none) (hasleep : (s.thread t).asleepAt = none)
    (hasleep' : asleepAt ⟨ipl', none, [], place'⟩ = none)
    (howes : (s.thread t).owes = none) : Inv interrupt (s.put t ⟨ipl', none, [], place'⟩) :=
  h.put (fun j => iff_of_false (not_holds hinterrupt rfl j)
      (not_holds hinterrupt (by rw [hth]) j))
    (.outside hinterrupt nofun hplace) (hasleep'.trans hasleep.symm) howes

/-- The loop of `interrupt_enter`. -/
theorem Inv.enters (h : Inv interrupt s) {place' asleep : Place}
    (hth : s.thread t = ⟨ipl, none, [], place⟩) (hinterrupt : interrupt t = true)
    (hplace' : place' = .code ∨ place' = .softnet) (hok : place'.Ok (some level))
    (hasleep : (s.thread t).asleepAt = none) (howes : ∀ j, (s.thread t).owes = some j → j = level)
    (hplace : asleep.Ok none) (hasleep' : asleepAt ⟨ipl, none, [], asleep⟩ = some level) :
    Inv interrupt (s.take t level ⟨level, some level, [], place'⟩ ⟨ipl, none, [], asleep⟩) := by
  have hnot : ∀ j, ¬(s.thread t).Holds (interrupt t) j :=
    not_holds hinterrupt (by rw [hth])
  have hquiet : Thread.Quiet ⟨level, some level, [], place'⟩ := ⟨nofun, hplace'⟩
  obtain ⟨htop, hawake, -⟩ := hquiet.plain
  refine h.takes hasleep howes (fun j => ?_) (.outside hinterrupt ?_ hok) hawake (fun j => ?_)
    (.outside hinterrupt nofun hplace) hasleep'
  · rw [holds_entered hinterrupt rfl, htop, or_iff_left (hnot j), eq_comm]
    exact le_antisymm_iff.symm
  · rintro b ⟨⟩
    omega
  · exact iff_of_false (not_holds hinterrupt rfl j) (hnot j)

theorem Inv.leaving (h : Inv interrupt s) (hinterrupt : interrupt t = true)
    (hth : s.thread t = ⟨ipl, some level, [], .leaving level i⟩) :
    Inv interrupt (s.placeTurn t (s.thread t)) := by
  have hok := h.ok t
  have hheld : ∀ j, (s.thread t).Holds (interrupt t) j ↔ level ≤ j ∧ j ≤ (s.thread t).top :=
    holds_entered hinterrupt (by rw [hth])
  rw [hth] at hok hheld
  have hipl : ∀ b ∈ some level, b ≤ ipl + 1 := fun b hb => hok.ipl b (by
    rwa [base, if_pos hinterrupt])
  have hle := hok.place.2
  rw [hth]
  dsimp only [placeTurn]
  split
  · next hmore =>
    refine h.release (i := i) ?_ (fun j => ?_) (.outside hinterrupt hipl ⟨rfl, hmore⟩)
      (by rw [hth]; rfl) (by rw [hth]; rfl) rfl
    · rw [hth, hheld]
      exact ⟨hmore, le_refl i⟩
    · rw [hth, hheld, holds_entered hinterrupt rfl]
      change level ≤ j ∧ j ≤ i - 1 ↔ j ≠ i ∧ level ≤ j ∧ j ≤ i
      omega
  · next hdone =>
    refine h.put (fun j => iff_of_false (not_holds hinterrupt rfl j) ?_)
      (.outside hinterrupt nofun rfl) (by rw [hth]; rfl) (by rw [hth]; rfl)
    rw [hth, hheld]
    change ¬(level ≤ j ∧ j ≤ i)
    omega

theorem Inv.leaveSignal (h : Inv interrupt s) (hinterrupt : interrupt t = true)
    (hth : s.thread t = ⟨ipl, some level, [], .leaveSignal level i⟩) :
    Inv interrupt (s.placeTurn t (s.thread t)) := by
  have hok := h.ok t
  rw [hth] at hok
  have hipl : ∀ b ∈ some level, b ≤ ipl + 1 := fun b hb => hok.ipl b (by
    rwa [base, if_pos hinterrupt])
  have hle := hok.place.2
  rw [hth]
  dsimp only [placeTurn]
  refine h.signal (fun j => ?_) (.outside hinterrupt hipl ⟨rfl, by omega⟩) (by rw [hth]; rfl) rfl
    fun j hj => ?_
  · rw [hth]
    exact holds_congr rfl rfl j
  · rw [hth] at hj
    exact (some.inj hj).symm

theorem Inv.placeTurn (h : Inv interrupt s) (hcalls : (s.thread t).calls = []) :
    Inv interrupt (s.placeTurn t (s.thread t)) := by
  have hok := h.ok t
  rcases hth : s.thread t with ⟨ipl, entered, calls, place⟩
  rw [hth] at hok hcalls
  obtain rfl : calls = [] := hcalls
  have hinterrupt : place ≠ .code → interrupt t = true := fun hne => by
    by_contra hi
    exact hne (hok.ordinary (Bool.eq_false_of_not_eq_true hi))
  cases place with
  | code => exact h
  | softnet => exact h
  | entering level turn =>
    obtain rfl : entered = none := hok.place
    cases turn with
    | asleep => exact h
    | asks =>
      dsimp only [System.placeTurn]
      refine h.enters hth (hinterrupt nofun) (.inl rfl) trivial (by rw [hth]; rfl) ?_ rfl rfl
      rw [hth]
      exact nofun
    | signalled =>
      dsimp only [System.placeTurn]
      refine h.enters hth (hinterrupt nofun) (.inl rfl) trivial (by rw [hth]; rfl) ?_ rfl rfl
      rw [hth]
      exact fun j hj => (some.inj hj).symm
  | enteringNet turn =>
    obtain rfl : entered = none := hok.place
    cases turn with
    | asleep => exact h
    | asks =>
      dsimp only [System.placeTurn]
      refine h.enters hth (hinterrupt nofun) (.inr rfl) rfl (by rw [hth]; rfl) ?_ rfl rfl
      rw [hth]
      exact nofun
    | signalled =>
      dsimp only [System.placeTurn]
      refine h.enters hth (hinterrupt nofun) (.inr rfl) rfl (by rw [hth]; rfl) ?_ rfl rfl
      rw [hth]
      exact fun j hj => (some.inj hj).symm
  | leaving level i =>
    obtain rfl : entered = some level := hok.place.1
    exact hth ▸ h.leaving (hinterrupt nofun) hth
  | leaveSignal level i =>
    obtain rfl : entered = some level := hok.place.1
    exact hth ▸ h.leaveSignal (hinterrupt nofun) hth
  | testing level =>
    obtain rfl : entered = none := hok.place
    dsimp only [System.placeTurn]
    split
    · exact h.moves hth (hinterrupt nofun) rfl (by rw [hth]; rfl) rfl (by rw [hth]; rfl)
    · exact h.moves hth (hinterrupt nofun) trivial (by rw [hth]; rfl) rfl (by rw [hth]; rfl)
  | checking i =>
    obtain rfl : entered = none := hok.place
    dsimp only [System.placeTurn]
    split
    · exact h.moves hth (hinterrupt nofun) rfl (by rw [hth]; rfl) rfl (by rw [hth]; rfl)
    · split
      · exact h.moves hth (hinterrupt nofun) rfl (by rw [hth]; rfl) rfl (by rw [hth]; rfl)
      · exact h.moves hth (hinterrupt nofun) trivial (by rw [hth]; rfl) rfl (by rw [hth]; rfl)

end PlaceTurn

theorem Inv.event (h : Inv interrupt s) {e : Event T} (hfits : Fits interrupt s e) :
    Inv interrupt (s.event interrupt e) := by
  cases e with
  | spl t new =>
    dsimp only [System.event]
    split
    · next hruns =>
      have hok := h.ok t
      have hquiet := hok.quiet hruns.1
      obtain ⟨htop, hasleep, howes, -⟩ := hquiet.plain
      refine h.calls ⟨htop, hasleep, howes⟩ hquiet.place ?_ (fun b hb => ?_) hok.calls hquiet.calls
      · cases hi : interrupt t with
        | false => exact ⟨1, rfl⟩
        | true => exact ne_none_iff_exists'.1 (hruns.2 hi)
      · cases hi : interrupt t with
        | false =>
          rw [hi] at hb
          cases hb
          omega
        | true =>
          rw [hi] at hb
          exact hfits hi b hb
    · exact h
  | enter t level =>
    dsimp only [System.event]
    split
    · next henter =>
      obtain ⟨hinterrupt, hcalls, hplace, hentered⟩ := henter
      have hth : s.thread t = ⟨(s.thread t).ipl, none, [], .code⟩ := by
        rw [← hcalls, ← hplace, ← hentered]
      rw [hth]
      exact h.moves hth hinterrupt rfl (by rw [hth]; rfl) rfl (by rw [hth]; rfl)
    · exact h
  | exit t =>
    dsimp only [System.event]
    split
    · next level hinterrupt hcalls hplace hentered =>
      have hth : s.thread t = ⟨(s.thread t).ipl, some level, [], .code⟩ := by
        rw [← hcalls, ← hplace, ← hentered]
      have hipl := (h.ok t).ipl level (by rwa [base, if_pos hinterrupt])
      refine h.put (holds_congr rfl ?_) ?_ (by rw [hth]; rfl) (by rw [hth]; rfl)
      · rw [hth]
        rfl
      · rw [hth]
        exact .outside hinterrupt (by rintro b ⟨⟩; exact hipl) ⟨rfl, hipl⟩
    · exact h
  | turn t =>
    dsimp only [System.event]
    split
    · next hcalls => exact h.callTurn hcalls
    · next hcalls => exact h.placeTurn hcalls
  | softnetDone t =>
    have hok := h.ok t
    dsimp only [System.event]
    split
    · next old level rest _ hcalls =>
      have hcode : (s.thread t).inCode := by rw [inCode, hcalls]
      have hquiet := hok.quiet hcode
      obtain ⟨htop, hasleep, howes, -⟩ := hquiet.plain
      have hcall := fun b hb => forall_mem_cons.1 (hcalls ▸ hok.calls b hb)
      refine h.calls ⟨htop, hasleep, howes⟩ hquiet.place
        (hok.inside (hcalls ▸ cons_ne_nil _ _)) (fun b hb => (hcall b hb).1.2)
        (fun b hb => forall_mem_cons.2 ⟨(hcall b hb).1.1, (hcall b hb).2⟩)
        (forall_mem_cons.2 ⟨rfl, ?_⟩)
      exact (forall_mem_cons.1 (hcalls ▸ hquiet.calls)).2
    · next hcalls hplace =>
      have hentered : (s.thread t).entered = some splnet := by
        have hat := hok.place
        rwa [hplace] at hat
      have hinterrupt : interrupt t = true := by
        by_contra hi
        have hat := hok.ordinary (Bool.eq_false_of_not_eq_true hi)
        rw [hplace] at hat
        cases hat
      have hth : s.thread t = ⟨(s.thread t).ipl, some splnet, [], .softnet⟩ := by
        rw [← hcalls, ← hplace, ← hentered]
      have hipl := hok.ipl splnet (by rwa [base, if_pos hinterrupt])
      refine h.put (holds_congr rfl ?_) ?_ (by rw [hth]; rfl) (by rw [hth]; rfl)
      · rw [hth]
        rfl
      · rw [hth]
        exact .outside hinterrupt (by rintro b ⟨⟩; exact hipl) ⟨rfl, hipl⟩
    · exact h
  | sched netisr => exact ⟨h.held, h.ok, h.queued, h.nodup, h.waits⟩

omit [DecidableEq T] in
theorem Inv.init : Inv interrupt (System.init interrupt) where
  held t i := by
    refine iff_of_false nofun ?_
    rintro ⟨b, hb, hlow, hhigh⟩
    unfold base at hb
    change i ≤ if interrupt t then -1 else 0 at hhigh
    split at hb
    · cases hb
    · next hi =>
      cases hb
      rw [if_neg hi] at hhigh
      omega
  ok t := by
    refine ⟨fun b hb => ?_, fun _ _ => nofun, nofun, trivial, fun _ => rfl,
      fun hne => absurd rfl hne, fun hne => absurd rfl hne⟩
    unfold base at hb
    change b ≤ (if interrupt t then -1 else 0) + 1
    split at hb
    · cases hb
    · next hi =>
      cases hb
      rw [if_neg hi]
      omega
  queued t i := iff_of_false nofun nofun
  nodup i := nodup_nil
  waits i hi := absurd rfl hi

theorem Thread.Ok.releases {interrupt : Bool} {th : Thread} {i : ℤ} (hok : th.Ok interrupt)
    (h : th.releases = some i) : th.Holds interrupt i := by
  obtain ⟨ipl, entered, calls, place⟩ := th
  unfold Thread.releases at h
  dsimp only at h
  split at h
  · next old new j rest _ =>
    split at h
    · next hmore =>
      cases h
      obtain ⟨b, hb⟩ := hok.inside (cons_ne_nil _ _)
      obtain ⟨-, hnew, -⟩ := (forall_mem_cons.1 (hok.calls b hb)).1
      exact ⟨b, hb, by omega, le_refl i⟩
    · cases h
  · next level j =>
    split at h
    · next hmore =>
      cases h
      have hinterrupt : interrupt = true := by
        by_contra hi
        cases hok.ordinary (Bool.eq_false_of_not_eq_true hi)
      exact (Thread.holds_entered hinterrupt hok.place.1 i).2 ⟨hmore, le_refl i⟩
    · cases h
  · cases h

omit [DecidableEq T] in
theorem Inv.safe (h : Inv interrupt s) : Safe interrupt s where
  one t u i ht hu := some.inj (((h.held t i).2 ht).symm.trans ((h.held u i).2 hu))
  ordinary t hi hcode i := by
    obtain ⟨htop, -⟩ := ((h.ok t).quiet hcode).plain
    rw [h.held, Thread.Holds, base, hi, htop]
    simp
  inside t l hi hl hcode i := by
    obtain ⟨htop, -⟩ := ((h.ok t).quiet hcode).plain
    rw [h.held, holds_entered hi hl, htop]
  left t hi hentered i hholder := not_holds hi hentered i ((h.held t i).1 hholder)
  releases t i hrel := (h.held t i).2 ((h.ok t).releases hrel)
  waits t i hasleep hnone :=
    h.waits i (ne_nil_of_mem ((h.queued t i).2 hasleep)) hnone

end Inv

/-- While no interrupt thread lowers its priority below what it interrupted, every state that any
number of threads reach is safe. -/
theorem splRuns_safe {T : Type} [DecidableEq T] (interrupt : T → Bool) (es : List (Event T))
    (hes : Runs.Along (System.step interrupt) (Fits interrupt) (System.init interrupt) es) :
    Safe interrupt (System.run interrupt es) :=
  have h : Inv interrupt (System.run interrupt es) :=
    hes.foldl (fun _ _ h hfits => h.event hfits) Inv.init
  h.safe

/-- An interrupt thread waits for the level of an ordinary one, takes it once that one lowers its
priority, and takes a software interrupt on its way out. -/
def interrupted : List (Event (Fin 2)) :=
  [.spl 0 2, .turn 0, .turn 0, .turn 0, .turn 0, .enter 1 2, .turn 1, .spl 0 0, .turn 0, .turn 0,
    .turn 1, .sched true, .exit 1, .turn 1, .turn 1, .turn 1, .turn 1, .turn 1, .turn 1, .turn 1,
    .sched false, .softnetDone 1, .turn 1, .turn 1, .turn 1, .turn 1]

theorem splRuns_safe_interrupted : Safe (· = 1) (System.run (· = 1) interrupted) :=
  splRuns_safe (· = 1) interrupted (by decide +kernel)

/-- An interrupt thread at the level 4 that goes to sleep: `tsleep` calls `spl_n(0)`, and that is
about to release the level 2 of an ordinary thread. -/
def slept : List (Event (Fin 2)) :=
  [.spl 0 2, .turn 0, .turn 0, .turn 0, .turn 0, .enter 1 4, .turn 1, .spl 1 0, .turn 1, .turn 1,
    .turn 1, .turn 1]

theorem slept_not_safe : ¬Safe (· = 1) (System.run (· = 1) slept) := by
  intro h
  have hholder := h.releases 1 2 (by decide +kernel)
  exact absurd hholder (by decide +kernel)

end MachKernel.Ux.Spl
