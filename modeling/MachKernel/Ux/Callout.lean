import MachKernel.Lib.Doubly
import MachKernel.Lib.Runs
import Mathlib.Data.List.TakeWhile

/-! The callouts of the Unix server (`mach_clock.c`): the list of timeouts, the threads that set and
cancel them, and the softclock thread. -/

namespace MachKernel.Ux.Callout
open Function List

/-! Times. -/

def hz : ℤ := 1000
def tick : ℤ := 1000

structure Timeval where
  sec : ℤ
  usec : ℤ
  nonneg : 0 ≤ usec
  lt : usec < 1000000
  deriving DecidableEq

open Timeval

namespace Timeval

def micros (t : Timeval) : ℤ := t.sec * 1000000 + t.usec

/-- `timevalfix`. -/
def fix (sec usec : ℤ) (h : -1000000 ≤ usec ∧ usec < 2000000) : Timeval :=
  if hneg : usec < 0 then ⟨sec - 1, usec + 1000000, by omega, by omega⟩
  else if hbig : usec ≥ 1000000 then ⟨sec + 1, usec - 1000000, by omega, by omega⟩
  else ⟨sec, usec, by omega, by omega⟩

theorem micros_fix {sec usec : ℤ} (h : -1000000 ≤ usec ∧ usec < 2000000) :
    (fix sec usec h).micros = sec * 1000000 + usec := by
  unfold fix micros
  split
  · dsimp only
    omega
  · split
    · dsimp only
      omega
    · rfl

/-- `timercmp` with `<`. -/
def before (t u : Timeval) : Prop := t.sec < u.sec ∨ t.sec = u.sec ∧ t.usec < u.usec

instance (t u : Timeval) : Decidable (t.before u) := inferInstanceAs (Decidable (_ ∨ _))

theorem before_iff {t u : Timeval} : t.before u ↔ t.micros < u.micros := by
  have ht := t.nonneg
  have ht' := t.lt
  have hu := u.nonneg
  have hu' := u.lt
  unfold before micros
  omega

/-- `timevalsub`. -/
def sub (t u : Timeval) : Timeval :=
  fix (t.sec - u.sec) (t.usec - u.usec) (by
    have ht := t.nonneg
    have ht' := t.lt
    have hu := u.nonneg
    have hu' := u.lt
    omega)

@[simp]
theorem micros_sub (t u : Timeval) : (t.sub u).micros = t.micros - u.micros := by
  rw [sub, micros_fix]
  unfold micros
  ring

end Timeval

/-- The time at which a timeout of `t` ticks is due. -/
def timeoutTime (cur : Timeval) (t : BitVec 32) : Timeval :=
  let t := if t.toInt ≤ 0 then 1 else t.toInt
  .fix (cur.sec + t / hz) (cur.usec + t % hz * tick) (by
    have h := cur.nonneg
    have h' := cur.lt
    unfold hz tick
    omega)

theorem micros_timeoutTime (cur : Timeval) (t : BitVec 32) : (timeoutTime cur t).micros =
    cur.micros + (if t.toInt ≤ 0 then 1 else t.toInt) * 1000 := by
  unfold timeoutTime
  rw [micros_fix]
  unfold micros hz tick
  generalize (if t.toInt ≤ 0 then 1 else t.toInt) = n
  omega

/-- `time_to_hz`, for intervals that are not negative. -/
def timeToHz (tv : Timeval) : ℤ :=
  if tv.sec ≤ 0x7fffffff / 1000 - 1000 then (tv.sec * 1000 + tv.usec / 1000) / (tick / 1000)
  else if tv.sec ≤ 0x7fffffff / hz then tv.sec * hz
  else 0x7fffffff

/-- The intervals of which `time_to_hz` loses a tick at most. -/
def Exact (tv : Timeval) : Prop := tv.sec ≤ 0x7fffffff / 1000 - 1000 ∨ tv.usec ≤ tick

instance (tv : Timeval) : Decidable (Exact tv) := inferInstanceAs (Decidable (_ ∨ _))

theorem timeToHz_exact {tv : Timeval} (h : Exact tv) (hlt : tv.micros ≤ 0x7fffffff * 1000) :
    tv.micros ≤ timeToHz tv * 1000 + tick := by
  have h0 := tv.nonneg
  have h1 := tv.lt
  unfold Exact at h
  unfold timeToHz
  unfold micros tick hz at *
  split
  · omega
  · split <;> omega

/-! The callouts. -/

/-- `struct callout`, but for its links. -/
structure Elem (F A : Type) where
  func : Option F
  arg : A
  time : Timeval
  special : Bool
  deriving DecidableEq

/-- Where the softclock thread is. -/
inductive Soft (F A : Type)
  | start
  -- at the head of its loop, with `callout_lock`
  | scan
  -- waiting for a message, with no timeout
  | empty
  -- about to compute the interval to wait, and to wait
  | looked (time : Timeval)
  | interval (t : ℤ)
  -- waiting, until the clock shows a time or there is a message
  | waiting (deadline : ℤ)
  -- about to remove the first element
  | due
  -- about to call the function that it found in an element, and in it
  | calling (c : ℕ) (func : F) (arg : A)
  | running
  deriving DecidableEq

def calltodo : ℕ := 1

/-- How many messages a port holds. -/
def qlimit : ℕ := 5

structure System (F A : Type) where
  next : ℕ → ℕ
  prev : ℕ → ℕ
  elem : ℕ → Elem F A
  -- the next element that `zalloc` gives out; it gives each out once
  fresh : ℕ
  now : Timeval
  soft : Soft F A
  -- messages to the softclock thread that are to be sent, and those at its port
  owed : ℕ
  pokes : ℕ
  -- the elements with a handle that is not yet passed to `untimeout_special`
  held : ℕ → Bool
  -- how often an element was freed
  freed : ℕ → ℕ
  -- whether an element was cancelled while it was on the list
  cancelled : ℕ → Bool
  -- the calls of its function
  calls : ℕ → List (F × A × Timeval)
  -- whether an element was used that had been freed
  fault : Bool

open Callout.System

/-- What can happen next. -/
inductive Event (F A : Type)
  -- by the softclock thread or another, with the time it found on the clock before
  | timeoutSpecial (func : F) (arg : A) (t : BitVec 32) (special self : Bool) (cur : Timeval)
  | untimeout (func : F) (arg : A)
  | untimeoutSpecial (c : ℕ)
  | poke
  -- the next step of the softclock thread
  | soft
  -- its `mach_msg` ends
  | received
  | timedOut
  | clock (t : Timeval)
  deriving DecidableEq

namespace System
variable {F A : Type} [DecidableEq F] [DecidableEq A] (s : System F A)

/-- The elements on the list, as one comes to them. -/
def elements : List ℕ := Doubly.walk s.next calltodo s.fresh (s.next calltodo)

/-- Elements are used. -/
def touch (cs : List ℕ) : System F A :=
  { s with fault := s.fault || cs.any fun c => s.freed c ≠ 0 }

def zfree (c : ℕ) : System F A :=
  { s with freed := update s.freed c (s.freed c + 1) }

def unlink (c : ℕ) : System F A :=
  { s with
    next := update s.next (s.prev c) (s.next c)
    prev := update s.prev (s.next c) (s.prev c) }

/-- The first element is taken off. -/
def removeHead (c : ℕ) : System F A :=
  { s.touch [c, s.next c] with
    next := update s.next calltodo (s.next c)
    prev := update s.prev (s.next c) calltodo }

/-- `c_func` is cleared. -/
def clear (c : ℕ) : System F A :=
  { s with elem := update s.elem c { s.elem c with func := none } }

/-- An element on the list is cancelled. -/
def cancel (c : ℕ) : System F A :=
  { (if s.next calltodo = c then s.clear c
      else ((s.touch [s.prev c, s.next c]).unlink c).zfree c) with
    cancelled := update s.cancelled c true }

/-- The elements that a loop over the list looks at. -/
def lookedAt (p : ℕ → Bool) : List ℕ :=
  s.elements.takeWhile (fun c => !p c) ++ (s.elements.find? p).toList

/-- Whether an element is due after a time. -/
def later (time : Timeval) (c : ℕ) : Bool := time.before (s.elem c).time

def timeoutSpecial (func : F) (arg : A) (t : BitVec 32) (special self : Bool) (cur : Timeval) :
    System F A :=
  let time := timeoutTime cur t
  let c := s.fresh
  let cp := (s.elements.find? (s.later time)).getD calltodo
  let next := update (update s.next c cp) (s.prev cp) c
  { s.touch (s.lookedAt (s.later time) ++ [s.prev cp]) with
    fresh := c + 1
    elem := update s.elem c ⟨some func, arg, time, special⟩
    next
    prev := update (update s.prev c (s.prev cp)) cp c
    owed := if next calltodo = c ∧ !self then s.owed + 1 else s.owed
    held := update s.held c true }

/-- Whether an element has a function and argument. -/
def isFor (func : F) (arg : A) (c : ℕ) : Bool :=
  (s.elem c).func = some func ∧ (s.elem c).arg = arg

def untimeout (func : F) (arg : A) : System F A :=
  let s' := s.touch (s.lookedAt (s.isFor func arg))
  match s.elements.find? (s.isFor func arg) with
  | none => s'
  | some c => s'.cancel c

def untimeoutSpecial (c : ℕ) : System F A :=
  let s' := { s.touch [c] with held := update s.held c false }
  if s.next c ≠ 0 then s'.cancel c else s'.zfree c

/-- A step of the softclock thread. -/
def softStep : System F A :=
  let c := s.next calltodo
  match s.soft with
  | .start => { s with soft := .scan }
  | .scan =>
    if c = calltodo then { s with soft := .empty }
    else match (s.elem c).func with
      | none => { (s.removeHead c).zfree c with soft := .scan }
      | some _ => { s.touch [c] with soft := .looked (s.elem c).time }
  | .looked time =>
    if s.now.before time then
      let t := timeToHz (time.sub s.now)
      { s with soft := if t > 0 then .interval t else .due }
    else { s with soft := .due }
  | .interval t => { s with soft := .waiting (s.now.micros + t * 1000) }
  | .due =>
    let s' := s.removeHead c
    match (s.elem c).func with
    | none => { s'.zfree c with soft := .start }
    | some func =>
      { (if (s.elem c).special then { s' with next := update s'.next c 0 }
        else s'.zfree c) with
        soft := .calling c func (s.elem c).arg }
  | .calling c func arg =>
    { s with
      calls := update s.calls c (s.calls c ++ [(func, arg, s.now)])
      soft := .running }
  | .running => { s with soft := .start }
  | .empty | .waiting _ => s

def event : Event F A → System F A
  | .timeoutSpecial func arg t special self cur =>
    if s.soft ≠ .scan ∧ (self → s.soft = .running) ∧ ¬s.now.before cur then
      s.timeoutSpecial func arg t special self cur
    else s
  | .untimeout func arg => if s.soft ≠ .scan then s.untimeout func arg else s
  | .untimeoutSpecial c => if s.soft ≠ .scan ∧ s.held c then s.untimeoutSpecial c else s
  | .poke => if 0 < s.owed then { s with owed := s.owed - 1, pokes := min qlimit (s.pokes + 1) }
    else s
  | .soft => s.softStep
  | .received =>
    if 0 < s.pokes then
      match s.soft with
      | .empty => { s with pokes := s.pokes - 1, soft := .scan }
      | .waiting _ => { s with pokes := s.pokes - 1, soft := .start }
      | _ => s
    else s
  | .timedOut => match s.soft with
    | .waiting deadline => if deadline ≤ s.now.micros then { s with soft := .due } else s
    | _ => s
  | .clock t => if t.before s.now then s else { s with now := t }

def step (e : Event F A) : Option (Unit × System F A) := some ((), s.event e)

omit [DecidableEq F] [DecidableEq A] in
/-- An empty list, in memory that holds something. -/
def init (e : Elem F A) (now : Timeval) : System F A where
  next _ := calltodo
  prev _ := calltodo
  elem _ := e
  fresh := 2
  now := now
  soft := .start
  owed := 0
  pokes := 0
  held _ := false
  freed _ := 0
  cancelled _ := false
  calls _ := []
  fault := false

def run (e : Elem F A) (now : Timeval) (es : List (Event F A)) : System F A :=
  es.foldl event (init e now)

end System

/-! What should hold in every state. -/

/-- It calls, or is about to call, the function of an element. -/
def Soft.isCalling {F A : Type} (c : ℕ) : Soft F A → Bool
  | .calling d _ _ => d = c
  | _ => false

/-- The time of which it is about to compute the interval. -/
def Soft.target {F A : Type} : Soft F A → Option Timeval
  | .looked time => some time
  | _ => none

section Spec
variable {F A : Type}

/-- The elements that `zalloc` has given out. -/
def System.Given (s : System F A) (c : ℕ) : Prop := 2 ≤ c ∧ c < s.fresh

structure Safe (s : System F A) (l : List ℕ) : Prop where
  linked : Doubly.Linked s.next s.prev calltodo l
  sorted : l.Pairwise fun c d => (s.elem c).time.micros ≤ (s.elem d).time.micros
  accounted : ∀ c, s.Given c → (c ∈ l ∧ (s.elem c).func ≠ none) ∨ s.cancelled c ∨
    s.soft.isCalling c ∨ s.calls c ≠ []
  waits : ∀ c ∈ l, s.soft.isCalling c = false ∧ s.calls c = []
  cancelled : ∀ c, s.cancelled c → s.soft.isCalling c = false ∧ s.calls c = []
  once : ∀ c, (s.calls c).length + (if s.soft.isCalling c then 1 else 0) ≤ 1
  calls : ∀ c func arg at', (func, arg, at') ∈ s.calls c → (s.elem c).func = some func ∧
    (s.elem c).arg = arg ∧ (s.elem c).time.micros ≤ at'.micros + tick
  -- a special element that has been called waits for `untimeout_special`
  freed : ∀ c, s.Given c → s.freed c = if c ∈ l ∨ (s.elem c).special ∧ s.held c then 0 else 1
  fault : s.fault = false

variable [DecidableEq F] [DecidableEq A]

/-- Special elements are for `untimeout_special` only, and the others are not; and `time_to_hz` does
not lose more than a tick of the interval that the softclock thread computes. -/
def Fits (s : System F A) : Event F A → Prop
  | .untimeout func arg => ∀ c ∈ s.elements.find? (s.isFor func arg), (s.elem c).special = false
  | .untimeoutSpecial c => (s.elem c).special = true
  | .soft => ∀ time ∈ s.soft.target, s.now.before time → Exact (time.sub s.now)
  | _ => True

instance (s : System F A) : DecidablePred (Fits s)
  | .untimeout func arg =>
    inferInstanceAs (Decidable (∀ c ∈ s.elements.find? (s.isFor func arg), _ = _))
  | .untimeoutSpecial _ => inferInstanceAs (Decidable (_ = _))
  | .soft => inferInstanceAs (Decidable (∀ time ∈ s.soft.target, s.now.before time → Exact _))
  | .timeoutSpecial _ _ _ _ _ _ | .poke | .received | .timedOut | .clock _ => isTrue trivial

end Spec

/-! The invariant. -/

section Inv
variable {F A : Type}

/-- Who has to free an element that the softclock thread has taken off the list. -/
def System.Left (s : System F A) (c : ℕ) : Prop :=
  if (s.elem c).special then s.next c = 0 ∧ s.freed c = (if s.held c then 0 else 1)
  else s.freed c = 1

/-- What has become of an element. -/
inductive Fate (s : System F A) (l : List ℕ) (c : ℕ) : Prop
  | listed (mem : c ∈ l) (freed : s.freed c = 0)
      (cancelled : s.cancelled c = (s.elem c).func.isNone)
      (held : (s.elem c).special = true → s.held c = (s.elem c).func.isSome)
      (quiet : s.soft.isCalling c = false) (calls : s.calls c = [])
  | cancelled (mem : c ∉ l) (freed : s.freed c = 1) (cancelled : s.cancelled c = true)
      (held : (s.elem c).special = true → s.held c = false)
      (quiet : s.soft.isCalling c = false) (calls : s.calls c = [])
  | calling (mem : c ∉ l) (left : s.Left c) (cancelled : s.cancelled c = false)
      (calling : s.soft.isCalling c = true) (calls : s.calls c = [])
  | called (mem : c ∉ l) (left : s.Left c) (cancelled : s.cancelled c = false)
      (quiet : s.soft.isCalling c = false) (func : F) (at' : Timeval)
      (calls : s.calls c = [(func, (s.elem c).arg, at')]) (hfunc : (s.elem c).func = some func)
      (time : (s.elem c).time.micros ≤ at'.micros + tick)

/-- The time at which the first element is due at the latest when softclock comes to take it. -/
def Soft.limit (now : ℤ) : Soft F A → Option ℤ
  | .looked time => some time.micros
  | .interval t => some (now + t * 1000 + tick)
  | .waiting deadline => some (deadline + tick)
  | .due => some (now + tick)
  | _ => none

structure Inv (s : System F A) (l : List ℕ) : Prop where
  linked : Doubly.Linked s.next s.prev calltodo l
  sorted : l.Pairwise fun c d => (s.elem c).time.micros ≤ (s.elem d).time.micros
  given : ∀ c ∈ l, s.Given c
  fate : ∀ c, s.Given c → Fate s l c
  -- memory that is not given out
  rest : ∀ c, ¬s.Given c → s.freed c = 0 ∧ s.held c = false ∧ s.calls c = [] ∧
    s.cancelled c = false ∧ s.soft.isCalling c = false
  fresh : 2 ≤ s.fresh
  far : ∀ c ∈ l, (s.elem c).time.micros ≤ s.now.micros + 0x7fffffff * 1000
  looked : ∀ time, s.soft = .looked time → time.micros ≤ s.now.micros + 0x7fffffff * 1000
  head : ∀ limit, s.soft.limit s.now.micros = some limit →
    ∃ c ∈ l.head?, (s.elem c).time.micros ≤ limit
  calling : ∀ c func arg, s.soft = .calling c func arg → (s.elem c).func = some func ∧
    (s.elem c).arg = arg ∧ (s.elem c).time.micros ≤ s.now.micros + tick
  fault : s.fault = false

variable {s : System F A} {l : List ℕ} {c : ℕ}

theorem Inv.safe (h : Inv s l) : Safe s l where
  linked := h.linked
  sorted := h.sorted
  accounted c hc := by
    cases h.fate c hc with
    | listed mem freed cancelled held quiet calls =>
      cases hf : (s.elem c).func with
      | none => exact .inr (.inl (by rw [cancelled, hf]; rfl))
      | some func => exact .inl ⟨mem, nofun⟩
    | cancelled mem freed cancelled => exact .inr (.inl cancelled)
    | calling mem left cancelled calling => exact .inr (.inr (.inl calling))
    | called mem left cancelled quiet func at' calls =>
      exact .inr (.inr (.inr (by rw [calls]; exact cons_ne_nil _ _)))
  waits c hc := by
    cases h.fate c (h.given c hc) with
    | listed mem freed cancelled held quiet calls => exact ⟨quiet, calls⟩
    | cancelled mem | calling mem | called mem => exact absurd hc mem
  cancelled c hc := by
    by_cases hgiven : s.Given c
    · cases h.fate c hgiven with
      | listed mem freed cancelled held quiet calls => exact ⟨quiet, calls⟩
      | cancelled mem freed cancelled held quiet calls => exact ⟨quiet, calls⟩
      | calling mem left cancelled | called mem left cancelled =>
        rw [cancelled] at hc
        cases hc
    · rw [(h.rest c hgiven).2.2.2.1] at hc
      cases hc
  once c := by
    by_cases hgiven : s.Given c
    · cases h.fate c hgiven with
      | listed mem freed cancelled held quiet calls => simp [quiet, calls]
      | cancelled mem freed cancelled held quiet calls => simp [quiet, calls]
      | calling mem left cancelled calling calls => simp [calling, calls]
      | called mem left cancelled quiet func at' calls => simp [quiet, calls]
    · obtain ⟨-, -, hcalls, -, hquiet⟩ := h.rest c hgiven
      simp [hquiet, hcalls]
  calls c func arg at' hmem := by
    by_cases hgiven : s.Given c
    · cases h.fate c hgiven with
      | listed _ _ _ _ _ calls | cancelled _ _ _ _ _ calls | calling _ _ _ _ calls =>
        rw [calls] at hmem
        cases hmem
      | called mem left cancelled quiet func' at'' calls hfunc time =>
        rw [calls] at hmem
        obtain ⟨rfl, rfl, rfl⟩ : func = func' ∧ arg = (s.elem c).arg ∧ at' = at'' := by
          simpa using hmem
        exact ⟨hfunc, rfl, time⟩
    · rw [(h.rest c hgiven).2.2.1] at hmem
      cases hmem
  freed c hc := by
    have hleft : c ∉ l → s.Left c → s.freed c =
        if c ∈ l ∨ (s.elem c).special ∧ s.held c then 0 else 1 := by
      intro hmem hleft
      unfold Left at hleft
      split at hleft
      · next hs => simp [hmem, hs, hleft.2]
      · next hs => simp [hmem, hs, hleft]
    cases h.fate c hc with
    | listed mem freed => rw [freed, if_pos (.inl mem)]
    | cancelled mem freed cancelled held =>
      rw [freed, if_neg]
      rintro (hmem | ⟨hs, hheld⟩)
      · exact mem hmem
      · rw [held hs] at hheld
        cases hheld
    | calling mem left | called mem left => exact hleft mem left
  fault := h.fault

/-! What the parts of a step keep. -/

/-- What has become of an element is the same in two states. -/
structure Same (s s' : System F A) (l l' : List ℕ) (c : ℕ) : Prop where
  mem : c ∈ l' ↔ c ∈ l
  elem : s'.elem c = s.elem c
  freed : s'.freed c = s.freed c
  held : s'.held c = s.held c
  cancelled : s'.cancelled c = s.cancelled c
  calls : s'.calls c = s.calls c
  calling : s'.soft.isCalling c = s.soft.isCalling c
  next : c ∉ l → s'.next c = s.next c

theorem Fate.congr {s' : System F A} {l' : List ℕ} (h : Fate s l c) (hs : Same s s' l l' c) :
    Fate s' l' c := by
  have hleft : c ∉ l → s.Left c → s'.Left c := fun hmem hleft => by
    unfold Left at hleft ⊢
    rwa [hs.elem, hs.next hmem, hs.freed, hs.held]
  cases h with
  | listed mem freed cancelled held quiet calls =>
    exact .listed (hs.mem.2 mem) (hs.freed.trans freed) (by rw [hs.cancelled, hs.elem, cancelled])
      (by rw [hs.elem, hs.held]; exact held) (hs.calling.trans quiet) (hs.calls.trans calls)
  | cancelled mem freed cancelled held quiet calls =>
    exact .cancelled (mt hs.mem.1 mem) (hs.freed.trans freed) (hs.cancelled.trans cancelled)
      (by rw [hs.elem, hs.held]; exact held) (hs.calling.trans quiet) (hs.calls.trans calls)
  | calling mem left cancelled calling calls =>
    exact .calling (mt hs.mem.1 mem) (hleft mem left) (hs.cancelled.trans cancelled)
      (hs.calling.trans calling) (hs.calls.trans calls)
  | called mem left cancelled quiet func at' calls hfunc time =>
    exact .called (mt hs.mem.1 mem) (hleft mem left) (hs.cancelled.trans cancelled)
      (hs.calling.trans quiet) func at' (by rw [hs.calls, hs.elem, calls])
      (by rw [hs.elem, hfunc]) (by rw [hs.elem]; exact time)

theorem Inv.move (h : Inv s l) {now : Timeval} {soft : Soft F A} {owed pokes : ℕ}
    (hnow : s.now.micros ≤ now.micros) (hcalling : ∀ c, soft.isCalling c = s.soft.isCalling c)
    (hlooked : ∀ time, soft = .looked time → time.micros ≤ now.micros + 0x7fffffff * 1000)
    (hhead : ∀ limit, soft.limit now.micros = some limit →
      ∃ c ∈ l.head?, (s.elem c).time.micros ≤ limit)
    (hcall : ∀ c func arg, soft = .calling c func arg → s.soft = .calling c func arg) :
    Inv { s with now, soft, owed, pokes } l where
  linked := h.linked
  sorted := h.sorted
  given := h.given
  fate c hc := (h.fate c hc).congr ⟨.rfl, rfl, rfl, rfl, rfl, rfl, hcalling c, fun _ => rfl⟩
  rest c hc := by
    obtain ⟨hfreed, hheld, hcalls, hcancelled, hquiet⟩ := h.rest c hc
    exact ⟨hfreed, hheld, hcalls, hcancelled, (hcalling c).trans hquiet⟩
  fresh := h.fresh
  far c hc := (h.far c hc).trans (Int.add_le_add_right hnow _)
  looked := hlooked
  head := hhead
  calling c func arg hsoft := by
    obtain ⟨hfunc, harg, htime⟩ := h.calling c func arg (hcall c func arg hsoft)
    exact ⟨hfunc, harg, htime.trans (Int.add_le_add_right hnow _)⟩
  fault := h.fault

theorem Inv.clock (h : Inv s l) {now : Timeval} (hnow : s.now.micros ≤ now.micros) :
    Inv { s with now } l := by
  refine h.move hnow (fun _ => rfl) (fun time hsoft => ?_) (fun limit hlimit => ?_) fun _ _ _ => id
  · exact (h.looked time hsoft).trans (Int.add_le_add_right hnow _)
  · obtain ⟨limit', hlimit', hle⟩ : ∃ limit', s.soft.limit s.now.micros = some limit' ∧
        limit' ≤ limit := by
      cases hsoft : s.soft <;> rw [hsoft] at hlimit <;> cases hlimit <;> exact ⟨_, rfl, by omega⟩
    obtain ⟨c, hc, htime⟩ := h.head limit' hlimit'
    exact ⟨c, hc, htime.trans hle⟩

theorem Inv.elements (h : Inv s l) : s.elements = l := by
  refine h.linked.walk ?_
  have hsub : l ⊆ List.range s.fresh := fun c hc => mem_range.2 (h.given c hc).2
  have hle := (subperm_of_subset (nodup_cons.1 h.linked.nodup).2 hsub).length_le
  rwa [length_range] at hle

theorem Inv.freed_eq_zero (h : Inv s l) (hc : c ∈ calltodo :: l) : s.freed c = 0 := by
  rcases mem_cons.1 hc with rfl | hc
  · exact (h.rest _ fun hgiven => absurd hgiven.1 (by decide)).1
  · cases h.fate c (h.given c hc) with
    | listed mem freed => exact freed
    | cancelled mem | calling mem | called mem => exact absurd hc mem

theorem System.fault_touch {cs : List ℕ} (hfault : s.fault = false)
    (hcs : ∀ c ∈ cs, s.freed c = 0) : (s.touch cs).fault = false := by
  unfold touch
  simp only [hfault, Bool.false_or]
  rw [any_eq_false]
  intro c hc
  simp [hcs c hc]

theorem sorted_insert {k m : ℕ → ℤ} {pre post : List ℕ} {x : ℕ}
    (hsorted : (pre ++ post).Pairwise fun c d => k c ≤ k d)
    (hkey : ∀ c ∈ pre ++ post, m c = k c) (hpre : ∀ c ∈ pre, k c ≤ m x)
    (hpost : ∀ c ∈ post.head?, m x ≤ k c) : (pre ++ x :: post).Pairwise fun c d => m c ≤ m d := by
  have hsorted' : (pre ++ post).Pairwise fun c d => m c ≤ m d :=
    hsorted.imp_of_mem fun hc hd hle => by rwa [hkey _ hc, hkey _ hd]
  obtain ⟨hleft, hright, hcross⟩ := pairwise_append.1 hsorted'
  have hx : ∀ c ∈ post, m x ≤ m c := by
    intro c hc
    cases post with
    | nil => cases hc
    | cons d post =>
      have hd := hpost d rfl
      rw [← hkey d (mem_append_right pre mem_cons_self)] at hd
      rcases mem_cons.1 hc with rfl | hc
      · exact hd
      · exact hd.trans ((pairwise_cons.1 hright).1 c hc)
  refine pairwise_append.2 ⟨hleft, pairwise_cons.2 ⟨hx, hright⟩, fun c hc d hd => ?_⟩
  rcases mem_cons.1 hd with rfl | hd
  · rw [hkey c (mem_append_left post hc)]
    exact hpre c hc
  · exact hcross c hc d hd

section Steps
variable [DecidableEq F] [DecidableEq A]

omit [DecidableEq F] [DecidableEq A] in
theorem Inv.not_given_fresh (h : Inv s l) : ¬s.Given s.fresh ∧ s.fresh ∉ calltodo :: l := by
  refine ⟨fun hgiven => (lt_irrefl _ hgiven.2), fun hmem => ?_⟩
  rcases mem_cons.1 hmem with heq | hmem
  · exact absurd h.fresh (heq ▸ by decide)
  · exact lt_irrefl _ (h.given _ hmem).2

omit [DecidableEq F] [DecidableEq A] in
theorem Inv.lookedAt (h : Inv s l) {p : ℕ → Bool} (hc : c ∈ s.lookedAt p) : c ∈ l := by
  unfold System.lookedAt at hc
  rw [h.elements] at hc
  rcases mem_append.1 hc with hc | hc
  · exact takeWhile_subset _ hc
  · exact mem_of_find?_eq_some (Option.mem_toList.1 hc)

theorem exists_split (p : ℕ → Bool) (l : List ℕ) : ∃ pre post, l = pre ++ post ∧
    (∀ c ∈ pre, p c = false) ∧ (∀ c ∈ post.head?, p c = true) ∧ l.find? p = post.head? := by
  refine ⟨l.takeWhile fun c => !p c, l.dropWhile fun c => !p c,
    takeWhile_append_dropWhile.symm, fun c hc => ?_, fun c hc => ?_,
    find?_eq_head?_dropWhile_not ..⟩
  · simpa using mem_takeWhile_imp hc
  · rw [← find?_eq_head?_dropWhile_not] at hc
    exact find?_some hc

section
omit [DecidableEq F] [DecidableEq A]

theorem Inv.insert (h : Inv s l) {func : F} {arg : A} {t : BitVec 32} {special self : Bool}
    {cur : Timeval} (hcur : cur.micros ≤ s.now.micros) :
    ∃ l', Inv (s.timeoutSpecial func arg t special self cur) l' := by
  obtain ⟨hgiven, hfresh⟩ := h.not_given_fresh
  obtain ⟨pre, post, hl, hpre, hpost, hfind⟩ := exists_split (s.later (timeoutTime cur t)) l
  obtain ⟨hfreed, hheld, hcalls, hcancelled, hquiet⟩ := h.rest _ hgiven
  have hnew : ∀ c ∈ l, c ≠ s.fresh := fun c hc heq => hfresh (.tail _ (heq ▸ hc))
  have hcp : (s.elements.find? (s.later (timeoutTime cur t))).getD calltodo =
      post.head?.getD calltodo := by rw [h.elements, hfind]
  have hcpmem : post.head?.getD calltodo ∈ calltodo :: l := by
    cases post with
    | nil => exact mem_cons_self
    | cons c post => exact .tail _ (hl ▸ mem_append_right pre mem_cons_self)
  have hprev := h.linked.prev_mem hcpmem
  have hfar : (timeoutTime cur t).micros ≤ s.now.micros + 0x7fffffff * 1000 := by
    have := BitVec.toInt_lt (x := t)
    rw [micros_timeoutTime]
    split <;> omega
  generalize hs' : s.timeoutSpecial func arg t special self cur = s'
  have hnext' : s'.next = update (update s.next s.fresh
      (post.head?.getD calltodo)) (s.prev (post.head?.getD calltodo)) s.fresh := by
    rw [← hs', ← hcp]; rfl
  have hprev' : s'.prev = update (update s.prev s.fresh
      (s.prev (post.head?.getD calltodo))) (post.head?.getD calltodo) s.fresh := by
    rw [← hs', ← hcp]; rfl
  have helem : s'.elem = update s.elem s.fresh
      ⟨some func, arg, timeoutTime cur t, special⟩ := by rw [← hs']; rfl
  have hheld' : s'.held = update s.held s.fresh true := by rw [← hs']; rfl
  have hsame : s'.fresh = s.fresh + 1 ∧ s'.freed = s.freed ∧ s'.calls = s.calls ∧
      s'.cancelled = s.cancelled ∧ s'.soft = s.soft ∧ s'.now = s.now := by
    rw [← hs']; exact ⟨rfl, rfl, rfl, rfl, rfl, rfl⟩
  obtain ⟨hfresh', hfreed', hcalls', hcancelled', hsoft', hnow'⟩ := hsame
  have hold : ∀ c, c ≠ s.fresh → s'.elem c = s.elem c := fun c hc => by
    rw [helem, update_of_ne hc]
  have hnewElem : s'.elem s.fresh = ⟨some func, arg, timeoutTime cur t, special⟩ := by
    rw [helem, update_self]
  have hmem : ∀ c, c ≠ s.fresh → (c ∈ pre ++ s.fresh :: post ↔ c ∈ l) := fun c hc => by
    rw [hl, mem_append, mem_append, mem_cons, or_iff_right hc]
  have hcases : ∀ c, s'.Given c → c = s.fresh ∨ c ≠ s.fresh ∧ s.Given c := by
    rintro c ⟨hlow, hhigh⟩
    rw [hfresh'] at hhigh
    exact or_iff_not_imp_left.2 fun hc => ⟨hc, hlow, lt_of_le_of_ne (Nat.le_of_lt_succ hhigh) hc⟩
  refine ⟨pre ++ s.fresh :: post, ?linked, ?sorted, fun c hc => ?given, fun c hc => ?fate,
    fun c hc => ?rest, ?fresh, fun c hc => ?far, ?looked, fun limit hlimit => ?head,
    fun c func' arg' hsoft => ?calling, ?fault⟩
  case linked =>
    rw [hnext', hprev']
    subst hl
    exact h.linked.insert rfl hfresh
  case sorted =>
    subst hl
    refine sorted_insert (k := fun c => (s.elem c).time.micros) h.sorted
      (fun c hc => by rw [hold c (hnew c hc)]) (fun c hc => ?_) fun c hc => ?_
    · rw [hnewElem]
      have hlater := of_decide_eq_false (hpre c hc)
      rw [before_iff] at hlater
      exact not_lt.1 hlater
    · rw [hnewElem]
      have hlater := of_decide_eq_true (hpost c hc)
      rw [before_iff] at hlater
      exact hlater.le
  case given =>
    by_cases heq : c = s.fresh
    · exact ⟨heq ▸ h.fresh, by rw [heq, hfresh']; exact Nat.lt_succ_self _⟩
    · obtain ⟨hlow, hhigh⟩ := h.given c ((hmem c heq).1 hc)
      exact ⟨hlow, by rw [hfresh']; omega⟩
  case fate =>
    rcases hcases c hc with rfl | ⟨hne, hgiven'⟩
    · refine .listed (mem_append_right pre mem_cons_self) (by rw [hfreed', hfreed])
        (by rw [hcancelled', hcancelled, hnewElem]; rfl) (fun _ => ?_) (by rw [hsoft', hquiet])
        (by rw [hcalls', hcalls])
      rw [hheld', update_self, hnewElem]
      rfl
    · refine (h.fate c hgiven').congr ⟨hmem c hne, hold c hne, by rw [hfreed'],
        by rw [hheld', update_of_ne hne], by rw [hcancelled'], by rw [hcalls'],
        by rw [hsoft'], fun hout => ?_⟩
      have hne' : c ≠ s.prev (post.head?.getD calltodo) := by
        intro heq
        rcases mem_cons.1 hprev with hhead | hmem'
        · have hlow : 2 ≤ calltodo := heq.trans hhead ▸ hgiven'.1
          exact absurd hlow (by decide)
        · exact hout (heq ▸ hmem')
      rw [hnext', update_of_ne hne', update_of_ne hne]
  case rest =>
    have hne : c ≠ s.fresh := by
      rintro rfl
      exact hc ⟨h.fresh, by rw [hfresh']; exact Nat.lt_succ_self _⟩
    have hout : ¬s.Given c := fun hgiven' => hc ⟨hgiven'.1, by
      rw [hfresh']
      exact Nat.lt_succ_of_lt hgiven'.2⟩
    rw [hfreed', hheld', update_of_ne hne, hcalls', hcancelled', hsoft']
    exact h.rest c hout
  case fresh =>
    rw [hfresh']
    exact Nat.le_succ_of_le h.fresh
  case far =>
    rw [hnow']
    by_cases heq : c = s.fresh
    · rw [heq, hnewElem]
      exact hfar
    · rw [hold c heq]
      exact h.far c ((hmem c heq).1 hc)
  case looked =>
    rw [hsoft', hnow']
    exact h.looked
  case head =>
    rw [hsoft', hnow'] at hlimit
    obtain ⟨c, hc, htime⟩ := h.head limit hlimit
    cases pre with
    | nil =>
      -- it is due before the first element
      subst hl
      have hlater := of_decide_eq_true (hpost c hc)
      rw [before_iff] at hlater
      exact ⟨s.fresh, rfl, by rw [hnewElem]; exact hlater.le.trans htime⟩
    | cons d pre =>
      subst hl
      obtain rfl : d = c := Option.some.inj hc
      exact ⟨d, rfl, by rw [hold d (hnew d mem_cons_self)]; exact htime⟩
  case calling =>
    rw [hsoft'] at hsoft
    have hne : c ≠ s.fresh := by
      rintro rfl
      rw [hsoft] at hquiet
      exact absurd hquiet (by simp [Soft.isCalling])
    rw [hold c hne, hnow']
    exact h.calling c func' arg' hsoft
  case fault =>
    rw [← hs']
    refine fault_touch h.fault fun c hc => h.freed_eq_zero ?_
    rcases mem_append.1 hc with hc | hc
    · exact .tail _ (h.lookedAt hc)
    · rw [mem_singleton.1 hc, hcp]
      exact hprev

/-- An element is taken off the list, and nothing happens to the others. -/
theorem Inv.remove {pre post : List ℕ} (h : Inv s (pre ++ c :: post)) {s' : System F A}
    (hlinked : Doubly.Linked s'.next s'.prev calltodo (pre ++ post))
    (hnext : ∀ d, d ≠ c → d ≠ s.prev c → s'.next d = s.next d)
    (hconst : s'.elem = s.elem ∧ s'.fresh = s.fresh ∧ s'.now = s.now)
    (hsame : ∀ d, d ≠ c → s'.freed d = s.freed d ∧ s'.held d = s.held d ∧
      s'.cancelled d = s.cancelled d ∧ s'.calls d = s.calls d ∧
      s'.soft.isCalling d = s.soft.isCalling d) (hfate : Fate s' (pre ++ post) c)
    (hlooked : ∀ time, s'.soft = .looked time → s.soft = .looked time)
    (hhead : ∀ limit, s'.soft.limit s.now.micros = some limit →
      ∃ d ∈ (pre ++ post).head?, (s.elem d).time.micros ≤ limit)
    (hcalling : ∀ d func arg, s'.soft = .calling d func arg → (s.elem d).func = some func ∧
      (s.elem d).arg = arg ∧ (s.elem d).time.micros ≤ s.now.micros + tick)
    (hfault : s'.fault = false) : Inv s' (pre ++ post) := by
  obtain ⟨helem, hfresh, hnow⟩ := hconst
  have hc : c ∈ pre ++ c :: post := mem_append_right pre mem_cons_self
  have hsub : (pre ++ post).Sublist (pre ++ c :: post) :=
    (List.Sublist.refl pre).append (sublist_cons_self c post)
  have hgiven : ∀ d, s'.Given d ↔ s.Given d := fun d => by
    unfold Given
    rw [hfresh]
  refine ⟨hlinked, ?sorted, fun d hd => ?given, fun d hd => ?fate, fun d hd => ?rest, ?fresh,
    fun d hd => ?far, fun time hsoft => ?looked, fun limit hlimit => ?head,
    fun d func arg hsoft => ?calling, hfault⟩
  case sorted =>
    rw [helem]
    exact h.sorted.sublist hsub
  case given => exact (hgiven d).2 (h.given d (hsub.subset hd))
  case fate =>
    by_cases heq : d = c
    · exact heq ▸ hfate
    · obtain ⟨hfreed, hheld, hcancelled, hcalls, hquiet⟩ := hsame d heq
      have hmem : d ∈ pre ++ post ↔ d ∈ pre ++ c :: post := by
        rw [mem_append, mem_append, mem_cons, or_iff_right heq]
      refine (h.fate d ((hgiven d).1 hd)).congr ⟨hmem, by rw [helem], hfreed, hheld, hcancelled,
        hcalls, hquiet, fun hout => hnext d heq ?_⟩
      rintro rfl
      rcases mem_cons.1 (h.linked.prev_mem (.tail _ hc)) with hhead | hmem'
      · have hlow : 2 ≤ calltodo := hhead ▸ hd.1
        exact absurd hlow (by decide)
      · exact hout hmem'
  case rest =>
    have hout : ¬s.Given d := mt (hgiven d).2 hd
    have hne : d ≠ c := fun heq => hout (heq ▸ h.given c hc)
    obtain ⟨hfreed, hheld, hcancelled, hcalls, hquiet⟩ := hsame d hne
    rw [hfreed, hheld, hcalls, hcancelled, hquiet]
    exact h.rest d hout
  case fresh =>
    rw [hfresh]
    exact h.fresh
  case far =>
    rw [helem, hnow]
    exact h.far d (hsub.subset hd)
  case looked =>
    rw [hnow]
    exact h.looked time (hlooked time hsoft)
  case head =>
    rw [hnow] at hlimit
    rw [helem]
    exact hhead limit hlimit
  case calling =>
    rw [helem, hnow]
    exact hcalling d func arg hsoft

theorem Inv.listed (h : Inv s l) (hc : c ∈ l) : s.freed c = 0 ∧
    s.cancelled c = (s.elem c).func.isNone ∧
    ((s.elem c).special = true → s.held c = (s.elem c).func.isSome) ∧
    s.soft.isCalling c = false ∧ s.calls c = [] := by
  cases h.fate c (h.given c hc) with
  | listed mem freed cancelled held quiet calls => exact ⟨freed, cancelled, held, quiet, calls⟩
  | cancelled mem | calling mem | called mem => exact absurd hc mem

theorem Inv.clear (h : Inv s l) (hc : c ∈ l) {cs : List ℕ} {b : Bool}
    (hcs : ∀ d ∈ cs, s.freed d = 0) (hb : (s.elem c).special = true → b = false) :
    Inv { { s.touch cs with held := update s.held c b }.clear c with
      cancelled := update s.cancelled c true } l := by
  obtain ⟨hfreed, -, -, hquiet, hcalls⟩ := h.listed hc
  generalize hs' : { { s.touch cs with held := update s.held c b }.clear c with
    cancelled := update s.cancelled c true } = s'
  have helem : s'.elem = update s.elem c { s.elem c with func := none } := by
    rw [← hs']; rfl
  have hheld : s'.held = update s.held c b := by rw [← hs']; rfl
  have hcancelled : s'.cancelled = update s.cancelled c true := by rw [← hs']
  have htime : ∀ d, (s'.elem d).time = (s.elem d).time := fun d => by
    rw [helem, update_apply]
    split
    · next heq => rw [heq]
    · rfl
  have hconst : s'.next = s.next ∧ s'.prev = s.prev ∧ s'.fresh = s.fresh ∧ s'.freed = s.freed ∧
      s'.calls = s.calls ∧ s'.soft = s.soft ∧ s'.now = s.now := by
    rw [← hs']; exact ⟨rfl, rfl, rfl, rfl, rfl, rfl, rfl⟩
  obtain ⟨hnext, hprev, hfresh, hfreed', hcalls', hsoft, hnow⟩ := hconst
  have hgiven : ∀ d, s'.Given d ↔ s.Given d := fun d => by
    unfold Given
    rw [hfresh]
  refine ⟨?linked, ?sorted, fun d hd => (hgiven d).2 (h.given d hd), fun d hd => ?fate,
    fun d hd => ?rest, ?fresh, fun d hd => ?far, ?looked, fun limit hlimit => ?head,
    fun d func arg hcall => ?calling, ?fault⟩
  case linked =>
    rw [hnext, hprev]
    exact h.linked
  case sorted =>
    simp only [htime]
    exact h.sorted
  case fate =>
    by_cases heq : d = c
    · subst heq
      refine .listed hc (by rw [hfreed', hfreed]) ?_ (fun hs => ?_) (by rw [hsoft, hquiet])
        (by rw [hcalls', hcalls])
      · rw [hcancelled, helem, update_self, update_self]
        rfl
      · rw [helem, update_self] at hs
        rw [hheld, helem, update_self, update_self, hb hs]
        rfl
    · exact (h.fate d ((hgiven d).1 hd)).congr ⟨.rfl, by rw [helem, update_of_ne heq],
        by rw [hfreed'], by rw [hheld, update_of_ne heq],
        by rw [hcancelled, update_of_ne heq], by rw [hcalls'], by rw [hsoft],
        fun _ => by rw [hnext]⟩
  case rest =>
    have hout : ¬s.Given d := mt (hgiven d).2 hd
    have hne : d ≠ c := fun heq => hout (heq ▸ h.given c hc)
    rw [hfreed', hheld, hcalls', hcancelled, hsoft, update_of_ne hne, update_of_ne hne]
    exact h.rest d hout
  case fresh =>
    rw [hfresh]
    exact h.fresh
  case far =>
    rw [htime, hnow]
    exact h.far d hd
  case looked =>
    rw [hsoft, hnow]
    exact h.looked
  case head =>
    rw [hsoft, hnow] at hlimit
    obtain ⟨d, hd, hlt⟩ := h.head limit hlimit
    exact ⟨d, hd, by rw [htime]; exact hlt⟩
  case calling =>
    rw [hsoft] at hcall
    have hne : d ≠ c := by
      rintro rfl
      rw [hcall] at hquiet
      exact absurd hquiet (by simp [Soft.isCalling])
    rw [helem, update_of_ne hne, hnow]
    exact h.calling d func arg hcall
  case fault =>
    rw [← hs']
    exact fault_touch h.fault hcs

theorem Inv.head_ne (h : Inv s l) (hc : c ∈ l) (hne : s.next calltodo ≠ c) :
    ∃ d pre post, l = d :: pre ++ c :: post := by
  cases l with
  | nil => cases hc
  | cons d l =>
    have hd : s.next calltodo = d := h.linked.next_header
    rcases mem_cons.1 hc with rfl | hc
    · exact absurd hd hne
    · obtain ⟨pre, post, rfl⟩ := append_of_mem hc
      exact ⟨d, pre, post, rfl⟩

theorem Inv.cancel (h : Inv s l) (hc : c ∈ l) {cs : List ℕ} {b : Bool}
    (hcs : ∀ d ∈ cs, s.freed d = 0) (hb : (s.elem c).special = true → b = false) :
    ∃ l', Inv ({ s.touch cs with held := update s.held c b }.cancel c) l' := by
  unfold System.cancel
  split
  · exact ⟨l, h.clear hc hcs hb⟩
  · next hne =>
    obtain ⟨hfreed, hcancelled, -, hquiet, hcalls⟩ := h.listed hc
    obtain ⟨d, pre, post, rfl⟩ := h.head_ne hc hne
    have hends := h.linked.prev_mem (.tail _ hc)
    have hends' := h.linked.next_mem (.tail _ hc)
    have hout : c ∉ d :: pre ++ post :=
      (nodup_cons.1 (nodup_middle.1 (nodup_cons.1 h.linked.nodup).2)).1
    refine ⟨d :: pre ++ post, h.remove h.linked.remove (fun e _ he => update_of_ne he ..)
      ⟨rfl, rfl, rfl⟩ (fun e he => ⟨update_of_ne he .., update_of_ne he ..,
        update_of_ne he .., rfl, rfl⟩)
      (.cancelled hout ?_ (update_self ..) (fun hs => ?_) hquiet hcalls) (fun _ => id)
      (fun limit hlimit => h.head limit hlimit) (fun e func arg hsoft => h.calling e func arg hsoft)
      (System.fault_touch (System.fault_touch h.fault hcs) ?_)⟩
    · change update s.freed c (s.freed c + 1) c = 1
      rw [update_self, hfreed]
    · exact (update_self ..).trans (hb hs)
    · intro e he
      rcases mem_cons.1 he with rfl | he
      · exact h.freed_eq_zero hends
      · rw [mem_singleton.1 he]
        exact h.freed_eq_zero hends'

theorem Inv.touch (h : Inv s l) {cs : List ℕ} (hcs : ∀ d ∈ cs, s.freed d = 0) :
    Inv (s.touch cs) l where
  linked := h.linked
  sorted := h.sorted
  given := h.given
  fate c hc := (h.fate c hc).congr ⟨.rfl, rfl, rfl, rfl, rfl, rfl, rfl, fun _ => rfl⟩
  rest := h.rest
  fresh := h.fresh
  far := h.far
  looked := h.looked
  head := h.head
  calling := h.calling
  fault := fault_touch h.fault hcs

end

theorem Inv.untimeout (h : Inv s l) {func : F} {arg : A}
    (hfits : ∀ c ∈ s.elements.find? (s.isFor func arg), (s.elem c).special = false) :
    ∃ l', Inv (s.untimeout func arg) l' := by
  have hcs : ∀ d ∈ s.lookedAt (s.isFor func arg), s.freed d = 0 :=
    fun d hd => h.freed_eq_zero (.tail _ (h.lookedAt hd))
  unfold System.untimeout
  dsimp only
  split
  · exact ⟨l, h.touch hcs⟩
  · next c hfind =>
    have hc : c ∈ l := h.elements ▸ mem_of_find?_eq_some hfind
    have hspecial : (s.elem c).special = false := hfits c hfind
    have hcancel := h.cancel hc hcs (b := s.held c) fun hs => by
      rw [hspecial] at hs
      cases hs
    rwa [update_eq_self] at hcancel

section
omit [DecidableEq F] [DecidableEq A]

theorem Inv.release (h : Inv s l) (hmem : c ∉ l) (hgiven : s.Given c)
    (hspecial : (s.elem c).special = true) (hnext : s.next c = 0) (hfreed : s.freed c = 0)
    (hheld : s.held c = true) :
    Inv ({ s.touch [c] with held := update s.held c false }.zfree c) l := by
  generalize hs' : { s.touch [c] with held := update s.held c false }.zfree c = s'
  have hheld' : s'.held = update s.held c false := by rw [← hs']; rfl
  have hfreed' : s'.freed = update s.freed c (s.freed c + 1) := by rw [← hs']; rfl
  have hconst : s'.next = s.next ∧ s'.prev = s.prev ∧ s'.elem = s.elem ∧ s'.fresh = s.fresh ∧
      s'.cancelled = s.cancelled ∧ s'.calls = s.calls ∧ s'.soft = s.soft ∧ s'.now = s.now := by
    rw [← hs']; exact ⟨rfl, rfl, rfl, rfl, rfl, rfl, rfl, rfl⟩
  obtain ⟨hnext', hprev, helem, hfresh, hcancelled, hcalls, hsoft, hnow⟩ := hconst
  have hgiven' : ∀ d, s'.Given d ↔ s.Given d := fun d => by
    unfold Given
    rw [hfresh]
  have hleft : s'.Left c := by
    unfold Left
    rw [helem, hspecial, if_pos rfl, hnext', hfreed', hheld', update_self, update_self, hfreed]
    exact ⟨hnext, rfl⟩
  refine ⟨by rw [hnext', hprev]; exact h.linked, by rw [helem]; exact h.sorted,
    fun d hd => (hgiven' d).2 (h.given d hd), fun d hd => ?fate, fun d hd => ?rest,
    by rw [hfresh]; exact h.fresh, by rw [helem, hnow]; exact h.far,
    by rw [hsoft, hnow]; exact h.looked, by rw [hsoft, hnow, helem]; exact h.head,
    by rw [hsoft, helem, hnow]; exact h.calling, ?fault⟩
  case fate =>
    by_cases heq : d = c
    · subst heq
      cases h.fate d hgiven with
      | listed mem => exact absurd mem hmem
      | cancelled mem freed cancelled held =>
        rw [held hspecial] at hheld
        cases hheld
      | calling mem left cancelled calling calls =>
        exact .calling mem hleft (by rw [hcancelled, cancelled]) (by rw [hsoft, calling])
          (by rw [hcalls, calls])
      | called mem left cancelled quiet func at' calls hfunc time =>
        exact .called mem hleft (by rw [hcancelled, cancelled]) (by rw [hsoft, quiet]) func at'
          (by rw [hcalls, helem, calls]) (by rw [helem, hfunc]) (by rw [helem]; exact time)
    · exact (h.fate d ((hgiven' d).1 hd)).congr ⟨.rfl, by rw [helem],
        by rw [hfreed', update_of_ne heq], by rw [hheld', update_of_ne heq],
        by rw [hcancelled], by rw [hcalls], by rw [hsoft], fun _ => by rw [hnext']⟩
  case rest =>
    have hout : ¬s.Given d := mt (hgiven' d).2 hd
    have hne : d ≠ c := fun heq => hout (heq ▸ hgiven)
    rw [hfreed', hheld', update_of_ne hne, update_of_ne hne, hcalls, hcancelled, hsoft]
    exact h.rest d hout
  case fault =>
    rw [← hs']
    refine fault_touch h.fault fun d hd => ?_
    rw [mem_singleton.1 hd]
    exact hfreed

theorem Inv.untimeoutSpecial (h : Inv s l) (hheld : s.held c = true)
    (hspecial : (s.elem c).special = true) : ∃ l', Inv (s.untimeoutSpecial c) l' := by
  have hgiven : s.Given c := by
    by_contra hout
    rw [(h.rest c hout).2.1] at hheld
    cases hheld
  have hgone : c ∉ l → s.Left c → ∃ l', Inv (s.untimeoutSpecial c) l' := by
    intro hmem hleft
    unfold System.Left at hleft
    rw [hspecial, if_pos rfl, hheld, if_pos rfl] at hleft
    unfold System.untimeoutSpecial
    rw [if_neg (not_not.2 hleft.1)]
    exact ⟨l, h.release hmem hgiven hspecial hleft.1 hleft.2 hheld⟩
  cases h.fate c hgiven with
  | listed mem freed =>
    have hnext : s.next c ≠ 0 := by
      intro hzero
      rcases mem_cons.1 (h.linked.next_mem (.tail _ mem)) with heq | hmem
      · rw [hzero] at heq
        cases heq
      · rw [hzero] at hmem
        exact absurd (h.given 0 hmem).1 (by decide)
    unfold System.untimeoutSpecial
    rw [if_pos hnext]
    refine h.cancel mem (fun d hd => ?_) fun _ => rfl
    rw [mem_singleton.1 hd]
    exact freed
  | cancelled mem freed cancelled held =>
    rw [held hspecial] at hheld
    cases hheld
  | calling mem left | called mem left => exact hgone mem left

theorem Inv.cons_of_ne (h : Inv s l) (hne : s.next calltodo ≠ calltodo) :
    ∃ post, l = s.next calltodo :: post := by
  have hhead := h.linked.next_header
  cases l with
  | nil => exact absurd hhead hne
  | cons c post =>
    have hc : s.next calltodo = c := hhead
    exact ⟨post, by rw [hc]⟩

theorem Inv.removeHead_linked {post : List ℕ} (h : Inv s (c :: post)) :
    Doubly.Linked (s.removeHead c).next (s.removeHead c).prev calltodo post := by
  have hhead : Doubly.Linked s.next s.prev calltodo ([] ++ c :: post) := h.linked
  have hlinked := hhead.remove
  rwa [h.linked.prev_head] at hlinked

theorem Inv.removeHead_fault {post : List ℕ} (h : Inv s (c :: post)) :
    (s.removeHead c).fault = false := by
  refine fault_touch h.fault fun d hd => ?_
  rcases mem_cons.1 hd with rfl | hd
  · exact h.freed_eq_zero (.tail _ mem_cons_self)
  · rw [mem_singleton.1 hd]
    exact h.freed_eq_zero (h.linked.next_mem (.tail _ mem_cons_self))

theorem Inv.removeHead_next {post : List ℕ} (h : Inv s (c :: post)) {d : ℕ}
    (hd : d ≠ s.prev c) : (s.removeHead c).next d = s.next d := by
  rw [h.linked.prev_head] at hd
  exact update_of_ne hd ..

theorem Inv.dropHead {post : List ℕ} (h : Inv s (c :: post)) (hfunc : (s.elem c).func = none)
    {soft : Soft F A} (hquiet : ∀ d, s.soft.isCalling d = false)
    (hsoft : soft = .scan ∨ soft = .start) :
    Inv { (s.removeHead c).zfree c with soft } post := by
  obtain ⟨hfreed, hcancelled, hheld, -, hcalls⟩ := h.listed mem_cons_self
  have hhead : Inv s ([] ++ c :: post) := h
  rw [hfunc] at hcancelled hheld
  have hquiet' : ∀ d, soft.isCalling d = false := by
    rcases hsoft with rfl | rfl <;> exact fun _ => rfl
  refine hhead.remove h.removeHead_linked (fun d _ hd => h.removeHead_next hd)
    ⟨rfl, rfl, rfl⟩ (fun d hd => ⟨update_of_ne hd .., rfl, rfl, rfl,
      (hquiet' d).trans (hquiet d).symm⟩)
    (.cancelled (nodup_cons.1 (nodup_cons.1 h.linked.nodup).2).1 ?_ hcancelled hheld
      (hquiet' c) hcalls) ?_ ?_ ?_ h.removeHead_fault
  · change update s.freed c (s.freed c + 1) c = 1
    rw [update_self, hfreed]
  all_goals
    intro _
    rcases hsoft with rfl | rfl <;> exact nofun

theorem Inv.due {post : List ℕ} (h : Inv s (c :: post)) (hdue : s.soft = .due) {func : F}
    (hfunc : (s.elem c).func = some func) :
    Inv { (if (s.elem c).special then
        { s.removeHead c with next := update (s.removeHead c).next c 0 }
      else (s.removeHead c).zfree c) with
      soft := .calling c func (s.elem c).arg } post := by
  obtain ⟨hfreed, hcancelled, hheld, hquiet, hcalls⟩ := h.listed mem_cons_self
  have hout : c ∉ post := (nodup_cons.1 (nodup_cons.1 h.linked.nodup).2).1
  have hhead : Inv s ([] ++ c :: post) := h
  obtain ⟨d, hd, htime⟩ := h.head (s.now.micros + tick) (by rw [hdue]; rfl)
  rw [show d = c from (Option.some.inj hd).symm] at htime
  rw [hfunc] at hcancelled hheld
  have hcall : ∀ d func' arg, Soft.calling c func (s.elem c).arg = .calling d func' arg →
      (s.elem d).func = some func' ∧ (s.elem d).arg = arg ∧
        (s.elem d).time.micros ≤ s.now.micros + tick := by
    rintro d func' arg heq
    cases heq
    exact ⟨hfunc, rfl, htime⟩
  have hcalling : ∀ d, d ≠ c →
      (Soft.calling c func (s.elem c).arg).isCalling d = s.soft.isCalling d := fun d hne => by
    rw [hdue]
    exact decide_eq_false (Ne.symm hne)
  split
  · next hspecial =>
    refine hhead.remove (h.removeHead_linked.congr (fun d hd => ?_) fun d _ => rfl)
      (fun d hd hd' => (update_of_ne hd ..).trans (h.removeHead_next hd')) ⟨rfl, rfl, rfl⟩
      (fun d hd => ⟨rfl, rfl, rfl, rfl, hcalling d hd⟩)
      (.calling hout ?_ hcancelled (decide_eq_true rfl) hcalls) (fun _ => nofun) (fun _ => nofun)
      hcall h.removeHead_fault
    · have hne : d ≠ c := by
        intro hdc
        rcases mem_cons.1 hd with heq | hd
        · have hlow : 2 ≤ calltodo := (hdc.symm.trans heq) ▸ (h.given c mem_cons_self).1
          exact absurd hlow (by decide)
        · exact hout (hdc ▸ hd)
      exact update_of_ne hne ..
    · unfold Left
      refine (if_pos hspecial).symm ▸ ⟨update_self .., ?_⟩
      exact hfreed.trans (if_pos (hheld hspecial)).symm
  · next hspecial =>
    refine hhead.remove h.removeHead_linked (fun d _ hd => h.removeHead_next hd)
      ⟨rfl, rfl, rfl⟩ (fun d hd => ⟨update_of_ne hd .., rfl, rfl, rfl, hcalling d hd⟩)
      (.calling hout ?_ hcancelled (decide_eq_true rfl) hcalls) (fun _ => nofun) (fun _ => nofun)
      hcall h.removeHead_fault
    unfold Left
    refine (if_neg hspecial).symm ▸ ?_
    change update s.freed c (s.freed c + 1) c = 1
    rw [update_self, hfreed]

theorem Inv.call (h : Inv s l) {func : F} {arg : A} (hsoft : s.soft = .calling c func arg) :
    Inv { s with
      calls := update s.calls c (s.calls c ++ [(func, arg, s.now)])
      soft := .running } l := by
  obtain ⟨hfunc, harg, htime⟩ := h.calling c func arg hsoft
  have hcalling : s.soft.isCalling c = true := by rw [hsoft]; exact decide_eq_true rfl
  have hother : ∀ d, d ≠ c → s.soft.isCalling d = false := fun d hd => by
    rw [hsoft]
    exact decide_eq_false (Ne.symm hd)
  have hgiven : s.Given c := by
    by_contra hout
    rw [(h.rest c hout).2.2.2.2] at hcalling
    cases hcalling
  refine ⟨h.linked, h.sorted, h.given, fun d hd => ?fate, fun d hd => ?rest, h.fresh, h.far,
    fun _ => nofun, fun _ => nofun, fun _ _ _ => nofun, h.fault⟩
  case fate =>
    by_cases heq : d = c
    · subst heq
      cases h.fate d hd with
      | calling mem left cancelled calling calls =>
        refine .called mem left cancelled rfl func s.now ?_ hfunc htime
        rw [calls, harg]
        exact update_self ..
      | listed _ _ _ _ quiet | cancelled _ _ _ _ quiet | called _ _ _ quiet =>
        rw [quiet] at hcalling
        cases hcalling
    · exact (h.fate d hd).congr ⟨.rfl, rfl, rfl, rfl, rfl, update_of_ne heq ..,
        (hother d heq).symm, fun _ => rfl⟩
  case rest =>
    have hne : d ≠ c := fun heq => hd (heq ▸ hgiven)
    obtain ⟨hfreed, hheld, hcalls, hcancelled, -⟩ := h.rest d hd
    exact ⟨hfreed, hheld, (update_of_ne hne ..).trans hcalls, hcancelled, rfl⟩

theorem Inv.scan (h : Inv s l) (hsoft : s.soft = .scan) : ∃ l', Inv s.softStep l' := by
  have hquiet : ∀ d, s.soft.isCalling d = false := fun d => by rw [hsoft]; rfl
  unfold softStep
  simp only [hsoft]
  split
  · exact ⟨l, h.move le_rfl (fun d => (hquiet d).symm) (fun _ => nofun) (fun _ => nofun)
      fun _ _ _ => nofun⟩
  · next hne =>
    obtain ⟨post, rfl⟩ := h.cons_of_ne hne
    split
    · next hfunc => exact ⟨post, h.dropHead hfunc hquiet (.inl rfl)⟩
    · have htouch : Inv (s.touch [s.next calltodo]) (s.next calltodo :: post) := by
        refine h.touch fun d hd => ?_
        rw [mem_singleton.1 hd]
        exact h.freed_eq_zero (.tail _ mem_cons_self)
      refine ⟨_, htouch.move le_rfl (fun d => (hquiet d).symm) (fun time heq => ?_)
        (fun limit hlimit => ?_) fun _ _ _ => nofun⟩
      · cases heq
        exact h.far _ mem_cons_self
      · cases hlimit
        exact ⟨_, rfl, le_rfl⟩

theorem Inv.looked_step (h : Inv s l) {time : Timeval} (hsoft : s.soft = .looked time)
    (hfits : s.now.before time → Exact (time.sub s.now)) : Inv s.softStep l := by
  have hquiet : ∀ d, s.soft.isCalling d = false := fun d => by rw [hsoft]; rfl
  obtain ⟨c, hc, htime⟩ := h.head time.micros (by rw [hsoft]; rfl)
  have hfar := h.looked time hsoft
  unfold softStep
  simp only [hsoft]
  split
  · next hbefore =>
    have hexact := timeToHz_exact (hfits hbefore) (by rw [micros_sub]; omega)
    rw [micros_sub] at hexact
    by_cases hpos : timeToHz (time.sub s.now) > 0
    · rw [if_pos hpos]
      refine h.move le_rfl (fun d => (hquiet d).symm) (fun _ => nofun) (fun limit hlimit => ?_)
        fun _ _ _ => nofun
      cases hlimit
      exact ⟨c, hc, by omega⟩
    · rw [if_neg hpos]
      refine h.move le_rfl (fun d => (hquiet d).symm) (fun _ => nofun) (fun limit hlimit => ?_)
        fun _ _ _ => nofun
      cases hlimit
      exact ⟨c, hc, by omega⟩
  · next hbefore =>
    rw [before_iff] at hbefore
    refine h.move le_rfl (fun d => (hquiet d).symm) (fun _ => nofun) (fun limit hlimit => ?_)
      fun _ _ _ => nofun
    cases hlimit
    exact ⟨c, hc, by unfold tick; omega⟩

theorem Inv.softStep (h : Inv s l)
    (hfits : ∀ time ∈ s.soft.target, s.now.before time → Exact (time.sub s.now)) :
    ∃ l', Inv s.softStep l' := by
  rcases hsoft : s.soft with _ | _ | _ | time | t | deadline | _ | ⟨c, func, arg⟩ | _
  case scan => exact h.scan hsoft
  case looked => exact ⟨l, h.looked_step hsoft (hfits time (by rw [hsoft]; rfl))⟩
  case due =>
    obtain ⟨d, hd, -⟩ := h.head (s.now.micros + tick) (by rw [hsoft]; rfl)
    have hquiet : ∀ d, s.soft.isCalling d = false := fun d => by rw [hsoft]; rfl
    cases l with
    | nil => cases hd
    | cons c post =>
      have hc : s.next calltodo = c := h.linked.next_header
      unfold System.softStep
      simp only [hsoft, hc]
      split
      · next hfunc => exact ⟨post, h.dropHead hfunc hquiet (.inr rfl)⟩
      · next func hfunc => exact ⟨post, h.due hsoft hfunc⟩
  case calling =>
    unfold System.softStep
    simp only [hsoft]
    exact ⟨l, h.call hsoft⟩
  case interval =>
    unfold System.softStep
    simp only [hsoft]
    refine ⟨l, h.move le_rfl (fun d => by rw [hsoft]; rfl) (fun _ => nofun) (fun limit hlimit => ?_)
      fun _ _ _ => nofun⟩
    exact h.head limit (by rw [hsoft]; exact hlimit)
  case start | running =>
    unfold System.softStep
    simp only [hsoft]
    exact ⟨l, h.move le_rfl (fun d => by rw [hsoft]; rfl) (fun _ => nofun) (fun _ => nofun)
      fun _ _ _ => nofun⟩
  case empty | waiting =>
    unfold System.softStep
    simp only [hsoft]
    exact ⟨l, h⟩

end

theorem Inv.event (h : Inv s l) {e : Event F A} (hfits : Fits s e) : ∃ l', Inv (s.event e) l' := by
  cases e with
  | timeoutSpecial func arg t special self cur =>
    unfold System.event
    dsimp only
    split
    · next hguard =>
      have hcur := hguard.2.2
      rw [before_iff, not_lt] at hcur
      exact h.insert hcur
    · exact ⟨l, h⟩
  | untimeout func arg =>
    unfold System.event
    dsimp only
    split
    · exact h.untimeout hfits
    · exact ⟨l, h⟩
  | untimeoutSpecial c =>
    unfold System.event
    dsimp only
    split
    · next hguard => exact h.untimeoutSpecial hguard.2 hfits
    · exact ⟨l, h⟩
  | poke =>
    unfold System.event
    dsimp only
    split
    · exact ⟨l, h.move le_rfl (fun _ => rfl) h.looked h.head fun _ _ _ => id⟩
    · exact ⟨l, h⟩
  | soft => exact h.softStep hfits
  | received =>
    unfold System.event
    dsimp only
    split
    · split
      · next hsoft =>
        exact ⟨l, h.move le_rfl (fun d => by rw [hsoft]; rfl) (fun _ => nofun) (fun _ => nofun)
          fun _ _ _ => nofun⟩
      · next deadline hsoft =>
        exact ⟨l, h.move le_rfl (fun d => by rw [hsoft]; rfl) (fun _ => nofun) (fun _ => nofun)
          fun _ _ _ => nofun⟩
      · exact ⟨l, h⟩
    · exact ⟨l, h⟩
  | timedOut =>
    unfold System.event
    dsimp only
    split
    · next deadline hsoft =>
      split
      · next hle =>
        refine ⟨l, h.move le_rfl (fun d => by rw [hsoft]; rfl) (fun _ => nofun)
          (fun limit hlimit => ?_) fun _ _ _ => nofun⟩
        cases hlimit
        obtain ⟨c, hc, htime⟩ := h.head (deadline + tick) (by rw [hsoft]; rfl)
        exact ⟨c, hc, htime.trans (Int.add_le_add_right hle tick)⟩
      · exact ⟨l, h⟩
    · exact ⟨l, h⟩
  | clock t =>
    unfold System.event
    dsimp only
    split
    · exact ⟨l, h⟩
    · next hbefore =>
      rw [before_iff, not_lt] at hbefore
      exact ⟨l, h.clock hbefore⟩

omit [DecidableEq F] [DecidableEq A] in
theorem Inv.init (e : Elem F A) (now : Timeval) : Inv (System.init e now) [] where
  linked := ⟨nodup_singleton _, .cons_cons ⟨rfl, rfl⟩ (.singleton _)⟩
  sorted := .nil
  given := nofun
  fate _ hc := absurd hc.2 (Nat.not_lt.2 hc.1)
  rest _ _ := ⟨rfl, rfl, rfl, rfl, rfl⟩
  fresh := le_rfl
  far := nofun
  looked _ := nofun
  head _ := nofun
  calling _ _ _ := nofun
  fault := rfl

end Steps

end Inv

/-- While special elements are for `untimeout_special` only and `time_to_hz` is exact to a tick,
every state that any number of threads reach is safe. -/
theorem calloutRuns_safe {F A : Type} [DecidableEq F] [DecidableEq A] (e : Elem F A)
    (now : Timeval) (es : List (Event F A))
    (hes : Runs.Along System.step Fits (System.init e now) es) :
    ∃ l, Safe (System.run e now es) l := by
  obtain ⟨l, h⟩ : ∃ l, Inv (System.run e now es) l :=
    hes.foldl (I := fun s => ∃ l, Inv s l) (fun _ _ ⟨_, h⟩ hfits => h.event hfits) ⟨[], .init e now⟩
  exact ⟨l, h.safe⟩

def zero : Timeval := ⟨0, 0, by decide, by decide⟩

/-- Softclock waits for the second of three timeouts when the first is set, which pokes it. The
first is called, the special second one while its handle is still to be passed; the third, at the
head by then, is cancelled. -/
def threeTimeouts : List (Event Bool ℕ) :=
  [.timeoutSpecial true 2 2 true false zero, .timeoutSpecial false 3 5 false false zero, .poke,
    .soft, .soft, .soft, .soft, .timeoutSpecial false 1 1 false false zero, .poke, .received,
    .soft, .soft, .soft, .soft, .clock ⟨0, 1500, by decide, by decide⟩, .timedOut, .soft, .soft,
    .soft, .soft, .soft, .soft, .soft, .soft, .untimeout false 3, .soft, .untimeoutSpecial 2, .soft,
    .soft]

theorem calloutRuns_safe_three :
    ∃ l, Safe (System.run ⟨none, 0, zero, false⟩ zero threeTimeouts) l :=
  calloutRuns_safe ⟨none, 0, zero, false⟩ zero threeTimeouts (by decide +kernel)

/-- A special timeout is cancelled by its function and argument, and its handle is passed. -/
def twiceCancelled : List (Event Bool ℕ) :=
  [.timeoutSpecial true 1 1 false false zero, .timeoutSpecial false 2 2 true false zero,
    .untimeout false 2, .untimeoutSpecial 3]

/-- A timeout of almost 25 days, of whose seconds the last is lost. -/
def longTimeout : List (Event Bool ℕ) :=
  [.timeoutSpecial true 1 0x7fffffff false false zero, .soft, .soft, .soft, .soft,
    .clock ⟨2147483, 0, by decide, by decide⟩, .timedOut, .soft, .soft]

theorem cancelled_and_long_not_safe :
    (¬∃ l, Safe (System.run ⟨none, 0, zero, false⟩ zero twiceCancelled) l) ∧
      ¬∃ l, Safe (System.run ⟨none, 0, zero, false⟩ zero longTimeout) l := by
  constructor
  · rintro ⟨l, h⟩
    exact absurd h.fault (by decide +kernel)
  · rintro ⟨l, h⟩
    have htime := (h.calls 2 true 1 ⟨2147483, 0, by decide, by decide⟩ (by decide +kernel)).2.2
    revert htime
    decide +kernel

end MachKernel.Ux.Callout
