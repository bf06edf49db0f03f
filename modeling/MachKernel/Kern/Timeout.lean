import MachKernel.Lib.Word32
import Mathlib.Data.List.Perm.Basic
import Mathlib.Data.List.Range

/-! Timeouts (`kern/mach_clock.c`): the list of timer elements in the order of their expiry, ended by
a sentinel. -/

namespace MachKernel.Kern
open Function List
open Word32

/-- An element on the list: the timer, and its expiry. -/
structure TimerElt where
  telt : ℕ
  ticks : ℕ
  deriving DecidableEq

/-- `elapsed_ticks`, the chain behind `timer_head`, and the elements that are set. -/
structure Timers where
  elapsedTicks : ℕ
  chain : List TimerElt
  set : ℕ → Bool

/-- `timer_head.ticks`, the greatest number there is. -/
def sentinel : ℕ := modulus - 1

/-- The loop of `set_timeout`, which comes to the first element again behind the sentinel: the
elements in front of the place found. -/
def searchNext (chain : List TimerElt) (interval : ℕ) : ℕ → List TimerElt → List TimerElt →
    Option (List TimerElt)
  | turns + 1, before, [] =>
    if interval < sentinel then some before else searchNext chain interval turns [] chain
  | turns + 1, before, next :: rest =>
    if interval < next.ticks then some before
    else searchNext chain interval turns (before ++ [next]) rest
  | 0, _, _ => none

namespace Timers
variable (t : Timers)

/-- `set_timeout`; there is no result when the loop does not end. -/
def setTimeout (telt interval : ℕ) : Option Timers :=
  let interval := add interval t.elapsedTicks
  (searchNext t.chain interval (t.chain.length + 1) [] t.chain).map fun before =>
    { t with
      chain := before ++ ⟨telt, interval⟩ :: t.chain.drop before.length
      set := update t.set telt true }

def resetTimeout (telt : ℕ) : Bool × Timers :=
  if t.set telt then
    (true, { t with
      chain := t.chain.filter fun e => e.telt ≠ telt
      set := update t.set telt false })
  else (false, t)

/-- `queue_first(&timer_head.chain)->ticks`. -/
def firstTicks : ℕ := (t.chain.head?.map TimerElt.ticks).getD sentinel

/-- What `clock_interrupt` does to the tick count, and whether it wants `softclock` to run. -/
def clockInterrupt : Bool × Timers :=
  let t := { t with elapsedTicks := add t.elapsedTicks 1 }
  (decide (t.firstTicks ≤ t.elapsedTicks), t)

/-- A turn of the loop of `softclock`: it ends, it calls the function of an element, or it takes the
sentinel off the list. -/
inductive SoftTurn
  | done
  | call (telt : ℕ) (t : Timers)
  | takesSentinel

def softTurn : SoftTurn :=
  if t.elapsedTicks < t.firstTicks then .done
  else
    match t.chain with
    | [] => .takesSentinel
    | e :: rest => .call e.telt { t with chain := rest, set := update t.set e.telt false }

end Timers

/-- The ticks in `thread_will_wait_with_timeout`. -/
def timeoutTicks (msecs hz : ℕ) : ℕ := msecs * hz % modulus / 1000

/-- A timeout that has been set: its timer, the tick at which it is due, counted without bound, and
its number in the order of setting. -/
structure Pend where
  telt : ℕ
  deadline : ℕ
  serial : ℕ
  deriving DecidableEq

/-- The timers, the ticks since bootup, and what has become of each timeout set. -/
structure Clock where
  timers : Timers
  now : ℕ
  pending : List Pend
  calls : List (Pend × ℕ)
  resets : List Pend
  next : ℕ

inductive Op
  | setTimeout (telt interval : ℕ)
  | resetTimeout (telt : ℕ)
  | tick
  | softTurn
  | softclock

namespace Clock

/-- `init_timeout`. -/
def init : Clock := ⟨⟨0, [], fun _ => false⟩, 0, [], [], [], 0⟩

variable (c : Clock)

/-- The function of a timer is called. -/
def called (telt : ℕ) (t : Timers) : Clock :=
  { c with
    timers := t
    pending := c.pending.filter fun p => p.telt ≠ telt
    calls := c.calls ++ (c.pending.filter fun p => p.telt = telt).map fun p => (p, c.now) }

/-- `softclock`, with a bound on its turns. -/
def softclock : ℕ → Clock → Option Clock
  | turns + 1, c =>
    match c.timers.softTurn with
    | .done => some c
    | .takesSentinel => none
    | .call telt t => softclock turns (c.called telt t)
  | 0, _ => none

def step : Op → Option Clock
  | .setTimeout telt interval => (c.timers.setTimeout telt interval).map fun t =>
    { c with
      timers := t
      pending := c.pending ++ [⟨telt, c.now + interval, c.next⟩]
      next := c.next + 1 }
  | .resetTimeout telt => some { c with
      timers := (c.timers.resetTimeout telt).2
      pending := c.pending.filter fun p => p.telt ≠ telt
      resets := c.resets ++ c.pending.filter fun p => p.telt = telt }
  | .tick => some { c with timers := c.timers.clockInterrupt.2, now := c.now + 1 }
  | .softTurn =>
    match c.timers.softTurn with
    | .done => some c
    | .takesSentinel => none
    | .call telt t => some (c.called telt t)
  | .softclock => softclock (c.timers.chain.length + 1) c

/-- Only an element that is not set may be set, to any unsigned number of ticks. -/
def Allowed : Op → Prop
  | .setTimeout telt interval => c.timers.set telt = false ∧ interval < modulus
  | _ => True

/-- The sum of the interval and the tick count is below the sentinel's; the tick count starts over
with an empty list only; and no loop of `softclock` finds the list empty at the last tick. -/
def Fits : Op → Prop
  | .setTimeout _ interval => interval + c.timers.elapsedTicks < sentinel
  | .resetTimeout _ => True
  | .tick => c.timers.elapsedTicks = sentinel → c.timers.chain = []
  | .softTurn => c.timers.elapsedTicks = sentinel → c.timers.chain ≠ []
  | .softclock => c.timers.elapsedTicks ≠ sentinel

/-- What a run of the operations comes to, all of whose steps fit. -/
inductive Reached : Clock → Prop
  | init : Reached init
  | step {c c' : Clock} {op : Op} : Reached c → c.Allowed op → c.Fits op → c.step op = some c' →
    Reached c'

end Clock

/-- The order of expiry, and of setting for the same expiry. -/
def Pend.Before (p q : Pend) : Prop :=
  p.deadline < q.deadline ∨ p.deadline = q.deadline ∧ p.serial < q.serial

/-- The element for a timeout, `base` being the ticks before the tick count last started over. -/
def Pend.elt (base : ℕ) (p : Pend) : TimerElt := ⟨p.telt, p.deadline - base⟩

namespace Clock
variable {c c' : Clock}

/-- The tick at which the tick count last started over. -/
def base (c : Clock) : ℕ := c.now - c.timers.elapsedTicks

/-- The timeouts as the list has them, in the order of expiry. -/
structure Queued (c : Clock) (q : List Pend) : Prop where
  perm : q.Perm c.pending
  sorted : q.Pairwise Pend.Before
  chain : c.timers.chain = q.map (Pend.elt c.base)
  fits : ∀ p ∈ q, c.base ≤ p.deadline ∧ p.deadline - c.base < sentinel

/-- The list holds the timeouts that are pending in the order of expiry and ends with the sentinel,
every timeout set is pending, called or reset, once, and none has been called early. -/
structure Good (c : Clock) : Prop where
  elapsed : c.timers.elapsedTicks < modulus ∧ c.timers.elapsedTicks ≤ c.now
  queued : ∃ q, c.Queued q
  set : ∀ telt, c.timers.set telt = true ↔ telt ∈ c.pending.map Pend.telt
  telts : (c.pending.map Pend.telt).Nodup
  once : (c.pending ++ c.calls.map Prod.fst ++ c.resets).map Pend.serial |>.Perm (List.range c.next)
  onTime : ∀ x ∈ c.calls, x.1.deadline ≤ x.2

theorem init_good : init.Good :=
  ⟨⟨by decide, le_rfl⟩, ⟨[], .nil, .nil, rfl, nofun⟩, by simp [init], .nil, .nil, nofun⟩

end Clock

/-! ## The list -/

theorem searchNext_eq {chain : List TimerElt} {interval turns : ℕ} (h : interval < sentinel)
    (before rest : List TimerElt) (hturns : rest.length < turns) :
    searchNext chain interval turns before rest =
      some (before ++ rest.takeWhile fun e => e.ticks ≤ interval) := by
  induction rest generalizing before turns with
  | nil =>
    obtain ⟨turns, rfl⟩ : ∃ n, turns = n + 1 := ⟨turns - 1, by omega⟩
    simp [searchNext, h]
  | cons e rest ih =>
    rw [length_cons] at hturns
    obtain ⟨turns, rfl⟩ : ∃ n, turns = n + 1 := ⟨turns - 1, by omega⟩
    unfold searchNext
    by_cases hlt : interval < e.ticks
    · rw [if_pos hlt, takeWhile_cons_of_neg (by simpa using hlt), append_nil]
    · rw [if_neg hlt, ih _ (by omega), takeWhile_cons_of_pos (by simpa using hlt),
        append_assoc, singleton_append]

theorem searchNext_loops {chain : List TimerElt} {interval : ℕ} (h : sentinel ≤ interval)
    (hchain : ∀ e ∈ chain, e.ticks ≤ interval) (turns : ℕ) (before rest : List TimerElt)
    (hrest : ∀ e ∈ rest, e.ticks ≤ interval) :
    searchNext chain interval turns before rest = none := by
  induction turns generalizing before rest with
  | zero => rfl
  | succ turns ih =>
    cases rest with
    | nil =>
      rw [searchNext, if_neg (by omega)]
      exact ih [] chain hchain
    | cons e rest =>
      have := hrest e mem_cons_self
      rw [searchNext, if_neg (by omega)]
      exact ih _ rest fun e he => hrest e (mem_cons_of_mem _ he)

theorem drop_takeWhile {β : Type*} (p : β → Bool) (l : List β) :
    l.drop (l.takeWhile p).length = l.dropWhile p := by
  have h := takeWhile_append_dropWhile (p := p) (l := l)
  calc l.drop (l.takeWhile p).length
      = (l.takeWhile p ++ l.dropWhile p).drop (l.takeWhile p).length := by rw [h]
    _ = l.dropWhile p := drop_left

theorem while_map {β γ : Type*} (f : β → γ) (p : γ → Bool) (p' : β → Bool) {l : List β}
    (h : ∀ a ∈ l, p (f a) = p' a) : (l.map f).takeWhile p = (l.takeWhile p').map f ∧
      (l.map f).dropWhile p = (l.dropWhile p').map f := by
  induction l with
  | nil => exact ⟨rfl, rfl⟩
  | cons a l ih =>
    obtain ⟨htake, hdrop⟩ := ih fun b hb => h b (mem_cons_of_mem _ hb)
    have ha := h a mem_cons_self
    simp only [map_cons, takeWhile_cons, dropWhile_cons, ha]
    cases p' a with
    | true => exact ⟨by simp [htake], by simp [hdrop]⟩
    | false => exact ⟨rfl, rfl⟩

theorem Timers.setTimeout_eq {t : Timers} {telt interval : ℕ}
    (h : interval + t.elapsedTicks < sentinel) :
    t.setTimeout telt interval = some { t with
      chain := (t.chain.takeWhile fun e => e.ticks ≤ interval + t.elapsedTicks) ++
        ⟨telt, interval + t.elapsedTicks⟩ ::
          t.chain.dropWhile fun e => e.ticks ≤ interval + t.elapsedTicks
      set := update t.set telt true } := by
  have hadd : add interval t.elapsedTicks = interval + t.elapsedTicks :=
    add_of_lt (h.trans (by decide))
  unfold setTimeout
  rw [hadd]
  dsimp only
  rw [searchNext_eq h [] t.chain (Nat.lt_succ_self _), Option.map_some, nil_append]
  rw [drop_takeWhile]

theorem Pend.sorted_insert {q : List Pend} {p : Pend} (hq : q.Pairwise Before)
    (hp : ∀ a ∈ q, a.serial < p.serial) : (q.takeWhile (fun a => a.deadline ≤ p.deadline) ++
      p :: q.dropWhile fun a => a.deadline ≤ p.deadline).Pairwise Before := by
  induction q with
  | nil => exact pairwise_singleton _ _
  | cons a q ih =>
    obtain ⟨ha, hq⟩ := pairwise_cons.mp hq
    by_cases hle : a.deadline ≤ p.deadline
    · rw [takeWhile_cons_of_pos (by simpa using hle),
        dropWhile_cons_of_pos (by simpa using hle), cons_append]
      refine pairwise_cons.mpr ⟨fun b hb => ?_, ih hq fun b hb => hp b (by simp [hb])⟩
      rcases mem_append.mp hb with hb | hb
      · exact ha b (takeWhile_subset _ hb)
      · rcases mem_cons.mp hb with rfl | hb
        · rcases Nat.lt_or_eq_of_le hle with hlt | heq
          · exact .inl hlt
          · exact .inr ⟨heq, hp a mem_cons_self⟩
        · exact ha b ((dropWhile_suffix _).subset hb)
    · rw [takeWhile_cons_of_neg (by simpa using hle),
        dropWhile_cons_of_neg (by simpa using hle), nil_append]
      refine pairwise_cons.mpr ⟨fun b hb => .inl ?_, pairwise_cons.mpr ⟨ha, hq⟩⟩
      rcases mem_cons.mp hb with rfl | hb
      · omega
      · have := ha b hb
        unfold Before at this
        omega

namespace Clock
variable {c c' : Clock} {q : List Pend} {telt interval : ℕ}

theorem Good.serial_lt (h : c.Good) {p : Pend} (hp : p ∈ c.pending) : p.serial < c.next := by
  have hmem : p.serial ∈ (c.pending ++ c.calls.map Prod.fst ++ c.resets).map Pend.serial :=
    mem_map_of_mem (by simp [hp])
  exact mem_range.mp (h.once.mem_iff.mp hmem)

theorem Good.now_eq (h : c.Good) : c.now = c.base + c.timers.elapsedTicks := by
  have := h.elapsed.2
  unfold base
  omega

theorem Good.setTimeout (h : c.Good) (hset : c.timers.set telt = false)
    (hfits : interval + c.timers.elapsedTicks < sentinel) :
    ∃ c', c.step (.setTimeout telt interval) = some c' ∧ c'.Good := by
  obtain ⟨q, hq⟩ := h.queued
  have hnow := h.now_eq
  let p : Pend := ⟨telt, c.now + interval, c.next⟩
  obtain ⟨htake, hdrop⟩ := while_map (Pend.elt c.base)
    (fun e => e.ticks ≤ interval + c.timers.elapsedTicks) (fun a => a.deadline ≤ p.deadline)
    fun a ha => by
      have := (hq.fits a ha).1
      refine decide_eq_decide.mpr ?_
      simp only [Pend.elt, p]
      omega
  have hfresh : telt ∉ c.pending.map Pend.telt := by
    rw [← h.set, hset]
    exact Bool.false_ne_true
  rw [step, Timers.setTimeout_eq hfits]
  refine ⟨_, rfl, h.elapsed, ⟨q.takeWhile (fun a => a.deadline ≤ p.deadline) ++
      p :: q.dropWhile fun a => a.deadline ≤ p.deadline, ?_, ?_, ?_, ?_⟩, ?_, ?_, ?_, h.onTime⟩
  · refine perm_middle.trans ?_
    rw [takeWhile_append_dropWhile]
    exact (hq.perm.cons p).trans (perm_append_singleton p _).symm
  · exact Pend.sorted_insert hq.sorted fun a ha => h.serial_lt (hq.perm.subset ha)
  · dsimp only
    rw [hq.chain, htake, hdrop, map_append, map_cons]
    congr 3
    change interval + c.timers.elapsedTicks = c.now + interval - c.base
    omega
  · intro a ha
    change c.base ≤ a.deadline ∧ a.deadline - c.base < sentinel
    rcases mem_append.mp ha with ha | ha
    · exact hq.fits a (takeWhile_subset _ ha)
    · rcases mem_cons.mp ha with rfl | ha
      · simp only [p]
        omega
      · exact hq.fits a ((dropWhile_suffix _).subset ha)
  · intro i
    have := h.set i
    simp only [map_append, mem_append, map_cons, map_nil, mem_singleton, update_apply]
    split_ifs with hi <;> simp [hi, this]
  · rw [map_append, nodup_append]
    refine ⟨h.telts, nodup_singleton _, fun a ha b hb => ?_⟩
    rw [mem_singleton.mp hb]
    rintro rfl
    exact hfresh ha
  · have hlast : (c.pending ++ [p] ++ c.calls.map Prod.fst ++ c.resets).Perm
        (c.pending ++ c.calls.map Prod.fst ++ c.resets ++ [p]) := by
      simp only [append_assoc]
      exact (perm_append_comm.append_left _).trans (by simp)
    rw [range_succ]
    refine (hlast.map Pend.serial).trans ?_
    rw [map_append]
    exact h.once.append_right _

theorem append_swap {β : Type*} (l l' l'' : List β) : (l ++ (l' ++ l'')).Perm (l ++ l'' ++ l') := by
  rw [append_assoc]
  exact perm_append_comm.append_left l

theorem Good.remove (h : c.Good) (telt : ℕ) :
    ((c.pending.filter fun p => p.telt ≠ telt) ++ c.pending.filter fun p => p.telt = telt).Perm
        c.pending ∧ (∀ i, update c.timers.set telt false i = true ↔
        i ∈ (c.pending.filter fun p => p.telt ≠ telt).map Pend.telt) ∧
      ((c.pending.filter fun p => p.telt ≠ telt).map Pend.telt).Nodup := by
  refine ⟨?_, fun i => ?_, h.telts.sublist (filter_sublist.map _)⟩
  · have := filter_append_perm (fun p : Pend => decide (p.telt ≠ telt)) c.pending
    simpa using this
  · have hi := h.set i
    rw [update_apply]
    by_cases htelt : i = telt
    · simp [htelt]
    · simp only [htelt, if_false, hi, mem_map, mem_filter, decide_eq_true_eq]
      constructor
      · rintro ⟨p, hp, rfl⟩
        exact ⟨p, ⟨hp, htelt⟩, rfl⟩
      · rintro ⟨p, ⟨hp, -⟩, rfl⟩
        exact ⟨p, hp, rfl⟩

theorem Queued.filter (hq : c.Queued q) (telt : ℕ) :
    c.timers.chain.filter (fun e => e.telt ≠ telt) =
        (q.filter fun p => p.telt ≠ telt).map (Pend.elt c.base) ∧
      (q.filter fun p => p.telt ≠ telt).Perm (c.pending.filter fun p => p.telt ≠ telt) := by
  refine ⟨?_, hq.perm.filter _⟩
  rw [hq.chain, filter_map]
  rfl

theorem Good.resetTimeout (h : c.Good) (telt : ℕ) :
    ∃ c', c.step (.resetTimeout telt) = some c' ∧ c'.Good := by
  obtain ⟨q, hq⟩ := h.queued
  obtain ⟨hperm, hset, hnodup⟩ := h.remove telt
  obtain ⟨hchain, hqperm⟩ := hq.filter telt
  have htimers : (c.timers.resetTimeout telt).2 = { c.timers with
        chain := c.timers.chain.filter fun e => e.telt ≠ telt
        set := update c.timers.set telt false } := by
    unfold Timers.resetTimeout
    split_ifs with hon
    · rfl
    · -- nothing is on the list for a timer that is not set
      have hnone : ∀ e ∈ c.timers.chain, e.telt ≠ telt := by
        rw [hq.chain]
        intro e he
        obtain ⟨p, hp, rfl⟩ := mem_map.mp he
        rintro rfl
        exact hon ((h.set _).mpr (mem_map_of_mem (hq.perm.subset hp)))
      rw [filter_eq_self.mpr (by simpa using hnone)]
      rw [Bool.not_eq_true] at hon
      rw [← hon, update_eq_self]
  refine ⟨_, rfl, ?_⟩
  rw [htimers]
  refine ⟨h.elapsed, ⟨_, hqperm, hq.sorted.filter _, hchain, fun p hp => ?_⟩, hset, hnodup, ?_,
    h.onTime⟩
  · exact hq.fits p (mem_of_mem_filter hp)
  · refine List.Perm.trans (List.Perm.map _ ?_) h.once
    rw [append_assoc, ← append_assoc (c.calls.map Prod.fst)]
    refine (append_swap _ _ _).trans ?_
    rw [append_assoc c.pending]
    exact hperm.append_right _

theorem Queued.first {p : Pend} {rest : List Pend} (hq : c.Queued (p :: rest))
    (hd : (c.pending.map Pend.telt).Nodup) : (c.pending.filter fun a => a.telt = p.telt) = [p] ∧
      rest.Perm (c.pending.filter fun a => a.telt ≠ p.telt) := by
  have hd' := (hq.perm.map Pend.telt).nodup_iff.mpr hd
  rw [map_cons, nodup_cons] at hd'
  have hne : ∀ a ∈ rest, a.telt ≠ p.telt := fun a ha heq => hd'.1 (heq ▸ mem_map_of_mem ha)
  have heq := hq.perm.filter fun a => decide (a.telt = p.telt)
  have hother := hq.perm.filter fun a => decide (a.telt ≠ p.telt)
  rw [filter_cons_of_pos (by simp), filter_eq_nil_iff.mpr (by simpa using hne)] at heq
  rw [filter_cons_of_neg (by simp), filter_eq_self.mpr (by simpa using hne)] at hother
  exact ⟨(singleton_perm.mp heq).symm, hother⟩

/-- A turn of `softclock`: the first element is called if it is due. -/
theorem Good.softTurn (h : c.Good) (hq : c.Queued q)
    (hfits : c.timers.elapsedTicks = sentinel → c.timers.chain ≠ []) :
    (c.timers.softTurn = .done ∧ ∀ p ∈ q, c.now < p.deadline) ∨
      ∃ p rest t, q = p :: rest ∧ p.deadline ≤ c.now ∧ c.timers.softTurn = .call p.telt t ∧
        (c.called p.telt t).Good ∧ (c.called p.telt t).Queued rest ∧
        t.elapsedTicks = c.timers.elapsedTicks ∧ t.chain.length + 1 = c.timers.chain.length ∧
        (c.called p.telt t).calls = c.calls ++ [(p, c.now)] := by
  have hnow := h.now_eq
  have hlt := h.elapsed.1
  have hsentinel : sentinel + 1 = modulus := rfl
  have hchain := hq.chain
  cases q with
  | nil =>
    have hfirst : c.timers.firstTicks = sentinel := by
      rw [Timers.firstTicks, hchain]
      rfl
    have hne : c.timers.elapsedTicks ≠ sentinel := fun heq => hfits heq hchain
    refine .inl ⟨?_, nofun⟩
    rw [Timers.softTurn, if_pos (by omega)]
  | cons p rest =>
    have hfirst : c.timers.firstTicks = p.deadline - c.base := by
      rw [Timers.firstTicks, hchain]
      rfl
    obtain ⟨hbefore, hsorted⟩ := pairwise_cons.mp hq.sorted
    have hpbase := (hq.fits p mem_cons_self).1
    by_cases hearly : c.timers.elapsedTicks < c.timers.firstTicks
    · refine .inl ⟨if_pos hearly, fun a ha => ?_⟩
      rcases mem_cons.mp ha with rfl | ha
      · omega
      · have := hbefore a ha
        unfold Pend.Before at this
        omega
    · right
      obtain ⟨hone, hrest⟩ := hq.first h.telts
      obtain ⟨hperm, hset, hnodup⟩ := h.remove p.telt
      rw [map_cons] at hchain
      refine ⟨p, rest, { c.timers with
          chain := rest.map (Pend.elt c.base)
          set := update c.timers.set p.telt false }, rfl, by omega, ?_,
        ⟨h.elapsed, ⟨rest, ?_⟩, hset, hnodup, ?_, fun x hx => ?_⟩, ?_, rfl, ?_, ?_⟩
      · rw [Timers.softTurn, if_neg hearly, hchain]
        rfl
      · exact ⟨hrest, hsorted, rfl, fun a ha => hq.fits a (mem_cons_of_mem _ ha)⟩
      · refine List.Perm.trans (List.Perm.map _ ?_) h.once
        rw [hone] at hperm
        simp only [called, hone, map_cons, map_nil, map_append]
        exact ((append_swap _ _ _).trans (hperm.append_right _)).append_right _
      · rcases mem_append.mp hx with hx | hx
        · exact h.onTime x hx
        · rw [hone, map_cons, map_nil, mem_singleton] at hx
          rw [hx]
          change p.deadline ≤ c.now
          omega
      · exact ⟨hrest, hsorted, rfl, fun a ha => hq.fits a (mem_cons_of_mem _ ha)⟩
      · rw [hchain]
        simp
      · simp only [called, hone, map_cons, map_nil]

/-- What a run of `softclock` does: it calls the timeouts that are due, in the order of expiry, and
leaves the others pending. -/
def RunsDue (c c' : Clock) : Prop :=
  ∃ due left, (due ++ left).Perm c.pending ∧ (due ++ left).Pairwise Pend.Before ∧
    c'.calls = c.calls ++ (due.map fun p => (p, c.now)) ∧ c'.pending.Perm left ∧
    (∀ p ∈ due, p.deadline ≤ c.now) ∧ ∀ p ∈ left, c.now < p.deadline

theorem Good.softclock_loop (turns : ℕ) : ∀ {c : Clock} {q : List Pend}, c.Good → c.Queued q →
    c.timers.elapsedTicks ≠ sentinel → q.length < turns →
    ∃ c' due left, Clock.softclock turns c = some c' ∧ c'.Good ∧ c'.Queued left ∧ q = due ++ left ∧
      c'.calls = c.calls ++ (due.map fun p => (p, c.now)) ∧ (∀ p ∈ due, p.deadline ≤ c.now) ∧
      ∀ p ∈ left, c.now < p.deadline := by
  induction turns with
  | zero => exact fun _ _ _ hlen => absurd hlen (Nat.not_lt_zero _)
  | succ turns ih =>
    intro c q h hq hne hlen
    rcases h.softTurn hq fun heq => absurd heq hne with
      ⟨hdone, hlate⟩ | ⟨p, rest, t, rfl, hdue, hcall, hgood, hrest, helapsed, -, hcalls⟩
    · exact ⟨c, [], q, by rw [Clock.softclock, hdone], h, hq, rfl, by simp, nofun, hlate⟩
    · rw [length_cons] at hlen
      obtain ⟨c', due, left, hrun, hgood', hleft, rfl, hcalls', hdue', hlate⟩ :=
        ih hgood hrest (helapsed.symm ▸ hne) (by omega)
      refine ⟨c', p :: due, left, by rw [Clock.softclock, hcall]; exact hrun, hgood', hleft, rfl, ?_,
        ?_, hlate⟩
      · rw [hcalls', hcalls, map_cons, append_assoc]
        rfl
      · intro a ha
        rcases mem_cons.mp ha with rfl | ha
        · exact hdue
        · exact hdue' a ha

theorem Good.softclock (h : c.Good) (hne : c.timers.elapsedTicks ≠ sentinel) :
    ∃ c', c.step .softclock = some c' ∧ c'.Good ∧ c.RunsDue c' := by
  obtain ⟨q, hq⟩ := h.queued
  have hlen : q.length < c.timers.chain.length + 1 := by
    rw [hq.chain, length_map]
    omega
  obtain ⟨c', due, left, hrun, hgood, hleft, rfl, hcalls, hdue, hlate⟩ :=
    Good.softclock_loop _ h hq hne hlen
  exact ⟨c', hrun, hgood, due, left, hq.perm, hq.sorted, hcalls, hleft.perm.symm, hdue, hlate⟩

theorem Good.tick (h : c.Good) (hfits : c.timers.elapsedTicks = sentinel → c.timers.chain = []) :
    ∃ c', c.step .tick = some c' ∧ c'.Good := by
  obtain ⟨q, hq⟩ := h.queued
  have hnow := h.now_eq
  have hlt := h.elapsed.1
  have hsentinel : sentinel + 1 = modulus := rfl
  refine ⟨_, rfl, ?_⟩
  by_cases hlast : c.timers.elapsedTicks = sentinel
  · -- the count starts over, and nothing is pending
    have hadd : add c.timers.elapsedTicks 1 = 0 := by rw [hlast]; rfl
    have hnil : q = [] := map_eq_nil_iff.mp (hq.chain.symm.trans (hfits hlast))
    subst hnil
    refine ⟨?_, ⟨[], hq.perm, .nil, hq.chain, nofun⟩, h.set, h.telts, h.once, h.onTime⟩
    simp only [Timers.clockInterrupt, hadd]
    exact ⟨by decide, Nat.zero_le _⟩
  · have hadd : add c.timers.elapsedTicks 1 = c.timers.elapsedTicks + 1 := add_of_lt (by omega)
    have hbase : base { c with timers := c.timers.clockInterrupt.2, now := c.now + 1 } = c.base := by
      simp only [base, Timers.clockInterrupt, hadd]
      omega
    refine ⟨?_, ⟨q, hq.perm, hq.sorted, ?_, ?_⟩, h.set, h.telts, h.once, h.onTime⟩
    · simp only [Timers.clockInterrupt, hadd]
      have := h.elapsed.2
      omega
    · rw [hbase]
      exact hq.chain
    · rw [hbase]
      exact hq.fits

theorem Good.step (h : c.Good) {op : Op} (hallowed : c.Allowed op) (hfits : c.Fits op) :
    ∃ c', c.step op = some c' ∧ c'.Good ∧ (op = .softclock → c.RunsDue c') := by
  cases op with
  | setTimeout telt interval =>
    obtain ⟨c', hstep, hgood⟩ := h.setTimeout hallowed.1 hfits
    exact ⟨c', hstep, hgood, nofun⟩
  | resetTimeout telt =>
    obtain ⟨c', hstep, hgood⟩ := h.resetTimeout telt
    exact ⟨c', hstep, hgood, nofun⟩
  | tick =>
    obtain ⟨c', hstep, hgood⟩ := h.tick hfits
    exact ⟨c', hstep, hgood, nofun⟩
  | softTurn =>
    obtain ⟨q, hq⟩ := h.queued
    rcases h.softTurn hq hfits with ⟨hdone, -⟩ | ⟨p, rest, t, -, -, hcall, hgood, -⟩
    · exact ⟨c, by rw [Clock.step, hdone], h, nofun⟩
    · exact ⟨_, by rw [Clock.step, hcall], hgood, nofun⟩
  | softclock =>
    obtain ⟨c', hstep, hgood, hruns⟩ := h.softclock hfits
    exact ⟨c', hstep, hgood, fun _ => hruns⟩

theorem Reached.good (h : Reached c) : c.Good := by
  induction h with
  | init => exact init_good
  | step _ hallowed hfits hstep ih =>
    obtain ⟨c', hstep', hgood, -⟩ := ih.step hallowed hfits
    cases hstep.symm.trans hstep'
    exact hgood

end Clock

theorem timeoutTicks_iff (msecs hz : ℕ) :
    timeoutTicks msecs hz = msecs * hz / 1000 ↔ msecs * hz < modulus := by
  unfold timeoutTicks
  constructor
  · intro h
    by_contra hge
    have hmod := Nat.mod_add_div (msecs * hz) modulus
    have hpos : 0 < msecs * hz / modulus := Nat.div_pos (not_lt.mp hge) (by norm_num)
    have hle : msecs * hz % modulus + modulus ≤ msecs * hz := by
      have : modulus * 1 ≤ modulus * (msecs * hz / modulus) := Nat.mul_le_mul_left _ hpos
      omega
    simp only [modulus] at *
    omega
  · intro h
    rw [Nat.mod_eq_of_lt h]

namespace Clock

/-- Timeouts fire on time and once in every run whose steps fit, and the ticks of a timeout of a
message are right for the intervals that fit. -/
theorem timeouts_run (msecs hz : ℕ) : (∀ c, Reached c → c.Good ∧ ∀ op, c.Allowed op → c.Fits op →
      ∃ c', c.step op = some c' ∧ (op = .softclock → c.RunsDue c')) ∧
    (timeoutTicks msecs hz = msecs * hz / 1000 ↔ msecs * hz < modulus) := by
  refine ⟨fun c h => ⟨h.good, fun op hallowed hfits => ?_⟩, timeoutTicks_iff msecs hz⟩
  obtain ⟨c', hstep, -, hruns⟩ := h.good.step hallowed hfits
  exact ⟨c', hstep, hruns⟩

/-- Two ticks after a timeout of two ticks has been set. -/
def dueClock : Clock where
  timers := ⟨2, [⟨7, 2⟩], update (fun _ => false) 7 true⟩
  now := 2
  pending := [⟨7, 2, 0⟩]
  calls := []
  resets := []
  next := 1

theorem dueClock_reached : Reached dueClock :=
  ((Reached.init.step (show init.Allowed (.setTimeout 7 2) from ⟨rfl, by decide⟩)
    (by simp only [Fits]; decide) rfl).step (show Allowed _ .tick from trivial)
    (fun h => absurd h (by decide)) rfl).step (show Allowed _ .tick from trivial)
    (fun h => absurd h (by decide)) rfl

theorem timeouts_run_due : ∃ c', dueClock.step .softclock = some c' ∧ dueClock.RunsDue c' := by
  obtain ⟨c', hstep, hruns⟩ := ((timeouts_run 0 0).1 dueClock dueClock_reached).2 .softclock trivial
    (by simp only [Fits]; decide)
  exact ⟨c', hstep, hruns rfl⟩

/-- The longest interval: at once after bootup the loop does not end, and a tick later the timeout is
called at once. The tick count of a long timeout of a message is a fraction of the interval. -/
theorem setTimeout_wraps : (∀ turns, searchNext [] (add sentinel 0) turns [] [] = none) ∧
    (((init.step .tick).bind fun c => c.step (.setTimeout 7 sentinel)).bind fun c =>
        c.step .softclock).map (fun c => (c.now, c.calls)) = some (1, [(⟨7, 1 + sentinel, 0⟩, 1)]) ∧
    timeoutTicks 50000000 100 = 705032 := by
  refine ⟨fun turns => searchNext_loops (by decide) (by simp) turns [] [] (by simp), ?_, by decide⟩
  decide +kernel

end Clock

end MachKernel.Kern
