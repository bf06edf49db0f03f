import MachKernel.Lib.Counting
import MachKernel.Lib.Runs
import Mathlib.Data.Fintype.Pi

/-! The lock that the Unix server shares with the emulator of a process. Its functions are cut
between any two operations on the shared words. -/

namespace MachKernel.Ux.SharedLock
open Function Option

/-- Where a thread is. -/
inductive Place
  | idle
  -- `spin_lock`, taken where the emulator has not come into use
  | spin
  -- at `spin_try_lock` in the loop of `share_lock`
  | try
  -- in `share_lock_solid`: at `unix_master`, at its own try, at `tsleep_enter`
  | solid
  | counted
  | enter
  -- on the sleep queue, with the master lock and without it
  | queued
  | asleep
  -- off the sleep queue, and whether by the timeout; then with the master lock again
  | woken (timedOut : Bool)
  | back (timedOut : Bool)
  -- at `share_lock_init`
  | reinit
  | panicked
  -- the word is taken, `who` is not set: in `share_lock`, in `share_try_lock`
  | taken
  | tried
  | crit
  -- in `share_unlock`: at `who = 0`, at `spin_unlock`, at the test of `need_wakeup`, at the wakeup
  | clearing
  | unlocking
  | testing
  | waking
  -- in `share_unlock` where the emulator has not come into use
  | plainUnlock
  deriving DecidableEq, Repr

open Place

/-- The thread has taken the word and has not given it up. -/
def Place.holds : Place → Bool
  | .taken | .tried | .crit | .clearing | .unlocking | .plainUnlock => true
  | _ => false

/-- The thread is in `share_lock_solid`, between its `++` and its `--`. -/
def Place.inSolid : Place → Bool
  | .counted | .enter | .queued | .asleep | .woken _ | .back _ | .reinit | .panicked => true
  | _ => false

/-- Only threads of the server get there. -/
def Place.ofServer : Place → Bool
  | .solid => true
  | p => p.inSolid

/-- The thread has the master lock on account of `share_lock_solid`. -/
def Place.master : Place → Bool
  | .counted | .enter | .queued | .back _ | .reinit | .panicked => true
  | _ => false

/-- The thread has given up the master lock to sleep. -/
def Place.offMaster : Place → Bool
  | .asleep | .woken _ => true
  | _ => false

/-- The thread's last try has failed, and it goes to sleep or sleeps. -/
def Place.exposed : Place → Bool
  | .enter | .queued | .asleep => true
  | _ => false

/-- The thread has unlocked the word and is to wake whoever sleeps. -/
def Place.wakes : Place → Bool
  | .testing | .waking => true
  | _ => false

/-- `wakeup`: what it does to a thread on the queue. -/
def Place.wake : Place → Place
  | .queued => .back false
  | .asleep => .woken false
  | p => p

def kernelUser : ℕ := 0x80000000

/-- The threads, the process whose lock it is, and the process table. -/
structure Config (T : Type) where
  server : T → Bool
  proc : ℕ
  procNPROC : ℕ
  p : ℕ
  proc_le : proc ≤ p
  lt_procNPROC : p < procNPROC
  procNPROC_lt : procNPROC < kernelUser

structure System (T : Type) where
  lock : Bool
  who : ℕ
  needWakeup : ℤ
  inuse : Bool
  master : Option T
  -- `uu_master_lock`, of a thread outside `share_lock_solid`
  outer : T → Bool
  place : T → Place

inductive Event (T : Type)
  | lock (t : T)
  | tryLock (t : T)
  | unlock (t : T)
  | turn (t : T)
  | timeout (t : T)
  | takeMaster (t : T)
  | dropMaster (t : T)
  -- the emulator comes into use
  | use
  deriving DecidableEq

variable {T : Type} [DecidableEq T] (c : Config T)

def init : System T where
  lock := false
  who := 0
  needWakeup := 0
  inuse := false
  master := none
  outer := fun _ => false
  place := fun _ => .idle

/-- `x->who & ~KERNEL_USER` is a pointer into the process table. -/
def InTable (who : ℕ) : Prop := c.proc ≤ who % kernelUser ∧ who % kernelUser ≤ c.procNPROC

instance (who : ℕ) : Decidable (InTable c who) := inferInstanceAs (Decidable (_ ∧ _))

-- the comparisons bind more tightly than `&`
def scribbleTest (who : ℕ) : Bool :=
  who &&& (if kernelUser - 1 ≥ c.proc then 1 else 0) ≠ 0 ∧
    who &&& (if kernelUser - 1 ≤ c.procNPROC then 1 else 0) ≠ 0

namespace System
variable (s : System T) (t : T) (p : Place)

def moves : System T := { s with place := update s.place t p }

def canMaster : Bool := s.master = none ∨ s.master = some t

/-- `unix_release` -/
def releaseMaster : System T := { s with master := if s.outer t then some t else none }

def wakeup : System T := { s with place := fun u => (s.place u).wake }

/-- A thread goes on to its next operation; where it is to start the lock anew, `who` as it saw
it. -/
def turn : Option ℕ × System T :=
  match s.place t with
  | .spin => (none, if s.lock then s else { s.moves t .crit with lock := true })
  | .try =>
    (none, if s.lock then (if c.server t then s.moves t .solid else s)
      else { s.moves t .taken with lock := true })
  | .solid =>
    (none, if s.canMaster t then
        { s.moves t .counted with master := some t, needWakeup := s.needWakeup + 1 }
      else s)
  | .counted =>
    (none, if s.lock then s.moves t .enter
      else { (s.moves t .taken).releaseMaster t with
        lock := true, needWakeup := s.needWakeup - 1 })
  | .enter => (none, s.moves t .queued)
  | .queued => (none, { s.moves t .asleep with master := none })
  | .woken timedOut =>
    (none, if s.canMaster t then { s.moves t (.back timedOut) with master := some t } else s)
  | .back true =>
    if scribbleTest c s.who then (none, s.moves t .panicked) else (some s.who, s.moves t .reinit)
  | .reinit => (none, { s.moves t (.back false) with lock := false, who := 0, needWakeup := 1 })
  | .back false =>
    (none, { (s.moves t .try).releaseMaster t with needWakeup := s.needWakeup - 1 })
  | .taken =>
    (none, { s.moves t .crit with who := if c.server t then c.p + kernelUser else c.p })
  | .tried =>
    (none, { s.moves t .crit with who := if s.inuse then c.p + kernelUser else s.who })
  | .clearing => (none, { s.moves t .unlocking with who := 0 })
  | .unlocking => (none, { s.moves t .testing with lock := false })
  | .testing => (none, s.moves t (if s.needWakeup = 0 then .idle else .waking))
  | .waking =>
    -- the emulator's call is served by a thread that takes the master lock for it
    (none, if c.server t ∨ s.master = none then (s.moves t .idle).wakeup else s)
  | .plainUnlock => (none, { s.moves t .idle with lock := false })
  | .idle | .asleep | .panicked | .crit => (none, s)

/-- An event; one that cannot happen changes nothing. -/
def event : Event T → Option ℕ × System T
  | .lock t =>
    (none, if s.place t = .idle then
        (if c.server t then s.moves t (if s.inuse then .try else .spin)
        else if s.inuse then s.moves t .try else s)
      else s)
  | .tryLock t =>
    (none, if s.place t = .idle ∧ c.server t ∧ s.lock = false then
        { s.moves t .tried with lock := true }
      else s)
  | .unlock t =>
    (none, if s.place t = .crit then
        s.moves t (if c.server t ∧ s.inuse = false then .plainUnlock else .clearing)
      else s)
  | .turn t => s.turn c t
  | .timeout t => (none, if s.place t = .asleep then s.moves t (.woken true) else s)
  | .takeMaster t =>
    (none, if c.server t ∧ (s.place t = .idle ∨ s.place t = .crit) ∧ s.master = none then
        { s with master := some t, outer := update s.outer t true }
      else s)
  | .dropMaster t =>
    (none, if (s.place t = .idle ∨ s.place t = .crit) ∧ s.outer t then
        { s with master := none, outer := update s.outer t false }
      else s)
  | .use => (none, { s with inuse := true })

def step (e : Event T) : Option (Option ℕ × System T) := some (s.event c e)

end System

/-! ## What holds of the lock -/

variable [Fintype T]

/-- The number of threads in `share_lock_solid`. -/
def solidCount (place : T → Place) : ℕ :=
  (Finset.univ.filter fun t => (place t).inSolid).card

/-- The lock is safe: who has it, what `need_wakeup` says, and that no release goes unnoticed. -/
structure Safe (s : System T) : Prop where
  exclusive : ∀ t u, (s.place t).holds → (s.place u).holds → t = u
  held : s.lock = true → ∃ t, (s.place t).holds
  counted : s.needWakeup = solidCount s.place
  servers : ∀ t, (s.place t).inSolid → c.server t
  noticed : ∀ t, (s.place t).exposed → s.lock = true ∨ ∃ u, (s.place u).wakes

/-- A thread that has unlocked the word wakes the threads that sleep. -/
structure Wakes (s : System T) (t : T) (s' : System T) : Prop where
  testing : s.place t = .testing → (∃ u, (s.place u).exposed) → s'.place t = .waking
  waking : s.place t = .waking → s'.place t = .idle →
    ∀ u, s'.place u ≠ .queued ∧ s'.place u ≠ .asleep

/-- What an event should do. -/
def spec (s : System T) (e : Event T) (scribbled : Option ℕ) (a' s' : System T) : Prop :=
  a' = s' ∧ Safe c s' ∧ (∀ who ∈ scribbled, ¬InTable c who) ∧ ∀ t, e = .turn t → Wakes s t s'

/-- The turns that leave the lock as the other threads count on it. -/
def Fits (s : System T) : Event T → Prop
  | .turn t =>
    match s.place t with
    | .back true => scribbleTest c s.who = false → ¬InTable c s.who
    | .reinit => ∀ u, (s.place u).holds = false ∧ (u ≠ t → (s.place u).inSolid = false)
    | .waking => c.server t → ∀ u, s.place u ≠ .enter
    | .plainUnlock => ∀ u, (s.place u).exposed = false
    | _ => True
  | _ => True

instance (s : System T) : DecidablePred (Fits c s)
  | .turn t => by
    unfold Fits
    dsimp only
    split <;> infer_instance
  | .lock _ | .tryLock _ | .unlock _ | .timeout _ | .takeMaster _ | .dropMaster _ | .use =>
    isTrue trivial

/-! Each part of the invariant, and what a move of one thread leaves of it. -/

section Parts

variable {place : T → Place} {t : T} {p : Place}

def Excl (lock : Bool) (place : T → Place) : Prop :=
  (∀ t u, (place t).holds → (place u).holds → t = u) ∧ (lock = true ↔ ∃ t, (place t).holds)

section
omit [Fintype T]

theorem Excl.same {lock : Bool} (h : Excl lock place) (hp : p.holds = (place t).holds) :
    Excl lock (update place t p) := by
  have hh : ∀ u, (update place t p u).holds = (place u).holds := fun u => by
    rw [update_apply]
    split
    · rename_i hu
      rw [hp, hu]
    · rfl
  simp only [Excl, hh]
  exact h

theorem Excl.take (h : Excl false place) (hp : p.holds) : Excl true (update place t p) := by
  have hnone : ∀ u, ¬(place u).holds := fun u hu => absurd (h.2.2 ⟨u, hu⟩) Bool.false_ne_true
  have honly : ∀ u, (update place t p u).holds → u = t := fun u hu => by
    by_contra hne
    rw [update_of_ne hne] at hu
    exact hnone u hu
  refine ⟨fun u v hu hv => (honly u hu).trans (honly v hv).symm, ?_⟩
  exact ⟨fun _ => ⟨t, by rwa [update_self]⟩, fun _ => rfl⟩

theorem Excl.none (h : ∀ u, u ≠ t → ¬(place u).holds) (hp : ¬p.holds) :
    Excl false (update place t p) := by
  have hnone : ∀ u, ¬(update place t p u).holds := fun u => by
    by_cases hu : u = t
    · rwa [hu, update_self]
    · rw [update_of_ne hu]
      exact h u hu
  exact ⟨fun u _ hu => absurd hu (hnone u), by simp [hnone]⟩

theorem Excl.drop {lock : Bool} (h : Excl lock place) (ht : (place t).holds) (hp : ¬p.holds) :
    Excl false (update place t p) :=
  Excl.none (fun u hu hh => hu (h.1 u t hh ht)) hp

end

theorem solidCount_same (hp : p.inSolid = (place t).inSolid) :
    solidCount (update place t p) = solidCount place :=
  Counting.count_same hp

theorem solidCount_enter (hp : p.inSolid) (ht : ¬(place t).inSolid) :
    solidCount (update place t p) = solidCount place + 1 :=
  Counting.count_enter hp (Bool.eq_false_of_not_eq_true ht)

theorem solidCount_leave (hp : ¬p.inSolid) (ht : (place t).inSolid) :
    solidCount (update place t p) + 1 = solidCount place :=
  Counting.count_leave (Bool.eq_false_of_not_eq_true hp) ht

/-- Who has the master lock. -/
def Mast (master : Option T) (outer : T → Bool) (place : T → Place) : Prop :=
  ∀ t, ((place t).master ∨ outer t ∧ ¬(place t).offMaster) → master = some t

section
omit [Fintype T]

theorem Mast.same {master : Option T} {outer : T → Bool} (h : Mast master outer place)
    (hp : p.master → (place t).master) (hoff : (place t).offMaster → p.offMaster) :
    Mast master outer (update place t p) := by
  intro u hu
  by_cases hut : u = t
  · subst hut
    rw [update_self] at hu
    exact h u (hu.imp hp fun ⟨ho, hn⟩ => ⟨ho, mt hoff hn⟩)
  · rw [update_of_ne hut] at hu
    exact h u hu

theorem Mast.grab {master : Option T} {outer : T → Bool} (h : Mast master outer place)
    (hm : master = none ∨ master = some t) : Mast (some t) outer (update place t p) := by
  intro u hu
  by_cases hut : u = t
  · rw [hut]
  · rw [update_of_ne hut] at hu
    have := h u hu
    rcases hm with hm | hm <;> rw [hm] at this
    · cases this
    · exact this

theorem Mast.release {master : Option T} {outer : T → Bool} (h : Mast master outer place)
    (ht : (place t).master) (hp : ¬p.master) :
    Mast (if outer t then some t else none) outer (update place t p) := by
  have hm := h t (Or.inl ht)
  intro u hu
  by_cases hut : u = t
  · subst hut
    rw [update_self] at hu
    rw [if_pos (hu.resolve_left hp).1]
  · rw [update_of_ne hut] at hu
    exact absurd (some.inj (hm.symm.trans (h u hu))) (Ne.symm hut)

theorem Mast.sleep {master : Option T} {outer : T → Bool} (h : Mast master outer place)
    (ht : (place t).master) (hp : ¬p.master) (hoff : p.offMaster) :
    Mast none outer (update place t p) := by
  have hm := h t (Or.inl ht)
  intro u hu
  by_cases hut : u = t
  · subst hut
    rw [update_self] at hu
    exact absurd hu (by simp [hp, hoff])
  · rw [update_of_ne hut] at hu
    exact absurd (some.inj (hm.symm.trans (h u hu))) (Ne.symm hut)

end

def Noticed (lock : Bool) (place : T → Place) : Prop :=
  ∀ t, (place t).exposed → lock = true ∨ ∃ u, (place u).wakes

omit [Fintype T] in
theorem Noticed.same {lock : Bool} (h : Noticed lock place)
    (hp : p.exposed → (place t).exposed ∨ lock = true) (hw : (place t).wakes → p.wakes) :
    Noticed lock (update place t p) := by
  intro u hu
  have hold : (place u).exposed ∨ lock = true := by
    by_cases hut : u = t
    · subst hut
      rw [update_self] at hu
      exact hp hu
    · rw [update_of_ne hut] at hu
      exact Or.inl hu
  rcases hold with hold | hl
  · refine (h u hold).imp id fun ⟨v, hv⟩ => ⟨v, ?_⟩
    rw [update_apply]
    split
    · rename_i hvt
      exact hw (hvt ▸ hv)
    · exact hv
  · exact Or.inl hl

omit [Fintype T] in
theorem Noticed.wakes {lock : Bool} (hp : p.wakes) : Noticed lock (update place t p) :=
  fun _ _ => Or.inr ⟨t, by rwa [update_self]⟩

omit [DecidableEq T] [Fintype T] in
theorem Noticed.none {lock : Bool} (h : ∀ u, ¬(place u).exposed) : Noticed lock place :=
  fun u hu => absurd hu (h u)

end Parts

structure Inv (s : System T) : Prop where
  excl : Excl s.lock s.place
  count : s.needWakeup = solidCount s.place
  servers : ∀ t, (s.place t).ofServer → c.server t
  mast : Mast s.master s.outer s.place
  noticed : Noticed s.lock s.place

section Step

variable {c} {s : System T} {t : T} {p : Place}

omit [DecidableEq T] in
theorem Inv.init : Inv c (init : System T) := by
  refine ⟨⟨?_, ?_⟩, ?_, ?_, ?_, ?_⟩ <;>
    simp [SharedLock.init, holds, inSolid, master, Mast, Noticed, exposed,
      ofServer, solidCount]

theorem Inv.servers_update (h : Inv c s) (hp : p.ofServer → c.server t) :
    ∀ u, (update s.place t p u).ofServer → c.server u := by
  intro u hu
  rw [update_apply] at hu
  split at hu
  · rename_i hut
    exact hut ▸ hp hu
  · exact h.servers u hu

theorem Inv.moves (h : Inv c s) (hholds : p.holds = (s.place t).holds)
    (hsolid : p.inSolid = (s.place t).inSolid) (hmaster : p.master → (s.place t).master)
    (hoff : (s.place t).offMaster → p.offMaster)
    (hexposed : p.exposed → (s.place t).exposed ∨ s.lock = true)
    (hwakes : (s.place t).wakes → p.wakes) (hserver : p.ofServer → c.server t) :
    Inv c (s.moves t p) where
  excl := h.excl.same hholds
  count := h.count.trans (by rw [System.moves, solidCount_same hsolid])
  servers := h.servers_update hserver
  mast := h.mast.same hmaster hoff
  noticed := h.noticed.same hexposed hwakes

theorem Inv.take (h : Inv c s) (hlock : s.lock = false) (hp : p.holds)
    (hsolid : p.inSolid = (s.place t).inSolid) (hmaster : p.master → (s.place t).master)
    (hoff : (s.place t).offMaster → p.offMaster) (hserver : ¬p.ofServer) :
    Inv c { s.moves t p with lock := true } where
  excl := Excl.take (hlock ▸ h.excl) hp
  count := h.count.trans (by rw [System.moves, solidCount_same hsolid])
  servers := h.servers_update fun hp => absurd hp hserver
  mast := h.mast.same hmaster hoff
  noticed := fun _ _ => Or.inl rfl

theorem wake_holds (p : Place) : p.wake.holds = p.holds := by cases p <;> rfl
theorem wake_inSolid (p : Place) : p.wake.inSolid = p.inSolid := by cases p <;> rfl
theorem wake_ofServer (p : Place) : p.wake.ofServer = p.ofServer := by cases p <;> rfl
theorem wake_master (p : Place) : p.wake.master = p.master := by cases p <;> rfl
theorem wake_offMaster (p : Place) : p.wake.offMaster = p.offMaster := by cases p <;> rfl
theorem wake_exposed {p : Place} (h : p.wake.exposed) : p = .enter := by
  cases p <;> first | rfl | cases h

theorem Inv.wakeup (h : Inv c s) (ht : (s.place t) = .waking) (hnone : ∀ u, s.place u ≠ .enter) :
    Inv c (s.moves t .idle).wakeup := by
  have hexcl : Excl s.lock (update s.place t .idle) := h.excl.same (by rw [ht]; rfl)
  have hmast : Mast s.master s.outer (update s.place t .idle) :=
    h.mast.same (by simp [master]) (by simp [ht, offMaster])
  refine ⟨?_, ?_, ?_, ?_, Noticed.none fun u hu => ?_⟩
  · simpa only [Excl, System.wakeup, System.moves, wake_holds] using hexcl
  · rw [System.wakeup, System.moves]
    simp only [solidCount, wake_inSolid]
    exact h.count.trans (by rw [← solidCount, solidCount_same (by rw [ht]; rfl)])
  · intro u hu
    rw [System.wakeup, System.moves, wake_ofServer] at hu
    exact h.servers_update (fun hs => absurd hs (by decide)) u hu
  · simpa only [Mast, System.wakeup, System.moves, wake_master, wake_offMaster] using hmast
  · have henter := wake_exposed hu
    rw [System.moves] at henter
    simp only [update_apply] at henter
    split at henter
    · cases henter
    · exact hnone u henter

theorem Inv.unlock (h : Inv c s) (ht : s.place t = .unlocking) :
    Inv c { s.moves t .testing with lock := false } where
  excl := h.excl.drop (by rw [ht]; rfl) (by decide)
  count := h.count.trans (by rw [System.moves, solidCount_same (by rw [ht]; rfl)])
  servers := h.servers_update (fun hs => absurd hs (by decide))
  mast := h.mast.same (by simp [master]) (by simp [ht, offMaster])
  noticed := Noticed.wakes rfl

theorem Inv.plainUnlock (h : Inv c s) (ht : s.place t = .plainUnlock)
    (hnone : ∀ u, (s.place u).exposed = false) : Inv c { s.moves t .idle with lock := false } where
  excl := h.excl.drop (by rw [ht]; rfl) (by decide)
  count := h.count.trans (by rw [System.moves, solidCount_same (by rw [ht]; rfl)])
  servers := h.servers_update (fun hs => absurd hs (by decide))
  mast := h.mast.same (by simp [master]) (by simp [ht, offMaster])
  noticed := by
    change Noticed false (update s.place t .idle)
    refine Noticed.none fun u => ?_
    rw [update_apply]
    split
    · decide
    · simp [hnone u]

/-- A thread comes into `share_lock_solid` with the master lock. -/
theorem Inv.solid (h : Inv c s) (ht : s.place t = .solid) (hserver : c.server t)
    (hm : s.canMaster t) :
    Inv c { s.moves t .counted with
      master := some t, needWakeup := s.needWakeup + 1 } where
  excl := h.excl.same (by rw [ht]; rfl)
  count := by
    have := @solidCount_enter T _ _ s.place t .counted rfl (by rw [ht]; decide)
    simp only [System.moves, h.count, this]
    push_cast
    ring
  servers := h.servers_update fun _ => hserver
  mast := h.mast.grab (by simpa [System.canMaster] using hm)
  noticed := h.noticed.same (by simp [exposed]) (by simp [ht, wakes])

/-- A thread leaves `share_lock_solid`, and the master lock as it found it. -/
theorem Inv.leave (h : Inv c s) (hsolid : (s.place t).inSolid) (hmaster : (s.place t).master)
    (hwakes : ¬(s.place t).wakes) (hp : ¬p.ofServer) (hp' : ¬p.master) (hexposed : ¬p.exposed)
    {lock : Bool} (hexcl : Excl lock (update s.place t p))
    (hlock : s.lock = true → lock = true) :
    Inv c { (s.moves t p).releaseMaster t with
      lock := lock, needWakeup := s.needWakeup - 1 } where
  excl := hexcl
  count := by
    have hp'' : ¬p.inSolid := fun hi => hp (by cases p <;> first | exact hi | cases hi)
    have := @solidCount_leave T _ _ s.place t p hp'' hsolid
    simp only [System.moves, System.releaseMaster, h.count, ← this]
    push_cast
    ring
  servers := h.servers_update fun hs => absurd hs hp
  mast := h.mast.release hmaster hp'
  noticed := fun u hu => (h.noticed.same (p := p) (fun hx => absurd hx hexposed)
    (fun hx => absurd hx hwakes) u hu).imp hlock id

theorem Inv.reinit (h : Inv c s) (ht : s.place t = .reinit)
    (hnone : ∀ u, (s.place u).holds = false ∧ (u ≠ t → (s.place u).inSolid = false)) :
    Inv c { s.moves t (.back false) with lock := false, who := 0, needWakeup := 1 } where
  excl := Excl.none (fun u _ => by simp [hnone u]) (by decide)
  count := by
    have hone : (Finset.univ.filter fun u =>
        (update s.place t (.back false) u).inSolid) = {t} := by
      ext u
      simp only [Finset.mem_filter, Finset.mem_univ, true_and, Finset.mem_singleton, update_apply]
      by_cases hu : u = t
      · simp [hu, inSolid]
      · simp [hu, (hnone u).2 hu]
    change (1 : ℤ) = (solidCount (update s.place t (.back false)) : ℤ)
    rw [solidCount, hone, Finset.card_singleton, Nat.cast_one]
  servers := h.servers_update fun _ => h.servers t (by rw [ht]; rfl)
  mast := h.mast.same (by simp [ht, master]) (by simp [ht, offMaster])
  noticed := by
    change Noticed false (update s.place t (.back false))
    refine Noticed.none fun u => ?_
    rw [update_apply]
    split
    · decide
    · rename_i hu
      have := (hnone u).2 hu
      cases hp : s.place u <;> simp [hp, inSolid, exposed] at this ⊢

theorem Inv.sleep (h : Inv c s) (ht : s.place t = .queued) :
    Inv c { s.moves t .asleep with master := none } where
  excl := h.excl.same (by rw [ht]; rfl)
  count := h.count.trans (by rw [System.moves, solidCount_same (by rw [ht]; rfl)])
  servers := h.servers_update fun _ => h.servers t (by rw [ht]; rfl)
  mast := h.mast.sleep (by rw [ht]; rfl) (by decide) rfl
  noticed := h.noticed.same (by simp [ht, exposed]) (by simp [ht, wakes])

theorem Inv.wakes {timedOut : Bool} (h : Inv c s) (ht : s.place t = .woken timedOut)
    (hm : s.canMaster t) : Inv c { s.moves t (.back timedOut) with master := some t } where
  excl := h.excl.same (by rw [ht]; rfl)
  count := h.count.trans (by rw [System.moves, solidCount_same (by rw [ht]; rfl)])
  servers := h.servers_update fun _ => h.servers t (by rw [ht]; rfl)
  mast := h.mast.grab (by simpa [System.canMaster] using hm)
  noticed := h.noticed.same (by simp [Place.exposed]) (by simp [ht, Place.wakes])

omit [DecidableEq T] in
theorem Inv.setWho (h : Inv c s) (who : ℕ) : Inv c { s with who := who } :=
  ⟨h.excl, h.count, h.servers, h.mast, h.noticed⟩

omit [DecidableEq T] in
theorem Inv.needed (h : Inv c s) (hu : ∃ u, (s.place u).exposed) : s.needWakeup ≠ 0 := by
  obtain ⟨u, hu⟩ := hu
  intro hn
  have hcount : solidCount s.place = 0 := by
    have := h.count
    omega
  have hsolid : u ∈ Finset.univ.filter fun u => (s.place u).inSolid := by
    simp only [Finset.mem_filter, Finset.mem_univ, true_and]
    cases hp : s.place u <;> simp [hp, exposed] at hu <;> rfl
  rw [Finset.card_eq_zero.1 hcount] at hsolid
  exact absurd hsolid (Finset.notMem_empty u)

theorem Inv.testing (h : Inv c s) (ht : s.place t = .testing) :
    Inv c (s.moves t (if s.needWakeup = 0 then .idle else .waking)) := by
  by_cases hn : s.needWakeup = 0
  · rw [if_pos hn]
    have hnone : ∀ u, ¬(s.place u).exposed := fun u hu => h.needed ⟨u, hu⟩ hn
    refine ⟨h.excl.same (by rw [ht]; rfl), ?_, h.servers_update (fun hs => absurd hs (by decide)),
      h.mast.same (by simp [Place.master]) (by simp [ht, Place.offMaster]), ?_⟩
    · exact h.count.trans (by rw [System.moves, solidCount_same (by rw [ht]; rfl)])
    · refine Noticed.none fun u => ?_
      simp only [System.moves, update_apply]
      split
      · decide
      · exact hnone u
  · rw [if_neg hn]
    exact h.moves (by rw [ht]; rfl) (by rw [ht]; rfl) (by simp [Place.master])
      (by simp [ht, Place.offMaster]) (by simp [Place.exposed]) (by simp [Place.wakes])
      fun hs => absurd hs (by decide)

theorem Inv.turn (h : Inv c s) (hfits : Fits c s (.turn t)) : Inv c (s.turn c t).2 := by
  unfold System.turn
  simp only [Fits] at hfits
  cases hp : s.place t with
  | idle | asleep | panicked | crit => exact h
  | spin =>
    dsimp only
    split
    · exact h
    · rename_i hlock
      exact h.take (by simpa using hlock) rfl (by rw [hp]; rfl) (by simp [Place.master])
        (by simp [hp, Place.offMaster]) (by decide)
  | «try» =>
    dsimp only
    split
    · split
      · rename_i hserver
        exact h.moves (by rw [hp]; rfl) (by rw [hp]; rfl) (by simp [Place.master])
          (by simp [hp, Place.offMaster]) (by simp [Place.exposed]) (by simp [hp, Place.wakes])
          fun _ => hserver
      · exact h
    · rename_i hlock
      exact h.take (by simpa using hlock) rfl (by rw [hp]; rfl) (by simp [Place.master])
        (by simp [hp, Place.offMaster]) (by decide)
  | solid =>
    dsimp only
    split
    · rename_i hm
      exact h.solid hp (h.servers t (by rw [hp]; rfl)) hm
    · exact h
  | counted =>
    dsimp only
    split
    · rename_i hlock
      exact h.moves (by rw [hp]; rfl) (by rw [hp]; rfl) (by simp [hp, Place.master])
        (by simp [hp, Place.offMaster]) (fun _ => Or.inr hlock) (by simp [hp, Place.wakes])
        fun _ => h.servers t (by rw [hp]; rfl)
    · rename_i hlock
      rw [Bool.not_eq_true] at hlock
      exact h.leave (by rw [hp]; rfl) (by rw [hp]; rfl) (by simp [hp, Place.wakes]) (by decide)
        (by decide) (by decide) (Excl.take (hlock ▸ h.excl) rfl) fun _ => rfl
  | enter =>
    exact h.moves (by rw [hp]; rfl) (by rw [hp]; rfl) (by simp [hp, Place.master])
      (by simp [hp, Place.offMaster]) (by simp [hp, Place.exposed]) (by simp [hp, Place.wakes])
      fun _ => h.servers t (by rw [hp]; rfl)
  | queued => exact h.sleep hp
  | woken timedOut =>
    dsimp only
    split
    · rename_i hm
      exact h.wakes hp hm
    · exact h
  | back timedOut =>
    cases timedOut with
    | false =>
      exact h.leave (by rw [hp]; rfl) (by rw [hp]; rfl) (by simp [hp, Place.wakes]) (by decide)
        (by decide) (by decide) (h.excl.same (by rw [hp]; rfl)) id
    | true =>
      dsimp only
      split <;> exact h.moves (by rw [hp]; rfl) (by rw [hp]; rfl) (by simp [hp, Place.master])
          (by simp [hp, Place.offMaster]) (by simp [Place.exposed]) (by simp [hp, Place.wakes])
          fun _ => h.servers t (by rw [hp]; rfl)
  | reinit =>
    rw [hp] at hfits
    exact h.reinit hp hfits
  | taken | tried | clearing =>
    exact (h.moves (by rw [hp]; rfl) (by rw [hp]; rfl) (by simp [Place.master])
      (by simp [hp, Place.offMaster]) (by simp [Place.exposed])
      (by simp [hp, Place.wakes]) fun hs => absurd hs (by decide)).setWho _
  | unlocking => exact h.unlock hp
  | testing => exact h.testing hp
  | waking =>
    rw [hp] at hfits
    dsimp only
    split
    · rename_i hcan
      refine h.wakeup hp fun u hu => ?_
      -- a thread at `tsleep_enter` has the master lock
      rcases hcan with hserver | hmaster
      · exact hfits hserver u hu
      · have := h.mast u (Or.inl (by rw [hu]; rfl))
        rw [hmaster] at this
        cases this
    · exact h
  | plainUnlock =>
    rw [hp] at hfits
    exact h.plainUnlock hp hfits

theorem Inv.takeMaster (h : Inv c s) (hm : s.master = none) :
    Inv c { s with master := some t, outer := update s.outer t true } where
  excl := h.excl
  count := h.count
  servers := h.servers
  mast := fun u hu => by
    by_cases hut : u = t
    · rw [hut]
    · simp only [update_of_ne hut] at hu
      have := h.mast u hu
      rw [hm] at this
      cases this
  noticed := h.noticed

theorem Inv.dropMaster (h : Inv c s) (ht : s.place t = .idle ∨ s.place t = .crit)
    (hout : s.outer t) :
    Inv c { s with master := none, outer := update s.outer t false } where
  excl := h.excl
  count := h.count
  servers := h.servers
  mast := fun u hu => by
    have hoff : ¬(s.place t).offMaster := by rcases ht with ht | ht <;> rw [ht] <;> decide
    have hm := h.mast t (Or.inr ⟨hout, hoff⟩)
    by_cases hut : u = t
    · subst hut
      simp only [update_self] at hu
      rcases ht with ht | ht <;> simp [ht, master] at hu
    · simp only [update_of_ne hut] at hu
      exact absurd (some.inj (hm.symm.trans (h.mast u hu))) (Ne.symm hut)
  noticed := h.noticed

theorem Inv.event (h : Inv c s) {e : Event T} (hfits : Fits c s e) : Inv c (s.event c e).2 := by
  cases e with
  | turn t => exact h.turn hfits
  | use => exact ⟨h.excl, h.count, h.servers, h.mast, h.noticed⟩
  | lock t =>
    simp only [System.event]
    split
    · rename_i hp
      have hmoves : ∀ q, q = Place.try ∨ q = Place.spin → Inv c (s.moves t q) := by
        rintro q (rfl | rfl) <;>
          exact h.moves (by rw [hp]; rfl) (by rw [hp]; rfl) (by simp [Place.master])
            (by simp [hp, Place.offMaster]) (by simp [Place.exposed]) (by simp [hp, Place.wakes])
            fun hs => absurd hs (by decide)
      split
      · split
        · exact hmoves _ (Or.inl rfl)
        · exact hmoves _ (Or.inr rfl)
      · split
        · exact hmoves _ (Or.inl rfl)
        · exact h
    · exact h
  | tryLock t =>
    simp only [System.event]
    split
    · rename_i hp
      exact h.take hp.2.2 rfl (by rw [hp.1]; rfl) (by simp [Place.master])
        (by simp [hp.1, Place.offMaster]) (by decide)
    · exact h
  | unlock t =>
    simp only [System.event]
    split
    · rename_i hp
      have hmoves : ∀ q, q = Place.plainUnlock ∨ q = Place.clearing → Inv c (s.moves t q) := by
        rintro q (rfl | rfl) <;>
          exact h.moves (by rw [hp]; rfl) (by rw [hp]; rfl) (by simp [Place.master])
            (by simp [hp, Place.offMaster]) (by simp [Place.exposed]) (by simp [hp, Place.wakes])
            fun hs => absurd hs (by decide)
      split
      · exact hmoves _ (Or.inl rfl)
      · exact hmoves _ (Or.inr rfl)
    · exact h
  | timeout t =>
    simp only [System.event]
    split
    · rename_i hp
      exact h.moves (by rw [hp]; rfl) (by rw [hp]; rfl) (by simp [Place.master])
        (by simp [Place.offMaster]) (by simp [Place.exposed]) (by simp [hp, Place.wakes])
        fun _ => h.servers t (by rw [hp]; rfl)
    · exact h
  | takeMaster t =>
    simp only [System.event]
    split
    · rename_i hp
      exact h.takeMaster hp.2.2
    · exact h
  | dropMaster t =>
    simp only [System.event]
    split
    · rename_i hp
      exact h.dropMaster hp.1 hp.2
    · exact h

omit [DecidableEq T] in
theorem Inv.safe (h : Inv c s) : Safe c s where
  exclusive := h.excl.1
  held := h.excl.2.1
  counted := h.count
  servers := fun t ht => h.servers t (by cases hp : s.place t <;> rw [hp] at ht <;> first
    | exact ht
    | cases ht)
  noticed := h.noticed

end Step

theorem wake_queued (p : Place) : p.wake ≠ .queued ∧ p.wake ≠ .asleep := by
  cases p <;> simp [wake]

theorem Inv.turn_wakes {s : System T} (h : Inv c s) (t : T) : Wakes s t (s.turn c t).2 where
  testing := fun ht hu => by
    rw [System.turn, ht]
    simp [System.moves, h.needed hu]
  waking := fun ht hidle u => by
    rw [System.turn, ht] at hidle ⊢
    dsimp only at hidle ⊢
    split at hidle
    · rename_i hcan
      rw [if_pos hcan]
      exact wake_queued _
    · rw [ht] at hidle
      cases hidle

omit [Fintype T] in
theorem turn_scribbled {s : System T} {t : T} (hfits : Fits c s (.turn t)) :
    ∀ who ∈ (s.turn c t).1, ¬InTable c who := by
  intro who hwho
  by_cases hp : s.place t = .back true
  · simp only [Fits, hp] at hfits
    rw [System.turn, hp] at hwho
    dsimp only at hwho
    split at hwho
    · cases hwho
    · rename_i htest
      obtain rfl : s.who = who := some.inj hwho
      exact hfits (by simpa using htest)
  · rw [System.turn] at hwho
    split at hwho
    all_goals contradiction

/-- In a run of turns that fit, the lock is safe. -/
theorem sharedRuns_safe (es : List (Event T)) (hes : Runs.Along (System.step c) (Fits c) init es) :
    Runs.Does (System.step c) (spec c) init init es := by
  refine Runs.Does.of_simulation (fun s a => a = s ∧ Inv c s) ?_ ⟨rfl, Inv.init⟩ hes
  rintro s a e ⟨rfl, hinv⟩ hfits
  have hinv' := hinv.event hfits
  refine ⟨_, _, _, rfl, ⟨rfl, hinv'.safe, ?_, ?_⟩, rfl, hinv'⟩
  · cases e with
    | turn t => exact turn_scribbled c hfits
    | _ => simp
  · rintro t rfl
    exact hinv.turn_wakes c t

/-! A server thread, 0, has the lock and another sleeps on it. In the first run it is woken, in
the second the lock stays taken until its sleep times out, though a process of the table has it. -/

def two : Config (Fin 2) where
  server := fun _ => true
  proc := 0x1000
  procNPROC := 0x9000
  p := 0x2000
  proc_le := by decide
  lt_procNPROC := by decide
  procNPROC_lt := by decide

def sleeping : List (Event (Fin 2)) :=
  [.use, .lock 0, .turn 0, .turn 0, .lock 1, .turn 1, .turn 1, .turn 1, .turn 1, .turn 1]

def released : List (Event (Fin 2)) :=
  sleeping ++ [.unlock 0, .turn 0, .turn 0, .turn 0, .turn 0, .turn 1, .turn 1, .turn 1, .turn 1]

theorem sharedRuns_safe_released : Runs.Does (System.step two) (spec two) init init released :=
  sharedRuns_safe two released (by decide +kernel)

def timedOut : List (Event (Fin 2)) :=
  sleeping ++ [.timeout 1, .turn 1, .turn 1, .turn 1, .turn 1, .turn 1, .turn 1]

/-- The sleeper, whose sleep has timed out, takes the lock that the other has. -/
theorem timedOut_not_safe : ¬Runs.Does (System.step two) (spec two) init init timedOut := by
  intro h
  have hexcl : Runs.Along (System.step two)
      (fun s e => ∀ t u, ((s.event two e).2.place t).holds → ((s.event two e).2.place u).holds →
        t = u) init timedOut :=
    h.along fun s a e r s' a' hstep hspec => by
      obtain rfl : (s.event two e).2 = s' := congrArg Prod.snd (some.inj hstep)
      exact hspec.2.1.exclusive
  exact absurd hexcl (by decide +kernel)

end MachKernel.Ux.SharedLock
