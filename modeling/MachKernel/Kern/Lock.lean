import MachKernel.Lib.Runs
import MachKernel.Lib.Word32
import Mathlib.Data.Multiset.AddSub
import Mathlib.Data.Multiset.Count

/-! Read/write locks (`kern/lock.c`). Each function is cut where it gives up the interlock: at the
turns of its wait loops. -/

namespace MachKernel.Kern
open Function Option
open Word32

/-- The two bits for which writers and upgraders compete. -/
inductive Want
  | write
  | upgrade
  deriving DecidableEq

/-- One more than the largest `read_count`, a field of sixteen bits. -/
@[irreducible] def countModulus : ℕ := 2 ^ 16

/-- `l->recursion_depth--` -/
def depthPred : ℕ → ℕ
  | 0 => modulus - 1
  | d + 1 => d

/-- `struct lock`, less its interlock; no thread has the address with which `thread` begins. -/
structure LockData (T : Type) where
  readCount : ℕ
  wantUpgrade : Bool
  wantWrite : Bool
  waiting : Bool
  canSleep : Bool
  thread : Option T
  recursionDepth : ℕ
  deriving DecidableEq

open LockData

def lockInit {T : Type} (canSleep : Bool) : LockData T :=
  ⟨0, false, false, false, canSleep, none, 0⟩

/-- Where a thread is: outside the functions of the lock, or in one of their wait loops. -/
inductive Place
  | idle
  | writeWant
  | writeWait
  | readWait
  | upgradeWait
  | tryUpgradeWait
  deriving DecidableEq

/-- The bit that a thread in a wait loop has set. -/
def Place.flag : Place → Option Want
  | .writeWait => some .write
  | .upgradeWait | .tryUpgradeWait => some .upgrade
  | _ => none

namespace LockData
variable {T : Type} (l : LockData T)

def want : Want → Bool
  | .write => l.wantWrite
  | .upgrade => l.wantUpgrade

def setWant : Want → LockData T
  | .write => { l with wantWrite := true }
  | .upgrade => { l with wantUpgrade := true }

def clearWant : Want → LockData T
  | .write => { l with wantWrite := false }
  | .upgrade => { l with wantUpgrade := false }

theorem want_setWant (w v : Want) : (l.setWant w).want v = (decide (v = w) || l.want v) := by
  cases w <;> cases v <;> rfl

theorem want_clearWant (w v : Want) : (l.clearWant w).want v = (decide (v ≠ w) && l.want v) := by
  cases w <;> cases v <;> rfl

@[simp] theorem setWant_readCount (w : Want) : (l.setWant w).readCount = l.readCount := by
  cases w <;> rfl

@[simp] theorem setWant_recursionDepth (w : Want) :
    (l.setWant w).recursionDepth = l.recursionDepth := by cases w <;> rfl

@[simp] theorem clearWant_readCount (w : Want) : (l.clearWant w).readCount = l.readCount := by
  cases w <;> rfl

@[simp] theorem clearWant_recursionDepth (w : Want) :
    (l.clearWant w).recursionDepth = l.recursionDepth := by cases w <;> rfl

/-- The condition of a wait loop. -/
def mustWait : Place → Bool
  | .idle => false
  | .writeWant => l.wantWrite
  | .writeWait => decide (l.readCount ≠ 0) || l.wantUpgrade
  | .readWait => l.wantWrite || l.wantUpgrade
  | .upgradeWait | .tryUpgradeWait => decide (l.readCount ≠ 0)

/-- What `lock_done` takes its caller to give up. -/
inductive Release
  | read
  | recursion
  | want (w : Want)
  deriving DecidableEq

def release : Release :=
  if l.readCount ≠ 0 then .read
  else if l.recursionDepth ≠ 0 then .recursion
  else if l.wantUpgrade then .want .upgrade
  else .want .write

end LockData

/-- A lock and its threads. The code keeps no record of the last three: the read holds, how often
each thread holds the lock for write, and the bit that it has set. -/
structure LockSystem (T : Type) where
  lock : LockData T
  lockWaitTime : ℕ
  place : T → Place
  spun : T → Bool
  asleep : T → Bool
  result : T → Bool
  readers : Multiset T
  writes : T → ℕ
  flag : T → Option Want

namespace LockSystem
variable {T : Type} [DecidableEq T] (s : LockSystem T) (t : T)

def init (canSleep : Bool) (lockWaitTime : ℕ) : LockSystem T where
  lock := lockInit canSleep
  lockWaitTime := lockWaitTime
  place _ := .idle
  spun _ := false
  asleep _ := false
  result _ := false
  readers := 0
  writes _ := 0
  flag _ := none

def Named : Prop := s.lock.thread = some t

instance : Decidable (s.Named t) := inferInstanceAs (Decidable (_ = _))

def Holds : Prop := 0 < s.writes t ∨ t ∈ s.readers

instance : Decidable (s.Holds t) := inferInstanceAs (Decidable (_ ∨ _))

/-- `if (l->waiting) { l->waiting = FALSE; thread_wakeup((int) l); }` -/
def wakeup : LockSystem T :=
  if s.lock.waiting then { s with lock.waiting := false, asleep := fun _ => false } else s

@[simps]
def moves (p : Place) : LockSystem T := { s with place := update s.place t p }

def returns (r : Bool) : LockSystem T :=
  { s.moves t .idle with
    spun := update s.spun t false
    result := update s.result t r }

/-- The body of a wait loop: the thread spins without the interlock, then sleeps if it can. The
last loop of `lock_try_read_to_write` only sleeps. -/
def waits (p : Place) : LockSystem T :=
  let s := s.moves t p
  if 0 < s.lockWaitTime ∧ s.spun t = false ∧ p ≠ .tryUpgradeWait then
    { s with spun := update s.spun t true }
  else if s.lock.canSleep = true ∨ p = .tryUpgradeWait then
    { s with
      lock.waiting := true
      asleep := update s.asleep t true
      spun := update s.spun t false }
  else s

/-- `l->read_count++` -/
def holdRead : LockSystem T :=
  { s with lock.readCount := (s.lock.readCount + 1) % countModulus, readers := t ::ₘ s.readers }

def dropRead : LockSystem T :=
  { s with
    lock.readCount := (s.lock.readCount + (countModulus - 1)) % countModulus
    readers := s.readers.erase t }

@[simps]
def holdWrite : LockSystem T :=
  { s with writes := update s.writes t (s.writes t + 1) }

/-- `l->recursion_depth++` -/
def recurse : LockSystem T :=
  { s with
    lock.recursionDepth := add s.lock.recursionDepth 1
    writes := update s.writes t (s.writes t + 1) }

def dropRecursion : LockSystem T :=
  { s with
    lock.recursionDepth := depthPred s.lock.recursionDepth
    writes := update s.writes t (s.writes t - 1) }

@[simps]
def setWant (w : Want) : LockSystem T :=
  { s with lock := s.lock.setWant w, flag := update s.flag t (some w) }

@[simps]
def clearWant (w : Want) : LockSystem T :=
  { s with
    lock := s.lock.clearWant w
    writes := update s.writes t (s.writes t - 1)
    flag := update s.flag t none }

section
omit [DecidableEq T]

@[simp] theorem holdRead_place : (s.holdRead t).place = s.place := rfl

@[simp] theorem holdRead_readers : (s.holdRead t).readers = t ::ₘ s.readers := rfl

@[simp] theorem holdRead_writes : (s.holdRead t).writes = s.writes := rfl

@[simp] theorem holdRead_flag : (s.holdRead t).flag = s.flag := rfl

@[simp] theorem holdRead_lock : (s.holdRead t).lock =
    { s.lock with readCount := (s.lock.readCount + 1) % countModulus } := rfl

end

@[simp] theorem dropRead_readers : (s.dropRead t).readers = s.readers.erase t := rfl

@[simp] theorem dropRead_writes : (s.dropRead t).writes = s.writes := rfl

@[simp] theorem dropRead_lock : (s.dropRead t).lock =
    { s.lock with readCount := (s.lock.readCount + (countModulus - 1)) % countModulus } := rfl

@[simp] theorem recurse_place : (s.recurse t).place = s.place := rfl

@[simp] theorem dropRecursion_asleep : (s.dropRecursion t).asleep = s.asleep := rfl

@[simp] theorem dropRecursion_lock : (s.dropRecursion t).lock =
    { s.lock with recursionDepth := depthPred s.lock.recursionDepth } := rfl

def readTurn : LockSystem T :=
  if s.lock.mustWait .readWait then s.waits t .readWait else (s.holdRead t).returns t true

def writeTurn : LockSystem T :=
  if s.lock.mustWait .writeWait then s.waits t .writeWait else (s.holdWrite t).returns t true

def wantTurn : LockSystem T :=
  if s.lock.mustWait .writeWant then s.waits t .writeWant else (s.setWant t .write).writeTurn t

def upgradeTurn (p : Place) (r : Bool) : LockSystem T :=
  if s.lock.mustWait p then s.waits t p else (s.holdWrite t).returns t r

def lockRead : LockSystem T :=
  if s.Named t then (s.holdRead t).returns t true else s.readTurn t

def lockWrite : LockSystem T :=
  if s.Named t then (s.recurse t).returns t true else s.wantTurn t

/-- Returns TRUE if the upgrade failed, and the read lock is gone then. -/
def lockReadToWrite : LockSystem T :=
  let s := s.dropRead t
  if s.Named t then (s.recurse t).returns t false
  else if s.lock.wantUpgrade then s.wakeup.returns t true
  else (s.setWant t .upgrade).upgradeTurn t .upgradeWait false

def lockTryRead : LockSystem T :=
  if s.Named t then (s.holdRead t).returns t true
  else if s.lock.wantWrite || s.lock.wantUpgrade then s.returns t false
  else (s.holdRead t).returns t true

def lockTryWrite : LockSystem T :=
  if s.Named t then (s.recurse t).returns t true
  else if s.lock.wantWrite || s.lock.wantUpgrade || decide (s.lock.readCount ≠ 0) then
    s.returns t false
  else ((s.setWant t .write).holdWrite t).returns t true

/-- Returns FALSE if the upgrade failed, and the read lock is still held then. -/
def lockTryReadToWrite : LockSystem T :=
  if s.Named t then ((s.dropRead t).recurse t).returns t true
  else if s.lock.wantUpgrade then s.returns t false
  else ((s.dropRead t).setWant t .upgrade).upgradeTurn t .tryUpgradeWait true

/-- The part of `lock_done` and `lock_write_to_read` that gives up the lock for write. -/
def dropWrite : LockSystem T :=
  if s.lock.recursionDepth ≠ 0 then s.dropRecursion t
  else if s.lock.wantUpgrade then s.clearWant t .upgrade
  else s.clearWant t .write

def lockWriteToRead : LockSystem T := ((s.holdRead t).dropWrite t).wakeup

def lockDone : LockSystem T :=
  (if s.lock.readCount ≠ 0 then s.dropRead t else s.dropWrite t).wakeup

def lockSetRecursive : LockSystem T := { s with lock.thread := some t }

def lockClearRecursive : LockSystem T :=
  if s.lock.recursionDepth = 0 then { s with lock.thread := none } else s

/-- A thread that has spun or been woken is at its loop again. -/
def retry : LockSystem T :=
  match s.place t with
  | .idle => s
  | .readWait => s.readTurn t
  | .writeWant => s.wantTurn t
  | .writeWait => s.writeTurn t
  | .upgradeWait => s.upgradeTurn t .upgradeWait false
  | .tryUpgradeWait => s.upgradeTurn t .tryUpgradeWait true

end LockSystem

/-- A critical section of a thread under the interlock. -/
inductive LockEvent (T : Type)
  | read (t : T)
  | write (t : T)
  | readToWrite (t : T)
  | tryRead (t : T)
  | tryWrite (t : T)
  | tryReadToWrite (t : T)
  | writeToRead (t : T)
  | done (t : T)
  | setRecursive (t : T)
  | clearRecursive (t : T)
  | retry (t : T)
  deriving DecidableEq

namespace LockSystem
variable {T : Type} [DecidableEq T] (s : LockSystem T)

def step : LockEvent T → LockSystem T
  | .read t => s.lockRead t
  | .write t => s.lockWrite t
  | .readToWrite t => s.lockReadToWrite t
  | .tryRead t => s.lockTryRead t
  | .tryWrite t => s.lockTryWrite t
  | .tryReadToWrite t => s.lockTryReadToWrite t
  | .writeToRead t => s.lockWriteToRead t
  | .done t => s.lockDone t
  | .setRecursive t => s.lockSetRecursive t
  | .clearRecursive _ => s.lockClearRecursive
  | .retry t => s.retry t

/-- What the callers promise: a release has its hold, and only the thread in `l->thread` takes the
lock again while it holds it. The recursion calls panic where they are not allowed here. -/
def Allowed : LockEvent T → Prop
  | .read t | .write t | .tryRead t | .tryWrite t =>
    s.place t = .idle ∧ (s.Named t ∨ ¬ s.Holds t)
  | .readToWrite t | .tryReadToWrite t =>
    s.place t = .idle ∧ t ∈ s.readers ∧ (s.Named t ∨ t ∉ s.readers.erase t ∧ s.writes t = 0)
  | .writeToRead t => s.place t = .idle ∧ 0 < s.writes t
  | .done t => s.place t = .idle ∧ s.Holds t
  | .setRecursive t => s.place t = .idle ∧ 0 < s.writes t ∧ s.lock.wantWrite = true
  | .clearRecursive t => s.place t = .idle ∧ s.Named t
  | .retry t => s.place t ≠ .idle ∧ s.asleep t = false

instance : DecidablePred s.Allowed
  | .read _ | .write _ | .tryRead _ | .tryWrite _ => inferInstanceAs (Decidable (_ ∧ _))
  | .readToWrite _ | .tryReadToWrite _ => inferInstanceAs (Decidable (_ ∧ _ ∧ _))
  | .writeToRead _ | .done _ | .clearRecursive _ | .retry _ =>
    inferInstanceAs (Decidable (_ ∧ _))
  | .setRecursive _ => inferInstanceAs (Decidable (_ ∧ _ ∧ _))

/-- The steps that do `l->read_count++`. -/
def AddsReader : LockEvent T → Prop
  | .read t | .tryRead t => s.Named t ∨ s.lock.mustWait .readWait = false
  | .retry t => s.place t = .readWait ∧ s.lock.mustWait .readWait = false
  | .writeToRead _ => True
  | _ => False

instance : DecidablePred s.AddsReader
  | .read _ | .tryRead _ => inferInstanceAs (Decidable (_ ∨ _))
  | .retry _ => inferInstanceAs (Decidable (_ ∧ _))
  | .writeToRead _ => isTrue trivial
  | .write _ | .readToWrite _ | .tryWrite _ | .tryReadToWrite _ | .done _ | .setRecursive _
  | .clearRecursive _ => isFalse not_false

/-- What the code relies on: neither counter wraps, and the thread in `l->thread` takes the lock for
write, or improves it, only while it holds it for write, and for read only while no other thread
holds it for write. -/
def Fits (e : LockEvent T) : Prop :=
  (s.AddsReader e → s.lock.readCount + 1 < countModulus) ∧
  match e with
  | .read t | .tryRead t => s.Named t → ∀ u, u ≠ t → s.writes u = 0
  | .write t | .tryWrite t | .readToWrite t | .tryReadToWrite t =>
    s.Named t → 0 < s.writes t ∧ s.lock.recursionDepth + 1 < modulus
  | _ => True

instance [Fintype T] : DecidablePred s.Fits
  | .read _ | .tryRead _ => inferInstanceAs (Decidable ((_ → _) ∧ (_ → ∀ _, _ → _)))
  | .write _ | .tryWrite _ | .readToWrite _ | .tryReadToWrite _ =>
    inferInstanceAs (Decidable ((_ → _) ∧ (_ → _ ∧ _)))
  | .writeToRead _ | .done _ | .setRecursive _ | .clearRecursive _ | .retry _ =>
    inferInstanceAs (Decidable ((_ → _) ∧ True))

/-- A run whose steps all meet a condition. -/
def Run (P : LockSystem T → LockEvent T → Prop) (s : LockSystem T) : List (LockEvent T) → Prop
  | [] => True
  | e :: es => P s e ∧ (s.step e).Run P es

instance decidableRun (P : LockSystem T → LockEvent T → Prop) [∀ s, DecidablePred (P s)] :
    ∀ (s : LockSystem T) (es : List (LockEvent T)), Decidable (s.Run P es)
  | _, [] => isTrue trivial
  | s, e :: es =>
    have := decidableRun P (s.step e) es
    inferInstanceAs (Decidable (_ ∧ _))

def runs : List (LockEvent T) → LockSystem T := List.foldl step s

/-- The read/write lock is safe in a state: a thread that holds it for write keeps all others out,
`lock_done` gives up what its caller has, and nobody sleeps for what has come true. -/
structure Safe (s : LockSystem T) : Prop where
  exclusive : ∀ t u, 0 < s.writes t → u ≠ t → ¬ s.Holds u
  done : ∀ t, s.Holds t →
    match s.lock.release with
    | .read => t ∈ s.readers
    | .recursion => 1 < s.writes t
    | .want w => s.writes t = 1 ∧ s.flag t = some w
  awake : ∀ t, s.asleep t = true → s.lock.mustWait (s.place t) = true

/-- What relates the fields of the lock to its holders. -/
structure Owned (s : LockSystem T) : Prop where
  count : s.lock.readCount = s.readers.card
  countLt : s.lock.readCount < countModulus
  depthLt : s.lock.recursionDepth < modulus
  want : ∀ w, s.lock.want w = true ↔ ∃ t, s.flag t = some w
  unique : ∀ w t u, s.flag t = some w → s.flag u = some w → t = u
  idle : ∀ t, s.place t = .idle → (s.flag t = none ↔ s.writes t = 0)
  wait : ∀ t, s.place t ≠ .idle → s.flag t = (s.place t).flag ∧ ¬ s.Holds t
  writer : ∀ t, 0 < s.writes t → s.writes t = s.lock.recursionDepth + 1 ∧ ∀ u, u ≠ t → ¬ s.Holds u
  writeFlag : ∀ t, 0 < s.writes t → s.flag t = some .write → s.lock.want .upgrade = false
  depth : (∀ t, s.writes t = 0) → s.lock.recursionDepth = 0

section
variable {s : LockSystem T} {t : T} {p : Place} {w : Want}

theorem Owned.waits (h : (s.moves t p).Owned) : (s.waits t p).Owned := by
  unfold LockSystem.waits
  dsimp only
  split_ifs
  · exact ⟨h.count, h.countLt, h.depthLt, h.want, h.unique, h.idle, h.wait, h.writer, h.writeFlag,
      h.depth⟩
  · exact ⟨h.count, h.countLt, h.depthLt, h.want, h.unique, h.idle, h.wait, h.writer, h.writeFlag,
      h.depth⟩
  · exact h

theorem Owned.returns (h : (s.moves t .idle).Owned) (r : Bool) : (s.returns t r).Owned :=
  ⟨h.count, h.countLt, h.depthLt, h.want, h.unique, h.idle, h.wait, h.writer, h.writeFlag, h.depth⟩

section
omit [DecidableEq T]

theorem Owned.wakeup (h : s.Owned) : s.wakeup.Owned := by
  unfold LockSystem.wakeup
  split_ifs
  · exact ⟨h.count, h.countLt, h.depthLt, h.want, h.unique, h.idle, h.wait, h.writer, h.writeFlag,
      h.depth⟩
  · exact h

theorem Owned.setThread (h : s.Owned) (u : Option T) : Owned { s with lock.thread := u } :=
  ⟨h.count, h.countLt, h.depthLt, h.want, h.unique, h.idle, h.wait, h.writer, h.writeFlag, h.depth⟩

theorem Owned.place_of_holds (h : s.Owned) (ht : s.Holds t) : s.place t = .idle := by
  by_contra hp
  exact (h.wait t hp).2 ht

theorem Owned.writes_eq_zero (h : s.Owned) (ht : 0 < s.writes t) {u : T} (hu : u ≠ t) :
    s.writes u = 0 := by
  by_contra h0
  exact (h.writer t ht).2 u hu (.inl (Nat.pos_of_ne_zero h0))

end

theorem Owned.holdRead (h : s.Owned) (hp : s.place t = .idle)
    (hw : ∀ u, u ≠ t → s.writes u = 0) (hlt : s.lock.readCount + 1 < countModulus) :
    (s.holdRead t).Owned where
  count := by
    have := h.count
    simp only [holdRead_lock, holdRead_readers, Multiset.card_cons, Nat.mod_eq_of_lt hlt]
    omega
  countLt := by
    simpa only [holdRead_lock, Nat.mod_eq_of_lt hlt] using hlt
  depthLt := h.depthLt
  want := h.want
  unique := h.unique
  idle := h.idle
  wait u hu := by
    have hne : u ≠ t := fun e => hu (e ▸ hp)
    have := h.wait u hu
    simp_all [Holds]
  writer u hu := by
    have hut : u = t := by
      by_contra hne
      exact Nat.lt_irrefl 0 (hw u hne ▸ hu)
    subst hut
    refine ⟨(h.writer u hu).1, fun v hv => ?_⟩
    have := (h.writer u hu).2 v hv
    simp_all [Holds]
  writeFlag := h.writeFlag
  depth := h.depth

theorem Owned.dropRead (h : s.Owned) (ht : t ∈ s.readers) : (s.dropRead t).Owned where
  count := by
    have hc := Multiset.card_erase_add_one ht
    have := h.count
    have := h.countLt
    simp only [dropRead_lock, dropRead_readers, countModulus] at *
    omega
  countLt := by
    simp only [dropRead_lock, countModulus]
    omega
  depthLt := h.depthLt
  want := h.want
  unique := h.unique
  idle := h.idle
  wait u hu := ⟨(h.wait u hu).1, fun hh => (h.wait u hu).2 (hh.imp id Multiset.mem_of_mem_erase)⟩
  writer u hu := ⟨(h.writer u hu).1, fun v hv hh =>
    (h.writer u hu).2 v hv (hh.imp id Multiset.mem_of_mem_erase)⟩
  writeFlag := h.writeFlag
  depth := h.depth

theorem Owned.writes (h : s.Owned) (ht : 0 < s.writes t) {n : ℕ} (hn : n < modulus) :
    Owned { s with
      lock.recursionDepth := n
      writes := update s.writes t (n + 1) } where
  count := h.count
  countLt := h.countLt
  depthLt := hn
  want := h.want
  unique := h.unique
  idle u hu := by
    have := h.idle u hu
    by_cases e : u = t
    · subst e
      simp_all
      omega
    · simpa [update_of_ne e] using this
  wait u hu := by
    have hut : u ≠ t := by
      rintro rfl
      exact hu (h.place_of_holds (.inl ht))
    simpa [Holds, update_of_ne hut] using h.wait u hu
  writer u hu := by
    have hut : u = t := by
      by_contra e
      simp [update_of_ne e, h.writes_eq_zero ht e] at hu
    subst hut
    refine ⟨by simp, fun v hv => ?_⟩
    simpa [Holds, update_of_ne hv] using (h.writer u ht).2 v hv
  writeFlag u hu := by
    have hut : u = t := by
      by_contra e
      simp [update_of_ne e, h.writes_eq_zero ht e] at hu
    exact hut ▸ h.writeFlag t ht
  depth h0 := by simpa using h0 t

theorem Owned.recurse (h : s.Owned) (ht : 0 < s.writes t)
    (hlt : s.lock.recursionDepth + 1 < modulus) : (s.recurse t).Owned := by
  have hadd : add s.lock.recursionDepth 1 = s.lock.recursionDepth + 1 := add_of_lt hlt
  have := h.writes ht hlt
  rw [LockSystem.recurse, hadd, (h.writer t ht).1]
  exact this

theorem Owned.dropRecursion (h : s.Owned) (ht : 0 < s.writes t) (h0 : s.lock.recursionDepth ≠ 0) :
    (s.dropRecursion t).Owned := by
  obtain ⟨d, hd⟩ := Nat.exists_eq_succ_of_ne_zero h0
  have hlt := h.depthLt
  have := h.writes ht (n := d) (by omega)
  rw [LockSystem.dropRecursion, (h.writer t ht).1, hd]
  exact this

theorem Owned.clearWant (h : s.Owned) (ht : 0 < s.writes t) (h0 : s.lock.recursionDepth = 0)
    (hf : s.flag t = some w) : (s.clearWant t w).Owned := by
  have ht1 : s.writes t = 1 := by rw [(h.writer t ht).1, h0]
  have hnone (u : T) : update s.writes t (s.writes t - 1) u = 0 := by
    rcases eq_or_ne u t with rfl | hu
    · simp [ht1]
    · rw [update_of_ne hu, h.writes_eq_zero ht hu]
  constructor
  case count => simpa using h.count
  case countLt => simpa using h.countLt
  case depthLt => simpa using h.depthLt
  case want =>
    intro v
    rw [clearWant_lock, want_clearWant, Bool.and_eq_true, h.want v, decide_eq_true_eq]
    constructor
    · rintro ⟨hv, u, hu⟩
      have hut : u ≠ t := fun e => hv (by rw [e, hf] at hu; exact (some.inj hu).symm)
      exact ⟨u, by simpa [update_of_ne hut] using hu⟩
    · rintro ⟨u, hu⟩
      rcases eq_or_ne u t with rfl | hut
      · simp at hu
      · rw [clearWant_flag, update_of_ne hut] at hu
        exact ⟨fun e => hut (h.unique v u t hu (e ▸ hf)), u, hu⟩
  case unique =>
    intro v u u' hu hu'
    have hut : u ≠ t := fun e => by simp [e] at hu
    have hut' : u' ≠ t := fun e => by simp [e] at hu'
    rw [clearWant_flag, update_of_ne hut] at hu
    rw [clearWant_flag, update_of_ne hut'] at hu'
    exact h.unique v u u' hu hu'
  case idle =>
    intro u hu
    rcases eq_or_ne u t with rfl | hut
    · simp [ht1]
    · simpa [update_of_ne hut] using h.idle u hu
  case wait =>
    intro u hu
    have hut : u ≠ t := by
      rintro rfl
      exact hu (h.place_of_holds (.inl ht))
    simpa [Holds, update_of_ne hut] using h.wait u hu
  case writer =>
    intro u hu
    rw [clearWant_writes, hnone] at hu
    exact absurd hu (Nat.lt_irrefl 0)
  case writeFlag =>
    intro u hu
    rw [clearWant_writes, hnone] at hu
    exact absurd hu (Nat.lt_irrefl 0)
  case depth =>
    intro _
    simpa using h0

theorem Owned.setWant (h : s.Owned) (hw : s.lock.want w = false) (ht : ¬ s.Holds t)
    (hf : s.flag t = none) (hp : p.flag = some w) (hu : w = .upgrade → ∀ u, s.writes u = 0) :
    ((s.setWant t w).moves t p).Owned := by
  have hwrites : s.writes t = 0 := by simpa [Holds] using fun h0 => ht (.inl h0)
  have hfree (u : T) : s.flag u ≠ some w := fun hu => by
    rw [(h.want w).2 ⟨u, hu⟩] at hw
    exact Bool.noConfusion hw
  constructor
  case count => simpa using h.count
  case countLt => simpa using h.countLt
  case depthLt => simpa using h.depthLt
  case want =>
    intro v
    simp only [moves_lock, setWant_lock, want_setWant, Bool.or_eq_true, decide_eq_true_eq,
      h.want v, moves_flag, setWant_flag]
    constructor
    · rintro (rfl | ⟨u, hu⟩)
      · exact ⟨t, by simp⟩
      · have hut : u ≠ t := by rintro rfl; simp [hf] at hu
        exact ⟨u, by rw [update_of_ne hut, hu]⟩
    · rintro ⟨u, hu⟩
      rcases eq_or_ne u t with rfl | hut
      · exact .inl (by simpa using hu.symm)
      · exact .inr ⟨u, by rwa [update_of_ne hut] at hu⟩
  case unique =>
    intro v u u' hu hu'
    simp only [moves_flag, setWant_flag] at hu hu'
    by_cases hut : u = t <;> by_cases hut' : u' = t
    · rw [hut, hut']
    · rw [hut, update_self] at hu
      rw [update_of_ne hut'] at hu'
      exact absurd (hu'.trans hu.symm) (hfree u')
    · rw [update_of_ne hut] at hu
      rw [hut', update_self] at hu'
      exact absurd (hu.trans hu'.symm) (hfree u)
    · rw [update_of_ne hut] at hu
      rw [update_of_ne hut'] at hu'
      exact h.unique v u u' hu hu'
  case idle =>
    intro u hu
    rcases eq_or_ne u t with rfl | hut
    · simp only [moves_place, update_self] at hu
      simp [hu, Place.flag] at hp
    · simp only [moves_place, setWant_place, update_of_ne hut] at hu
      simpa [update_of_ne hut] using h.idle u hu
  case wait =>
    intro u hu
    rcases eq_or_ne u t with rfl | hut
    · exact ⟨by simp [hp], ht⟩
    · simp only [moves_place, setWant_place, update_of_ne hut] at hu
      simpa [Holds, update_of_ne hut] using h.wait u hu
  case writer => simpa [Holds] using h.writer
  case writeFlag =>
    intro u hpos hfu
    have hut : u ≠ t := by
      rintro rfl
      exact absurd hpos (by simp [hwrites])
    have hw' : w = .write := by
      cases w with
      | write => rfl
      | upgrade => exact absurd (hu rfl u) (Nat.pos_iff_ne_zero.1 hpos)
    simp only [moves_flag, setWant_flag, update_of_ne hut] at hfu
    simpa [want_setWant, hw'] using h.writeFlag u hpos hfu
  case depth => simpa using h.depth

theorem Owned.enter (h : s.Owned) (hp : s.place t ≠ .idle) (hf : (s.place t).flag = some w)
    (hc : s.lock.readCount = 0) (hu : w = .write → s.lock.want .upgrade = false) :
    ((s.holdWrite t).moves t .idle).Owned := by
  obtain ⟨hft, hht⟩ := h.wait t hp
  rw [hf] at hft
  have hr : s.readers = 0 := Multiset.card_eq_zero.1 (h.count ▸ hc)
  have hnone (u : T) : s.writes u = 0 := by
    by_contra h0
    have hpos := Nat.pos_of_ne_zero h0
    have hut : u ≠ t := fun e => hht (.inl (e ▸ hpos))
    have hfu : s.flag u ≠ none :=
      fun e => h0 ((h.idle u (h.place_of_holds (.inl hpos))).1 e)
    obtain ⟨v, hv⟩ := ne_none_iff_exists'.1 hfu
    have hvw : v ≠ w := fun e => hut (h.unique v u t hv (e ▸ hft))
    -- the holder has the other bit, and an upgrade keeps the writer out and the other way round
    cases w with
    | write =>
      have hv' : v = .upgrade := by cases v <;> simp_all
      have := (h.want .upgrade).2 ⟨u, hv' ▸ hv⟩
      simp [hu rfl] at this
    | upgrade =>
      have hv' : v = .write := by cases v <;> simp_all
      have hg := h.writeFlag u hpos (hv' ▸ hv)
      simp [(h.want .upgrade).2 ⟨t, hft⟩] at hg
  have h0 := h.depth hnone
  have hupd (u : T) (hut : u ≠ t) : update s.writes t (s.writes t + 1) u = 0 := by
    rw [update_of_ne hut, hnone]
  constructor
  case count => exact h.count
  case countLt => exact h.countLt
  case depthLt => exact h.depthLt
  case want => exact h.want
  case unique => exact h.unique
  case idle =>
    intro u hpu
    rcases eq_or_ne u t with rfl | hut
    · simp [hft]
    · simp only [moves_place, update_of_ne hut] at hpu
      simpa [update_of_ne hut] using h.idle u hpu
  case wait =>
    intro u hpu
    have hut : u ≠ t := by rintro rfl; simp at hpu
    simp only [moves_place, update_of_ne hut] at hpu
    simpa [Holds, update_of_ne hut] using h.wait u hpu
  case writer =>
    intro u hpos
    have hut : u = t := by
      by_contra hut
      exact absurd hpos (by simp [hupd u hut])
    subst hut
    refine ⟨by simp [h0, hnone], fun v hv => ?_⟩
    simp [Holds, hr, hupd v hv]
  case writeFlag =>
    intro u hpos hfu
    have hut : u = t := by
      by_contra hut
      exact absurd hpos (by simp [hupd u hut])
    rw [hut] at hfu
    exact hu (some.inj (hft.symm.trans hfu))
  case depth => exact fun _ => h0

theorem Owned.moves (h : s.Owned) (ht : ¬ s.Holds t) (hf : s.flag t = p.flag) :
    (s.moves t p).Owned where
  count := h.count
  countLt := h.countLt
  depthLt := h.depthLt
  want := h.want
  unique := h.unique
  idle u hu := by
    rcases eq_or_ne u t with rfl | hut
    · have hw : s.writes u = 0 := by simpa [Holds] using fun h0 => ht (.inl h0)
      have hp : p = .idle := by simpa using hu
      simp [hf, hp, hw, Place.flag]
    · exact h.idle u (by simpa [update_of_ne hut] using hu)
  wait u hu := by
    rcases eq_or_ne u t with rfl | hut
    · exact ⟨by simp [hf], ht⟩
    · simp only [moves_place, update_of_ne hut] at hu
      simpa [Holds, update_of_ne hut] using h.wait u hu
  writer := h.writer
  writeFlag := h.writeFlag
  depth := h.depth

section
omit [DecidableEq T]

theorem Owned.flag_ne_none (h : s.Owned) (ht : 0 < s.writes t) : s.flag t ≠ none := fun e =>
  Nat.pos_iff_ne_zero.1 ht ((h.idle t (h.place_of_holds (.inl ht))).1 e)

theorem Owned.flag_of_free (h : s.Owned) (hp : s.place t = .idle) (ht : ¬ s.Holds t) :
    s.flag t = none := by
  refine (h.idle t hp).2 ?_
  by_contra h0
  exact ht (.inl (Nat.pos_of_ne_zero h0))

theorem Owned.no_writer (h : s.Owned) (hw : s.lock.mustWait .readWait = false) (u : T) :
    s.writes u = 0 := by
  by_contra h0
  obtain ⟨w, hu⟩ := ne_none_iff_exists'.1 (h.flag_ne_none (Nat.pos_of_ne_zero h0))
  have := (h.want w).2 ⟨u, hu⟩
  cases w <;> simp_all [LockData.mustWait, LockData.want]

theorem Owned.flag_of_writer (h : s.Owned) (ht : 0 < s.writes t) :
    s.flag t = some (if s.lock.wantUpgrade then .upgrade else .write) := by
  obtain ⟨w, hw⟩ := ne_none_iff_exists'.1 (h.flag_ne_none ht)
  have hw1 := (h.want w).2 ⟨t, hw⟩
  cases w with
  | write =>
    have hu : s.lock.wantUpgrade = false := h.writeFlag t ht hw
    simpa [hu] using hw
  | upgrade =>
    have hu : s.lock.wantUpgrade = true := hw1
    simpa [hu] using hw

end

theorem Owned.dropWrite (h : s.Owned) (ht : 0 < s.writes t) : (s.dropWrite t).Owned := by
  have hf := h.flag_of_writer ht
  unfold LockSystem.dropWrite
  split_ifs with hd hu
  · exact h.dropRecursion ht hd
  · exact h.clearWant ht (not_not.1 hd) (by simpa [hu] using hf)
  · exact h.clearWant ht (not_not.1 hd) (by simpa [hu] using hf)

/-- Whoever sleeps is marked in `waiting`, and its loop is not done. -/
def Awake (s : LockSystem T) : Prop :=
  ∀ t, s.asleep t = true → s.lock.waiting = true ∧ s.lock.mustWait (s.place t) = true

omit [DecidableEq T] in
theorem Awake.not_asleep (h : s.Awake) (ht : s.place t = .idle) : s.asleep t = false := by
  by_contra ha
  have := (h t (Bool.eq_true_of_not_eq_false ha)).2
  simp [ht, mustWait] at this

theorem Awake.waits (h : s.Awake) (ht : s.asleep t = false) (hp : s.lock.mustWait p = true) :
    (s.waits t p).Awake := by
  have hm : (s.moves t p).Awake := by
    intro u hu
    have hut : u ≠ t := by rintro rfl; simp [ht] at hu
    simpa [update_of_ne hut] using h u hu
  unfold LockSystem.waits
  dsimp only
  split_ifs
  · exact hm
  · intro u hu
    refine ⟨rfl, ?_⟩
    by_cases hut : u = t
    · subst hut
      simp only [moves_place, update_self]
      exact hp
    · simp only [update_of_ne hut] at hu
      exact (hm u hu).2
  · exact hm

theorem Awake.returns (h : s.Awake) (ht : s.asleep t = false) (r : Bool) :
    (s.returns t r).Awake := by
  intro u hu
  have hut : u ≠ t := by rintro rfl; simp [LockSystem.returns, ht] at hu
  simpa [LockSystem.returns, update_of_ne hut] using h u hu

omit [DecidableEq T] in
theorem Awake.wakeup (h : ∀ t, s.asleep t = true → s.lock.waiting = true) : s.wakeup.Awake := by
  unfold LockSystem.wakeup
  split_ifs with hw
  · intro u hu
    exact Bool.noConfusion hu
  · intro u hu
    exact absurd (h u hu) hw

omit [DecidableEq T] in
theorem Awake.mono (h : s.Awake) {s' : LockSystem T} (ha : s'.asleep = s.asleep)
    (hp : s'.place = s.place) (hw : s'.lock.waiting = s.lock.waiting)
    (hm : ∀ u, s.asleep u = true → s.lock.mustWait (s.place u) = true →
      s'.lock.mustWait (s.place u) = true) : s'.Awake := by
  intro u hu
  rw [ha] at hu
  rw [hw, hp]
  exact ⟨(h u hu).1, hm u hu (h u hu).2⟩

structure Inv (s : LockSystem T) : Prop where
  owned : s.Owned
  awake : s.Awake

theorem Inv.wait (h : s.Awake) (ho : (s.moves t p).Owned) (ht : s.asleep t = false)
    (hp : s.lock.mustWait p = true) : (s.waits t p).Inv :=
  ⟨ho.waits, h.waits ht hp⟩

theorem Inv.back (h : s.Awake) (ho : (s.moves t .idle).Owned) (ht : s.asleep t = false)
    (r : Bool) : (s.returns t r).Inv :=
  ⟨ho.returns r, h.returns ht r⟩

omit [DecidableEq T] in
theorem Awake.holdRead (h : s.Awake) (hlt : s.lock.readCount + 1 < countModulus) :
    (s.holdRead t).Awake := by
  refine h.mono rfl rfl rfl fun u _ hm => ?_
  cases hu : s.place u <;> simp_all [mustWait, Nat.mod_eq_of_lt]

theorem Inv.readTurn (h : s.Inv) (ha : s.asleep t = false) (ht : ¬ s.Holds t) (hf : s.flag t = none)
    (hlt : s.lock.mustWait .readWait = false → s.lock.readCount + 1 < countModulus) :
    (s.readTurn t).Inv := by
  unfold LockSystem.readTurn
  split_ifs with hw
  · exact .wait h.awake (h.owned.moves ht hf) ha hw
  · rw [Bool.not_eq_true] at hw
    have ho : (s.moves t .idle).Owned := h.owned.moves ht hf
    have hr := ho.holdRead (t := t) (by simp) (fun u _ => h.owned.no_writer hw u) (hlt hw)
    exact .back (h.awake.holdRead (hlt hw)) hr ha true

theorem Inv.writeTurn (h : s.Awake) (ho : (s.moves t .writeWait).Owned)
    (ha : s.asleep t = false) : (s.writeTurn t).Inv := by
  unfold LockSystem.writeTurn
  split_ifs with hw
  · exact .wait h ho ha hw
  · simp only [mustWait, Bool.or_eq_true, decide_eq_true_eq, not_or, not_not,
      Bool.not_eq_true] at hw
    have he := ho.enter (t := t) (w := .write) (by simp) (by simp [Place.flag]) hw.1 fun _ => hw.2
    refine .back (s := s.holdWrite t) h ?_ ha true
    simpa [LockSystem.moves, LockSystem.holdWrite] using he

theorem Inv.upgradeTurn (h : s.Awake) (ho : (s.moves t p).Owned) (ha : s.asleep t = false)
    (hp : p.flag = some .upgrade) (r : Bool) : (s.upgradeTurn t p r).Inv := by
  unfold LockSystem.upgradeTurn
  split_ifs with hw
  · exact .wait h ho ha hw
  · have hc : s.lock.readCount = 0 := by
      cases p <;> simp_all [mustWait, Place.flag]
    have hpi : p ≠ .idle := by rintro rfl; cases hp
    have he := ho.enter (t := t) (w := .upgrade) (by simpa using hpi) (by simpa using hp) hc
      (fun e => Want.noConfusion e)
    refine .back (s := s.holdWrite t) h ?_ ha r
    simpa [LockSystem.moves, LockSystem.holdWrite] using he

theorem Awake.setWant (h : s.Awake) : (s.setWant t w).Awake := by
  refine h.mono rfl rfl (by cases w <;> rfl) fun u _ hm => ?_
  cases hu : s.place u <;> cases w <;> simp_all [LockData.mustWait, LockData.setWant]

theorem Inv.wantTurn (h : s.Inv) (ha : s.asleep t = false) (ht : ¬ s.Holds t)
    (hf : s.flag t = none) : (s.wantTurn t).Inv := by
  unfold LockSystem.wantTurn
  split_ifs with hw
  · exact .wait h.awake (h.owned.moves ht hf) ha hw
  · have ho := h.owned.setWant (p := .writeWait) (w := .write)
      (by simpa [mustWait, want] using hw) ht hf rfl (fun e => Want.noConfusion e)
    exact .writeTurn h.awake.setWant ho ha

theorem moves_idle (hp : s.place t = .idle) : s.moves t .idle = s := by
  simp [LockSystem.moves, ← hp]

theorem Inv.holdRead (h : s.Inv) (hp : s.place t = .idle) (hw : ∀ u, u ≠ t → s.writes u = 0)
    (hlt : s.lock.readCount + 1 < countModulus) (r : Bool) : ((s.holdRead t).returns t r).Inv := by
  refine .back (h.awake.holdRead hlt) ?_ (h.awake.not_asleep hp) r
  rw [moves_idle (by simpa using hp)]
  exact h.owned.holdRead hp hw hlt

theorem Inv.recurse (h : s.Inv) (hw : 0 < s.writes t)
    (hlt : s.lock.recursionDepth + 1 < modulus) (r : Bool) : ((s.recurse t).returns t r).Inv := by
  have hp := h.owned.place_of_holds (.inl hw)
  refine .back (s := s.recurse t) (h.awake.mono rfl rfl rfl fun _ _ hm => hm) ?_
    (h.awake.not_asleep hp) r
  rw [moves_idle (by simpa using hp)]
  exact h.owned.recurse hw hlt

theorem Inv.dropRead_of_writer (h : s.Inv) (hw : 0 < s.writes t) (hr : t ∈ s.readers) :
    (s.dropRead t).Inv := by
  refine ⟨h.owned.dropRead hr, h.awake.mono rfl rfl rfl fun u hu hm => ?_⟩
  obtain ⟨w, hfw⟩ := ne_none_iff_exists'.1 (h.owned.flag_ne_none hw)
  have hwant := (h.owned.want w).2 ⟨t, hfw⟩
  have hpu : s.place u ≠ .idle := fun e => by simp [e, mustWait] at hm
  have hut : u ≠ t := by
    rintro rfl
    exact (h.owned.wait u hpu).2 (.inl hw)
  have hfu := (h.owned.wait u hpu).1
  have hother (e : s.flag u = some w) : False := hut (h.owned.unique w u t e hfw)
  cases hplace : s.place u with
  | idle => exact absurd hplace hpu
  | writeWant => simpa [hplace, mustWait] using hm
  | readWait => simpa [hplace, mustWait] using hm
  | writeWait =>
    cases w with
    | write => exact (hother (by rw [hfu, hplace, Place.flag])).elim
    | upgrade => simp_all [mustWait, want]
  | upgradeWait | tryUpgradeWait =>
    have hup : s.flag u = some .upgrade := by rw [hfu, hplace, Place.flag]
    cases w with
    | write =>
      have := h.owned.writeFlag t hw hfw
      simp [(h.owned.want .upgrade).2 ⟨u, hup⟩] at this
    | upgrade => exact (hother hup).elim

theorem Awake.upgrade (h : s.Inv) (hu : s.lock.wantUpgrade = false) :
    ((s.dropRead t).setWant t .upgrade).Awake := by
  refine h.awake.mono rfl rfl rfl fun u _ hm => ?_
  have hpu : s.place u ≠ .idle := fun e => by simp [e, LockData.mustWait] at hm
  have hfu := (h.owned.wait u hpu).1
  have hnot (e : s.flag u = some .upgrade) : False := by
    have := (h.owned.want .upgrade).2 ⟨u, e⟩
    simp [LockData.want, hu] at this
  cases hplace : s.place u with
  | idle => exact absurd hplace hpu
  | writeWant => simpa [hplace, LockData.mustWait, LockData.setWant] using hm
  | readWait => simp [LockData.mustWait, LockData.setWant]
  | writeWait => simp [LockData.mustWait, LockData.setWant]
  | upgradeWait | tryUpgradeWait => exact (hnot (by rw [hfu, hplace, Place.flag])).elim

theorem Inv.upgrade (h : s.Inv) (hr : t ∈ s.readers) (h1 : t ∉ s.readers.erase t)
    (h0 : s.writes t = 0) (hu : s.lock.wantUpgrade = false) (hp : p.flag = some .upgrade)
    (r : Bool) : (((s.dropRead t).setWant t .upgrade).upgradeTurn t p r).Inv := by
  have hpt := h.owned.place_of_holds (.inr hr)
  have hnone (u : T) : s.writes u = 0 := by
    by_contra hw
    have hut : u ≠ t := fun e => hw (e ▸ h0)
    exact (h.owned.writer u (Nat.pos_of_ne_zero hw)).2 t hut.symm (.inr hr)
  have ho := (h.owned.dropRead hr).setWant (t := t) (w := .upgrade) (p := p) hu
    (by simp [Holds, h0, h1]) ((h.owned.idle t hpt).2 h0) hp fun _ => hnone
  exact .upgradeTurn (Awake.upgrade h hu) ho (h.awake.not_asleep hpt) hp r

omit [DecidableEq T] in
theorem Inv.wakeup (h : s.Owned) (ha : ∀ t, s.asleep t = true → s.lock.waiting = true) :
    s.wakeup.Inv :=
  ⟨h.wakeup, .wakeup ha⟩

theorem Inv.lockRead (h : s.Inv) (ha : s.Allowed (.read t)) (hf : s.Fits (.read t)) :
    (s.lockRead t).Inv := by
  obtain ⟨hp, hn⟩ := ha
  unfold LockSystem.lockRead
  split_ifs with ht
  · exact h.holdRead hp (hf.2 ht) (hf.1 (.inl ht)) true
  · have hh := hn.resolve_left ht
    exact h.readTurn (h.awake.not_asleep hp) hh (h.owned.flag_of_free hp hh)
      fun hw => hf.1 (.inr hw)

theorem Inv.lockTryRead (h : s.Inv) (ha : s.Allowed (.tryRead t)) (hf : s.Fits (.tryRead t)) :
    (s.lockTryRead t).Inv := by
  obtain ⟨hp, _⟩ := ha
  unfold LockSystem.lockTryRead
  split_ifs with ht hw
  · exact h.holdRead hp (hf.2 ht) (hf.1 (.inl ht)) true
  · exact .back h.awake (by rw [moves_idle hp]; exact h.owned) (h.awake.not_asleep hp) false
  · have hw' : s.lock.mustWait .readWait = false := by simpa [mustWait] using hw
    exact h.holdRead hp (fun u _ => h.owned.no_writer hw' u) (hf.1 (.inr hw')) true

theorem Inv.lockWrite (h : s.Inv) (ha : s.Allowed (.write t)) (hf : s.Fits (.write t)) :
    (s.lockWrite t).Inv := by
  obtain ⟨hp, hn⟩ := ha
  unfold LockSystem.lockWrite
  split_ifs with ht
  · exact h.recurse (hf.2 ht).1 (hf.2 ht).2 true
  · have hh := hn.resolve_left ht
    exact h.wantTurn (h.awake.not_asleep hp) hh (h.owned.flag_of_free hp hh)

theorem Inv.lockTryWrite (h : s.Inv) (ha : s.Allowed (.tryWrite t)) (hf : s.Fits (.tryWrite t)) :
    (s.lockTryWrite t).Inv := by
  obtain ⟨hp, hn⟩ := ha
  unfold LockSystem.lockTryWrite
  split_ifs with ht hw
  · exact h.recurse (hf.2 ht).1 (hf.2 ht).2 true
  · exact .back h.awake (by rw [moves_idle hp]; exact h.owned) (h.awake.not_asleep hp) false
  · have hh := hn.resolve_left ht
    simp only [Bool.or_eq_true, decide_eq_true_eq, not_or, Bool.not_eq_true, not_not] at hw
    -- the turn of the loop that `lock_write` would make ends at once
    have hturn : ((s.setWant t .write).holdWrite t).returns t true = s.wantTurn t := by
      simp [LockSystem.wantTurn, LockSystem.writeTurn, LockData.mustWait, LockData.setWant, hw]
    rw [hturn]
    exact h.wantTurn (h.awake.not_asleep hp) hh (h.owned.flag_of_free hp hh)

theorem Inv.lockReadToWrite (h : s.Inv) (ha : s.Allowed (.readToWrite t))
    (hf : s.Fits (.readToWrite t)) : (s.lockReadToWrite t).Inv := by
  obtain ⟨hp, hr, hn⟩ := ha
  have hs := h.awake.not_asleep hp
  unfold LockSystem.lockReadToWrite
  dsimp only
  split_ifs with ht hu
  · have hw := hf.2 ht
    exact (h.dropRead_of_writer hw.1 hr).recurse hw.1 hw.2 false
  · have hi := Inv.wakeup (h.owned.dropRead hr) fun u hu => (h.awake u hu).1
    have hpw : (s.dropRead t).wakeup.place t = .idle := by
      unfold LockSystem.wakeup
      split_ifs <;> exact hp
    exact .back hi.awake (by rw [moves_idle hpw]; exact hi.owned) (hi.awake.not_asleep hpw) true
  · obtain ⟨h1, h0⟩ := hn.resolve_left ht
    exact h.upgrade hr h1 h0 (by simpa using hu) rfl false

theorem Inv.lockTryReadToWrite (h : s.Inv) (ha : s.Allowed (.tryReadToWrite t))
    (hf : s.Fits (.tryReadToWrite t)) : (s.lockTryReadToWrite t).Inv := by
  obtain ⟨hp, hr, hn⟩ := ha
  unfold LockSystem.lockTryReadToWrite
  split_ifs with ht hu
  · have hw := hf.2 ht
    exact (h.dropRead_of_writer hw.1 hr).recurse hw.1 hw.2 true
  · exact .back h.awake (by rw [moves_idle hp]; exact h.owned) (h.awake.not_asleep hp) false
  · obtain ⟨h1, h0⟩ := hn.resolve_left ht
    exact h.upgrade hr h1 h0 (by simpa using hu) rfl true

theorem dropWrite_asleep : (s.dropWrite t).asleep = s.asleep := by
  unfold LockSystem.dropWrite
  split_ifs
  · exact dropRecursion_asleep s t
  · rfl
  · rfl

theorem dropWrite_waiting : (s.dropWrite t).lock.waiting = s.lock.waiting := by
  unfold LockSystem.dropWrite
  split_ifs
  · simp
  · rfl
  · rfl

theorem Inv.lockWriteToRead (h : s.Inv) (ha : s.Allowed (.writeToRead t))
    (hf : s.Fits (.writeToRead t)) : (s.lockWriteToRead t).Inv := by
  obtain ⟨hp, hw⟩ := ha
  have ho := h.owned.holdRead hp (fun u hu => h.owned.writes_eq_zero hw hu) (hf.1 trivial)
  refine .wakeup (ho.dropWrite hw) fun u hu => ?_
  rw [dropWrite_asleep] at hu
  rw [dropWrite_waiting]
  exact (h.awake u hu).1

theorem Owned.mem_readers (h : s.Owned) (ht : s.Holds t) (hc : s.lock.readCount ≠ 0) :
    t ∈ s.readers := by
  rcases ht with hw | hr
  · have hne : s.readers ≠ 0 := fun e => hc (h.count.trans (Multiset.card_eq_zero.2 e))
    obtain ⟨u, hu⟩ := Multiset.exists_mem_of_ne_zero hne
    by_cases hut : u = t
    · exact hut ▸ hu
    · exact absurd (.inr hu) ((h.writer t hw).2 u hut)
  · exact hr

omit [DecidableEq T] in
theorem Owned.writer_of_no_reader (h : s.Owned) (ht : s.Holds t) (hc : s.lock.readCount = 0) :
    0 < s.writes t := by
  refine ht.resolve_right fun hr => ?_
  have h0 : s.readers = 0 := Multiset.card_eq_zero.1 (h.count.symm.trans hc)
  exact Multiset.notMem_zero t (h0 ▸ hr)

theorem Inv.lockDone (h : s.Inv) (ha : s.Allowed (.done t)) : (s.lockDone t).Inv := by
  obtain ⟨hp, hh⟩ := ha
  unfold LockSystem.lockDone
  split_ifs with hc
  · exact .wakeup (h.owned.dropRead (h.owned.mem_readers hh hc)) fun u hu => (h.awake u hu).1
  · have hw := h.owned.writer_of_no_reader hh (not_not.1 hc)
    refine .wakeup (h.owned.dropWrite hw) fun u hu => ?_
    rw [dropWrite_asleep] at hu
    rw [dropWrite_waiting]
    exact (h.awake u hu).1

theorem Inv.retry (h : s.Inv) (ha : s.Allowed (.retry t)) (hf : s.Fits (.retry t)) :
    (s.retry t).Inv := by
  obtain ⟨hp, ha⟩ := ha
  obtain ⟨hft, hh⟩ := h.owned.wait t hp
  have hstay (p : Place) (hpt : s.place t = p) : s.moves t p = s := by
    simp [LockSystem.moves, ← hpt]
  unfold LockSystem.retry
  split
  case h_1 hpt => exact absurd hpt hp
  case h_2 hpt =>
    exact h.readTurn ha hh (by rw [hft, hpt]; rfl) fun hw => hf.1 ⟨hpt, hw⟩
  case h_3 hpt => exact h.wantTurn ha hh (by rw [hft, hpt]; rfl)
  case h_4 hpt => exact .writeTurn h.awake (by rw [hstay _ hpt]; exact h.owned) ha
  case h_5 hpt => exact .upgradeTurn h.awake (by rw [hstay _ hpt]; exact h.owned) ha rfl false
  case h_6 hpt => exact .upgradeTurn h.awake (by rw [hstay _ hpt]; exact h.owned) ha rfl true

omit [DecidableEq T] in
theorem Inv.lockClearRecursive (h : s.Inv) : s.lockClearRecursive.Inv := by
  unfold LockSystem.lockClearRecursive
  split_ifs
  · exact ⟨h.owned.setThread none, h.awake⟩
  · exact h

theorem Inv.step (h : s.Inv) {e : LockEvent T} (ha : s.Allowed e) (hf : s.Fits e) :
    (s.step e).Inv := by
  cases e with
  | read t => exact h.lockRead ha hf
  | write t => exact h.lockWrite ha hf
  | readToWrite t => exact h.lockReadToWrite ha hf
  | tryRead t => exact h.lockTryRead ha hf
  | tryWrite t => exact h.lockTryWrite ha hf
  | tryReadToWrite t => exact h.lockTryReadToWrite ha hf
  | writeToRead t => exact h.lockWriteToRead ha hf
  | done t => exact h.lockDone ha
  | setRecursive t => exact ⟨h.owned.setThread (some t), h.awake⟩
  | clearRecursive t => exact h.lockClearRecursive
  | retry t => exact h.retry ha hf

theorem Inv.runs (h : s.Inv) {es : List (LockEvent T)}
    (hr : s.Run (fun s e => s.Allowed e ∧ s.Fits e) es) : (s.runs es).Inv := by
  induction es generalizing s with
  | nil => exact h
  | cons e es ih => exact ih (h.step hr.1.1 hr.1.2) hr.2

omit [DecidableEq T] in
theorem Inv.init (canSleep : Bool) (lockWaitTime : ℕ) :
    (init canSleep lockWaitTime : LockSystem T).Inv where
  owned := by
    constructor <;> simp [LockSystem.init, lockInit, Holds, Place.flag]
    · simp [countModulus]
    · rintro (_ | _) <;> rfl
  awake t ht := Bool.noConfusion ht

theorem Inv.safe (h : s.Inv) : s.Safe where
  exclusive t u ht hu := (h.owned.writer t ht).2 u hu
  done t ht := by
    unfold release
    split_ifs with hc hd hu
    · exact h.owned.mem_readers ht hc
    all_goals
      have hw := h.owned.writer_of_no_reader ht (not_not.1 hc)
      have h1 := (h.owned.writer t hw).1
      have hf := h.owned.flag_of_writer hw
    · dsimp only
      omega
    · exact ⟨by rw [h1, not_not.1 hd], by simpa [hu] using hf⟩
    · exact ⟨by rw [h1, not_not.1 hd], by simpa [hu] using hf⟩
  awake t ht := (h.awake t ht).2

end

/-- A thread that `lock_set_recursive` has named gives the lock up for read, and another thread
reads: `lock_write` does not wait for it. -/
def downgradedRun : List (LockEvent (Fin 2)) :=
  [.write 0, .setRecursive 0, .writeToRead 0, .read 1, .write 0]

end LockSystem

end MachKernel.Kern
