import MachKernel.Lib.Runs
import Mathlib.Data.Finset.Card
import Mathlib.Data.List.GetD

/-! Emulated system calls (`kern/syscall_emulation.c` and the trap handler of `mac2/locore.s`): the
tables of routines that tasks inherit from one another. -/

namespace MachKernel.Kern
open Function Option List

def emlMinSyscall : ℤ := -52

def emlMaxEmulateCount : ℕ := 256

/-- `eml_max_syscall`, as `eml_init` sets it. -/
def emlMaxSyscall : ℤ := emlMaxEmulateCount + emlMinSyscall - 1

/-- The value of a sum in an `int`. -/
def int32 (x : ℤ) : ℤ := Int.bmod x (2 ^ 32)

/-- The entry that an index comes to: entries have four bytes, and addresses wrap. -/
def entry (x : ℤ) : ℤ := Int.bmod x (2 ^ 30)

/-- `struct eml_dispatch`, in a kernel without simple locks. -/
structure EmlDispatch where
  refCount : ℕ
  dispCount : ℕ
  dispVector : List ℕ
  deriving DecidableEq

/-- The words of a table in memory. -/
def EmlDispatch.words (eml : EmlDispatch) : List ℕ := eml.refCount :: eml.dispCount :: eml.dispVector

inductive EmlReturn
  | success
  | badTask
  | badCnt
  deriving DecidableEq

/-- What `task_get_emulation_vector` gives back. -/
inductive EmlVector
  | error (kr : EmlReturn)
  | vector (start : ℤ) (routines : List ℕ)
  deriving DecidableEq

/-- Where the trap handler goes. -/
inductive SyscallTo
  | native
  | emul (routine : ℕ)
  deriving DecidableEq

/-- The zone of tables, and the tasks with the `eml_dispatch` of each. -/
structure Eml (T : Type) where
  allocated : Finset ℕ
  table : ℕ → EmlDispatch
  tasks : Finset T
  task : T → Option ℕ

/-- The loop that writes the routines, from an index on; there is no result when it leaves the
table. -/
def writeVector (dispCount : ℕ) : List ℕ → ℤ → List ℕ → Option (List ℕ)
  | vector, _, [] => some vector
  | vector, i, routine :: rest =>
    if 0 ≤ entry i ∧ entry i < dispCount then
      writeVector dispCount (vector.set (entry i).toNat routine) (i + 1) rest
    else none

namespace Eml
variable {T : Type} [DecidableEq T] (s : Eml T)

/-- `zalloc` of a table, with what the caller sets in it. -/
def zalloc (a : ℕ) : Eml T :=
  { s with
    allocated := insert a s.allocated
    table := update s.table a { s.table a with refCount := 1, dispCount := emlMaxEmulateCount } }

def zfree (a : ℕ) : Eml T := { s with allocated := s.allocated.erase a }

def setTable (a : ℕ) (eml : EmlDispatch) : Eml T :=
  { s with table := update s.table a eml }

/-- `eml_task_reference`, for a task that begins. -/
def emlTaskReference (task : T) (parent : Option T) : Eml T :=
  let s := { s with tasks := insert task s.tasks }
  match parent.bind s.task with
  | none => { s with task := update s.task task none }
  | some a =>
    { s.setTable a { s.table a with refCount := (s.table a).refCount + 1 } with
      task := update s.task task (some a) }

/-- `eml_task_deallocate`, for a task that ends. -/
def emlTaskDeallocate (task : T) : Eml T :=
  let s' := { s with tasks := s.tasks.erase task, task := update s.task task none }
  match s.task task with
  | none => s'
  | some a =>
    let count := (s.table a).refCount - 1
    let s' := s'.setTable a { s.table a with refCount := count }
    if count = 0 then s'.zfree a else s'

/-- The part of `task_set_emulation_vector` from `Restart` on that finds a table for the task alone;
without a new table, it may have to get one. -/
def ownTable (task : T) (newEml : Option ℕ) : Option (ℕ × Eml T) :=
  match s.task task with
  | none => newEml.map fun n =>
    (n, { s.setTable n { s.table n with dispVector := .replicate (s.table n).dispCount 0 } with
      task := update s.task task (some n) })
  | some a =>
    if 1 < (s.table a).refCount then newEml.map fun n =>
      (n, { (s.setTable n { s.table n with
          dispVector := (s.table a).dispVector.take (s.table n).dispCount }).setTable a
            { s.table a with refCount := (s.table a).refCount - 1 } with
        task := update s.task task (some n) })
    else some (a, newEml.elim s s.zfree)

/-- `task_set_emulation_vector`; `a` is the table that `zalloc` gives. -/
def taskSetEmulationVector (task : Option T) (vectorStart : ℤ) (emulationVector : List ℕ)
    (a : ℕ) : Option (EmlReturn × Eml T) :=
  match task with
  | none => some (.badTask, s)
  | some t =>
    if emlMaxSyscall < int32 (vectorStart + emulationVector.length - 1) ∨
        vectorStart < emlMinSyscall then some (.badCnt, s)
    else
      ((s.ownTable t none).or ((s.zalloc a).ownTable t (some a))).bind fun (eml, s) =>
        (writeVector (s.table eml).dispCount (s.table eml).dispVector
          (vectorStart - emlMinSyscall) emulationVector).map fun vector =>
            (.success, s.setTable eml { s.table eml with dispVector := vector })

/-- `task_get_emulation_vector`; the caller has room for so many routines. -/
def taskGetEmulationVector (task : Option T) (count : ℕ) : EmlVector :=
  match task with
  | none => .error .badTask
  | some t =>
    match s.task t with
    | none => .vector emlMinSyscall []
    | some a =>
      if (count : ℤ) < emlMaxSyscall - emlMinSyscall + 1 then .error .badCnt
      else .vector emlMinSyscall ((s.table a).words.take (emlMaxSyscall - emlMinSyscall + 1).toNat)

/-- The trap handler `_syscall`; there is no result when it reads outside the table. -/
def syscall (task : T) (number : ℤ) : Option SyscallTo :=
  if number - emlMinSyscall < 0 then some .native
  else
    match s.task task with
    | none => some .native
    | some a =>
      let d1 := int32 (number - emlMinSyscall)
      if ((s.table a).dispCount : ℤ) < d1 then some .native
      else if 0 ≤ entry d1 ∧ entry d1 < (s.table a).dispCount then
        (s.table a).dispVector[(entry d1).toNat]?.map fun routine =>
          if routine = 0 then .native else .emul routine
      else none

end Eml

inductive EmlEvent (T : Type)
  | create (task : T) (parent : Option T)
  | destroy (task : T)
  | set (task : Option T) (vectorStart : ℤ) (emulationVector : List ℕ) (a : ℕ)
  | get (task : Option T) (count : ℕ)
  | syscall (task : T) (number : ℤ)

inductive EmlReply
  | nothing
  | set (kr : EmlReturn)
  | get (vector : EmlVector)
  | syscall (dest : SyscallTo)

namespace Eml
variable {T : Type} [DecidableEq T] (s : Eml T)

def step : EmlEvent T → Option (EmlReply × Eml T)
  | .create task parent => some (.nothing, s.emlTaskReference task parent)
  | .destroy task => some (.nothing, s.emlTaskDeallocate task)
  | .set task vectorStart emulationVector a =>
    (s.taskSetEmulationVector task vectorStart emulationVector a).map fun (kr, s) => (.set kr, s)
  | .get task count => some (.get (s.taskGetEmulationVector task count), s)
  | .syscall task number => (s.syscall task number).map fun dest => (.syscall dest, s)

/-- Calls on tasks there are, with numbers of 32 bits; `zalloc` gives what is not in use. -/
def Allowed : EmlEvent T → Prop
  | .create task parent => task ∉ s.tasks ∧ ∀ t ∈ parent, t ∈ s.tasks
  | .destroy task => task ∈ s.tasks
  | .set task vectorStart emulationVector a =>
    (∀ t ∈ task, t ∈ s.tasks) ∧ -2 ^ 31 ≤ vectorStart ∧ vectorStart < 2 ^ 31 ∧
      emulationVector.length ≤ 1024 ∧ a ∉ s.allocated
  | .get task _ => ∀ t ∈ task, t ∈ s.tasks
  | .syscall task number => task ∈ s.tasks ∧ -2 ^ 31 ≤ number ∧ number < 2 ^ 31

/-- What the code does not get right: a range that wraps, the vector of a table, and the number just
behind the last. -/
def Fits : EmlEvent T → Prop
  | .set _ vectorStart emulationVector _ => vectorStart + emulationVector.length ≤ 2 ^ 31
  | .get task count => ∀ t ∈ task, s.task t = none ∨ count < emlMaxEmulateCount
  | .syscall task number => s.task task = none ∨ number ≠ emlMaxSyscall + 1
  | _ => True

instance : DecidablePred s.Allowed
  | .create _ _ => inferInstanceAs (Decidable (_ ∧ ∀ _ ∈ _, _))
  | .destroy _ => inferInstanceAs (Decidable (_ ∈ _))
  | .set _ _ _ _ => inferInstanceAs (Decidable ((∀ _ ∈ _, _) ∧ _ ∧ _ ∧ _ ∧ _))
  | .get _ _ => inferInstanceAs (Decidable (∀ _ ∈ _, _))
  | .syscall _ _ => inferInstanceAs (Decidable (_ ∧ _ ∧ _))

instance : DecidablePred s.Fits
  | .create _ _ | .destroy _ => isTrue trivial
  | .set _ _ _ _ => inferInstanceAs (Decidable (_ ≤ _))
  | .get _ _ => inferInstanceAs (Decidable (∀ _ ∈ _, _))
  | .syscall _ _ => inferInstanceAs (Decidable (_ ∨ _))

def init : Eml T := ⟨∅, fun _ => ⟨0, 0, []⟩, ∅, fun _ => none⟩

end Eml

/-- The routines of each task that has a table, by the numbers of the system calls. -/
abbrev Vectors (T : Type) := T → Option (ℤ → ℕ)

/-- The whole range lies between the least and the greatest system call. -/
def InRange (vectorStart : ℤ) (count : ℕ) : Prop :=
  emlMinSyscall ≤ vectorStart ∧ vectorStart + count - 1 ≤ emlMaxSyscall

instance (vectorStart : ℤ) (count : ℕ) : Decidable (InRange vectorStart count) :=
  inferInstanceAs (Decidable (_ ∧ _))

/-- The routines after some of them have been set. -/
def setRange (routines : ℤ → ℕ) (vectorStart : ℤ) (emulationVector : List ℕ) (number : ℤ) : ℕ :=
  if vectorStart ≤ number ∧ number < vectorStart + emulationVector.length then
    emulationVector.getD (number - vectorStart).toNat 0
  else routines number

/-- The routines in the order of their numbers. -/
def routineList (routines : ℤ → ℕ) : List ℕ :=
  (List.range emlMaxEmulateCount).map fun i => routines (i + emlMinSyscall)

namespace Vectors
variable {T : Type} [DecidableEq T]

/-- What a call answers, and does to the routines of the tasks. -/
def does (v : Vectors T) : EmlEvent T → EmlReply → Vectors T → Prop
  | .create task parent, r, v' => r = .nothing ∧ v' = update v task (parent.bind v)
  | .destroy task, r, v' => r = .nothing ∧ v' = update v task none
  | .set none _ _ _, r, v' => r = .set .badTask ∧ v' = v
  | .set (some t) vectorStart emulationVector _, r, v' =>
    if InRange vectorStart emulationVector.length then
      r = .set .success ∧ v' = update v t
        (some (setRange ((v t).getD fun _ => 0) vectorStart emulationVector))
    else r = .set .badCnt ∧ v' = v
  | .get none _, r, v' => r = .get (.error .badTask) ∧ v' = v
  | .get (some t) count, r, v' => v' = v ∧ r = .get ( match v t with
    | none => .vector emlMinSyscall []
    | some routines =>
      if count < emlMaxEmulateCount then .error .badCnt
      else .vector emlMinSyscall (routineList routines))
  | .syscall task number, r, v' => v' = v ∧ ∃ dest, r = .syscall dest ∧
    (number - emlMinSyscall < 2 ^ 31 → dest = match v task with
      | none => .native
      | some routines =>
        if emlMinSyscall ≤ number ∧ number ≤ emlMaxSyscall ∧ routines number ≠ 0 then
          .emul (routines number)
        else .native)

end Vectors

/-- The tables are those of the tasks there are. -/
def Eml.Freed {T : Type} (s : Eml T) : Prop :=
  ∀ a, a ∈ s.allocated ↔ ∃ t ∈ s.tasks, s.task t = some a

/-- The routine of each system call in a table. -/
def EmlDispatch.routines (eml : EmlDispatch) (number : ℤ) : ℕ :=
  if emlMinSyscall ≤ number then eml.dispVector.getD (number - emlMinSyscall).toNat 0 else 0

theorem entry_eq {x : ℤ} (h0 : 0 ≤ x) (h1 : x < 2 ^ 29) : entry x = x := by
  unfold entry
  rw [Int.bmod_def]
  split_ifs <;> omega

theorem int32_eq {x : ℤ} (h0 : -2 ^ 31 ≤ x) (h1 : x < 2 ^ 31) : int32 x = x := by
  unfold int32
  rw [Int.bmod_def]
  split_ifs <;> omega

theorem writeVector_eq (routines vector : List ℕ) (i : ℕ)
    (hlen : vector.length = emlMaxEmulateCount) (h : i + routines.length ≤ emlMaxEmulateCount) :
    ∃ vector', writeVector emlMaxEmulateCount vector i routines = some vector' ∧
      vector'.length = emlMaxEmulateCount ∧
      ∀ k, vector'.getD k 0 = if i ≤ k ∧ k < i + routines.length then routines.getD (k - i) 0
        else vector.getD k 0 := by
  induction routines generalizing vector i with
  | nil =>
    refine ⟨vector, rfl, hlen, fun k => ?_⟩
    rw [if_neg (by simp)]
  | cons routine rest ih =>
    rw [length_cons] at h
    have hmax : emlMaxEmulateCount = 256 := rfl
    have hentry : entry i = i := entry_eq (by omega) (by omega)
    obtain ⟨vector', hwrite, hlen', hget⟩ := ih (vector.set i routine) (i + 1)
      (by simpa using hlen) (by omega)
    refine ⟨vector', ?_, hlen', fun k => ?_⟩
    · rw [writeVector, hentry, if_pos ⟨by omega, by omega⟩, Int.toNat_natCast]
      exact hwrite
    · have hi : i < vector.length := by omega
      rw [hget k, length_cons]
      rcases lt_trichotomy k i with hk | rfl | hk
      · rw [if_neg (by omega), if_neg (by omega)]
        simp [getD_eq_getElem?_getD, getElem?_set_ne hk.ne']
      · rw [if_neg (by omega), if_pos (by omega)]
        simp [getD_eq_getElem?_getD, hi]
      · have hcond : (i + 1 ≤ k ∧ k < i + 1 + rest.length) ↔
            (i ≤ k ∧ k < i + (rest.length + 1)) := by omega
        have hsub : k - i = k - (i + 1) + 1 := by omega
        simp only [hcond, hsub, getD_cons_succ]
        simp [getD_eq_getElem?_getD, getElem?_set_ne hk.ne]

namespace Eml
variable {T : Type} [DecidableEq T] {s : Eml T} {v : Vectors T} {t : T} {a : ℕ}

/-- The tasks that share a table. -/
def users (s : Eml T) (a : ℕ) : Finset T := s.tasks.filter fun t => s.task t = some a

omit [DecidableEq T] in
theorem mem_users : t ∈ s.users a ↔ t ∈ s.tasks ∧ s.task t = some a := Finset.mem_filter

structure Holds (s : Eml T) (v : Vectors T) : Prop where
  freed : s.Freed
  gone : ∀ t, t ∉ s.tasks → s.task t = none
  table : ∀ a ∈ s.allocated, (s.table a).dispCount = emlMaxEmulateCount ∧
    (s.table a).dispVector.length = emlMaxEmulateCount ∧ (s.table a).refCount = (s.users a).card
  vec : ∀ t, v t = (s.task t).map fun a => (s.table a).routines

theorem users_task (s' : Eml T) (x : Option ℕ) (htasks : s'.tasks = insert t s.tasks)
    (htask : s'.task = update s.task t x) (b : ℕ) :
    s'.users b = if x = some b then insert t (s.users b) else (s.users b).erase t := by
  ext u
  rw [users, htasks, htask, Finset.mem_filter]
  by_cases hu : u = t
  · subst hu
    split_ifs with hx <;> simp [hx]
  · split_ifs <;> simp [users, hu]

theorem users_erase (s' : Eml T) (htasks : s'.tasks = s.tasks.erase t)
    (htask : s'.task = update s.task t none) (b : ℕ) : s'.users b = (s.users b).erase t := by
  ext u
  rw [users, htasks, htask, Finset.mem_filter]
  by_cases hu : u = t
  · subst hu
    simp
  · simp [users, hu]

section
omit [DecidableEq T]

theorem Holds.users_nonempty (h : s.Holds v) : a ∈ s.allocated ↔ (s.users a).Nonempty := by
  rw [h.freed a]
  exact ⟨fun ⟨t, ht⟩ => ⟨t, mem_users.2 ht⟩, fun ⟨t, ht⟩ => ⟨t, mem_users.1 ht⟩⟩

theorem Holds.mem_tasks (h : s.Holds v) (ha : s.task t = some a) : t ∈ s.tasks := by
  by_contra ht
  rw [h.gone t ht] at ha
  cases ha

theorem Holds.mem_allocated (h : s.Holds v) (ha : s.task t = some a) : a ∈ s.allocated :=
  (h.freed a).2 ⟨t, h.mem_tasks ha, ha⟩

end

/-- One task comes to another table, or to none, and the tables of the others stay. -/
theorem Holds.change (h : s.Holds v) (s' : Eml T) (x : Option ℕ)
    (htask : s'.task = update s.task t x)
    (hgone : ∀ u, u ∉ s'.tasks → u = t ∧ x = none ∨ u ≠ t ∧ u ∉ s.tasks)
    (halloc : ∀ b, b ∈ s'.allocated ↔ (s'.users b).Nonempty)
    (htable : ∀ b ∈ s'.allocated, (s'.table b).dispCount = emlMaxEmulateCount ∧
      (s'.table b).dispVector.length = emlMaxEmulateCount ∧
      (s'.table b).refCount = (s'.users b).card)
    (hkeep : ∀ u b, u ≠ t → s.task u = some b → (s'.table b).routines = (s.table b).routines) :
    s'.Holds (update v t (x.map fun a => (s'.table a).routines)) where
  freed b := by
    rw [halloc b]
    exact ⟨fun ⟨u, hu⟩ => ⟨u, mem_users.1 hu⟩, fun ⟨u, hu⟩ => ⟨u, mem_users.2 hu⟩⟩
  gone u hu := by
    rw [htask]
    rcases hgone u hu with ⟨rfl, rfl⟩ | ⟨hut, hu⟩
    · simp
    · rw [update_of_ne hut]
      exact h.gone u hu
  table := htable
  vec u := by
    rw [htask]
    by_cases hut : u = t
    · subst hut
      simp
    · rw [update_of_ne hut, update_of_ne hut, h.vec u]
      cases hu : s.task u with
      | none => rfl
      | some b => simp [hkeep u b hut hu]

theorem Holds.create (h : s.Holds v) (ht : t ∉ s.tasks) (parent : Option T) :
    (s.emlTaskReference t parent).Holds (update v t (parent.bind v)) := by
  have hvec : parent.bind v = (parent.bind s.task).map fun a => (s.table a).routines := by
    cases parent with
    | none => rfl
    | some p => exact h.vec p
  have hnot (b : ℕ) : t ∉ s.users b := fun hb => ht (mem_users.1 hb).1
  rw [hvec]
  cases hp : parent.bind s.task with
  | none =>
    have hstate : s.emlTaskReference t parent =
        { s with tasks := insert t s.tasks, task := update s.task t none } := by
      simp only [emlTaskReference, hp]
    rw [hstate]
    have husers (b : ℕ) := users_task (s := s) (t := t)
      { s with tasks := insert t s.tasks, task := update s.task t none } none rfl rfl b
    simp only [reduceCtorEq, if_false, Finset.erase_eq_of_notMem (hnot _)] at husers
    refine h.change _ none rfl (fun u hu => .inr ⟨?_, fun hm => ?_⟩) (fun b => ?_) (fun b hb => ?_)
      fun _ _ _ _ => rfl
    · rintro rfl
      exact hu (Finset.mem_insert_self u _)
    · exact hu (Finset.mem_insert_of_mem hm)
    · rw [husers b]
      exact h.users_nonempty
    · rw [husers b]
      exact h.table b hb
  | some a =>
    obtain ⟨p, rfl, hpa⟩ := bind_eq_some_iff.1 hp
    have ha := h.mem_allocated hpa
    obtain ⟨s', hs'⟩ : ∃ s', s' = { s.setTable a { s.table a with
        refCount := (s.table a).refCount + 1 } with
        tasks := insert t s.tasks, task := update s.task t (some a) } := ⟨_, rfl⟩
    have hstate : s.emlTaskReference t (some p) = s' := by
      simp only [emlTaskReference, hp, hs']
      rfl
    have htable (b : ℕ) : s'.table b =
        if b = a then { s.table a with refCount := (s.table a).refCount + 1 } else s.table b := by
      by_cases hb : b = a <;> simp [hs', setTable, hb]
    have hroutines (b : ℕ) : (s'.table b).routines = (s.table b).routines := by
      rw [htable]
      split_ifs with hb
      · exact hb ▸ rfl
      · rfl
    have husers (b : ℕ) := users_task (s := s) (t := t) s' (some a) (by rw [hs']) (by rw [hs']) b
    simp only [Option.some.injEq, Finset.erase_eq_of_notMem (hnot _)] at husers
    have := h.change s' (some a) (t := t) (by rw [hs']) (fun u hu => .inr ⟨?_, fun hm => ?_⟩)
      (fun b => ?_) (fun b hb => ?_) (fun u b _ _ => hroutines b)
    · rw [hstate]
      simpa [hroutines] using this
    · rintro rfl
      exact hu (by rw [hs']; exact Finset.mem_insert_self u _)
    · exact hu (by rw [hs']; exact Finset.mem_insert_of_mem hm)
    · rw [husers b, hs']
      split_ifs with hb
      · subst hb
        simpa [setTable] using ha
      · exact h.users_nonempty
    · rw [husers b, htable]
      rw [hs'] at hb
      split_ifs with h1 h2 h2
      · subst h1
        rw [Finset.card_insert_of_notMem (hnot b), (h.table b ha).2.2.symm]
        exact ⟨(h.table b ha).1, (h.table b ha).2.1, rfl⟩
      · exact absurd h1.symm h2
      · exact absurd h2.symm h1
      · exact h.table b hb

theorem Holds.destroy (h : s.Holds v) (ht : t ∈ s.tasks) :
    (s.emlTaskDeallocate t).Holds (update v t none) := by
  cases hta : s.task t with
  | none =>
    have hnot (b : ℕ) : t ∉ s.users b := fun hb => by
      rw [(mem_users.1 hb).2] at hta
      cases hta
    have hstate : s.emlTaskDeallocate t =
        { s with tasks := s.tasks.erase t, task := update s.task t none } := by
      simp only [emlTaskDeallocate, hta]
    rw [hstate]
    have husers (b : ℕ) := users_erase (s := s) (t := t)
      { s with tasks := s.tasks.erase t, task := update s.task t none } rfl rfl b
    simp only [Finset.erase_eq_of_notMem (hnot _)] at husers
    refine h.change _ none rfl (fun u hu => ?_) (fun b => ?_) (fun b hb => ?_) fun _ _ _ _ => rfl
    · by_cases hut : u = t
      · exact .inl ⟨hut, rfl⟩
      · exact .inr ⟨hut, fun hm => hu (Finset.mem_erase.2 ⟨hut, hm⟩)⟩
    · rw [husers b]
      exact h.users_nonempty
    · rw [husers b]
      exact h.table b hb
  | some a =>
    have ha := h.mem_allocated hta
    obtain ⟨hdisp, hlen, hcount⟩ := h.table a ha
    have hmem : t ∈ s.users a := mem_users.2 ⟨ht, hta⟩
    have hcard := Finset.card_erase_of_mem hmem
    have hother {b : ℕ} (hb : b ≠ a) : t ∉ s.users b := fun hm => by
      rw [(mem_users.1 hm).2] at hta
      exact hb (some.inj hta)
    obtain ⟨s', hs'⟩ : ∃ s', s' = s.emlTaskDeallocate t := ⟨_, rfl⟩
    have htasks : s'.tasks = s.tasks.erase t := by
      simp only [hs', emlTaskDeallocate, hta]
      split_ifs <;> rfl
    have htask : s'.task = update s.task t none := by
      simp only [hs', emlTaskDeallocate, hta]
      split_ifs <;> rfl
    have htable (b : ℕ) : s'.table b =
        if b = a then { s.table a with refCount := (s.table a).refCount - 1 } else s.table b := by
      simp only [hs', emlTaskDeallocate, hta]
      by_cases hb : b = a <;> split_ifs <;> simp [setTable, zfree, hb]
    have halloc : s'.allocated =
        if (s.table a).refCount - 1 = 0 then s.allocated.erase a else s.allocated := by
      simp only [hs', emlTaskDeallocate, hta]
      split_ifs <;> rfl
    have hroutines (b : ℕ) : (s'.table b).routines = (s.table b).routines := by
      rw [htable]
      split_ifs with hb
      · exact hb ▸ rfl
      · rfl
    have husers (b : ℕ) := users_erase s' htasks htask b
    rw [← hs']
    refine h.change s' none htask (fun u hu => ?_) (fun b => ?_) (fun b hb => ?_)
      fun u b _ _ => hroutines b
    · by_cases hut : u = t
      · exact .inl ⟨hut, rfl⟩
      · exact .inr ⟨hut, fun hm => hu (htasks ▸ Finset.mem_erase.2 ⟨hut, hm⟩)⟩
    · rw [husers b, halloc]
      by_cases hb : b = a
      · subst hb
        rw [← Finset.card_pos, hcard, ← hcount]
        split_ifs with h0
        · simp [h0]
        · simp only [ha, true_iff]
          omega
      · rw [Finset.erase_eq_of_notMem (hother hb)]
        split_ifs
        · rw [Finset.mem_erase]
          simp only [ne_eq, hb, not_false_iff, true_and]
          exact h.users_nonempty
        · exact h.users_nonempty
    · have hb' : b ∈ s.allocated := by
        rw [halloc] at hb
        split_ifs at hb
        · exact Finset.mem_of_mem_erase hb
        · exact hb
      rw [husers b, htable]
      by_cases hba : b = a
      · subst hba
        rw [if_pos rfl, hcard, ← hcount]
        exact ⟨hdisp, hlen, rfl⟩
      · rw [if_neg hba, Finset.erase_eq_of_notMem (hother hba)]
        exact h.table b hb'

omit [DecidableEq T] in
theorem Holds.users_eq_empty (h : s.Holds v) (ha : a ∉ s.allocated) : s.users a = ∅ := by
  rw [← Finset.not_nonempty_iff_eq_empty, ← h.users_nonempty]
  exact ha

/-- `task_set_emulation_vector` comes to a table of the task alone, with the routines that the task
had. -/
theorem Holds.ownTable (h : s.Holds v) (ht : t ∈ s.tasks) (ha : a ∉ s.allocated) :
    ∃ eml s', (s.ownTable t none).or ((s.zalloc a).ownTable t (some a)) = some (eml, s') ∧
      s'.Holds (update v t (some ((v t).getD fun _ => 0))) ∧
      s'.task t = some eml ∧ ∀ u, u ≠ t → s'.task u ≠ some eml := by
  have hinsert : insert t s.tasks = s.tasks := Finset.insert_eq_of_mem ht
  have hfresh {u : T} : s.task u ≠ some a := fun hu => ha (h.mem_allocated hu)
  cases hta : s.task t with
  | none =>
    -- a new table without routines
    obtain ⟨s', hs'⟩ : ∃ s', (s.zalloc a).ownTable t (some a) = some (a, s') := by
      simp [Eml.ownTable, zalloc, hta]
    have hs : s' = { s with
        allocated := insert a s.allocated
        table := update s.table a ⟨1, emlMaxEmulateCount, .replicate emlMaxEmulateCount 0⟩
        task := update s.task t (some a) } := by
      simp [Eml.ownTable, zalloc, hta, setTable] at hs'
      exact hs'.symm
    have htask : s'.task = update s.task t (some a) := by rw [hs]
    have husers (b : ℕ) := users_task (s := s) (t := t) s' (some a) (by rw [hs, hinsert]) htask b
    have hnot (b : ℕ) : t ∉ s.users b := fun hb => by
      rw [(mem_users.1 hb).2] at hta
      cases hta
    have hroutines : (s'.table a).routines = fun _ => 0 := by
      funext n
      simp only [EmlDispatch.routines, hs, update_self, getD_eq_getElem?_getD,
        getElem?_replicate]
      split_ifs <;> rfl
    simp only [Option.some.injEq, Finset.erase_eq_of_notMem (hnot _)] at husers
    have hholds := h.change s' (some a) htask (fun u hu => .inr ⟨?_, fun hm => hu (by rwa [hs])⟩)
      (fun b => ?_) (fun b hb => ?_) (fun u b _ hub => ?_)
    · refine ⟨a, s', by simp [Eml.ownTable, hta, ← hs'], ?_, by simp [htask], fun u hu => ?_⟩
      · simpa [h.vec t, hta, hroutines] using hholds
      · rw [htask, update_of_ne hu]
        exact hfresh
    · rintro rfl
      exact hu (by rwa [hs])
    · rw [husers b, hs]
      split_ifs with hab
      · simp [← hab]
      · simp only [Finset.mem_insert, Ne.symm hab, false_or]
        exact h.users_nonempty
    · rw [husers b]
      split_ifs with hab
      · subst hab
        simp [hs, h.users_eq_empty ha]
      · rw [hs, Finset.mem_insert] at hb
        simpa [hs, update_of_ne (Ne.symm hab)] using h.table b (hb.resolve_left (Ne.symm hab))
    · have hba : b ≠ a := fun e => hfresh (e ▸ hub)
      simp [hs, update_of_ne hba]
  | some c =>
    have hc := h.mem_allocated hta
    have hca : c ≠ a := fun e => ha (e ▸ hc)
    obtain ⟨hdisp, hlen, hcount⟩ := h.table c hc
    have hmem : t ∈ s.users c := mem_users.2 ⟨ht, hta⟩
    have hother {b : ℕ} (hb : b ≠ c) : t ∉ s.users b := fun hm => by
      rw [(mem_users.1 hm).2] at hta
      exact hb (some.inj hta)
    by_cases hshared : 1 < (s.table c).refCount
    · -- a copy of the shared table
      obtain ⟨s', hs'⟩ : ∃ s', (s.zalloc a).ownTable t (some a) = some (a, s') := by
        simp [Eml.ownTable, zalloc, hta, update_of_ne hca, hshared]
      have hs : s' = { s with
          allocated := insert a s.allocated
          table := update (update s.table a ⟨1, emlMaxEmulateCount, (s.table c).dispVector⟩) c
              { s.table c with refCount := (s.table c).refCount - 1 }
          task := update s.task t (some a) } := by
        have htake : (s.table c).dispVector.take emlMaxEmulateCount = (s.table c).dispVector := by
          rw [← hlen, take_length]
        simp [Eml.ownTable, zalloc, hta, setTable, update_of_ne hca, hshared, htake] at hs'
        exact hs'.symm
      have htask : s'.task = update s.task t (some a) := by rw [hs]
      have husers (b : ℕ) := users_task (s := s) (t := t) s' (some a) (by rw [hs, hinsert]) htask b
      have hnewtable : s'.table a = ⟨1, emlMaxEmulateCount, (s.table c).dispVector⟩ := by
        simp [hs, update_of_ne (Ne.symm hca)]
      have holdtable : s'.table c = { s.table c with refCount := (s.table c).refCount - 1 } := by
        simp [hs]
      have hothertable {b : ℕ} (h1 : b ≠ a) (h2 : b ≠ c) : s'.table b = s.table b := by
        simp [hs, update_of_ne h1, update_of_ne h2]
      have hroutines : (s'.table a).routines = (s.table c).routines := by
        rw [hnewtable]
        rfl
      have hholds := h.change s' (some a) htask (fun u hu => .inr ⟨?_, fun hm => hu (by rwa [hs])⟩)
        (fun b => ?_) (fun b hb => ?_) (fun u b _ hub => ?_)
      · refine ⟨a, s', ?_, ?_, by simp [htask], fun u hu => ?_⟩
        · simp only [Eml.ownTable, hta, hshared, if_true, map_none, none_or]
          exact hs'
        · simpa [h.vec t, hta, hroutines] using hholds
        · rw [htask, update_of_ne hu]
          exact hfresh
      · rintro rfl
        exact hu (by rwa [hs])
      · rw [husers b, hs]
        simp only [Option.some.injEq, Finset.mem_insert]
        split_ifs with hab
        · simp [← hab]
        · simp only [Ne.symm hab, false_or]
          by_cases hbc : b = c
          · subst hbc
            have := Finset.card_erase_of_mem hmem
            rw [← Finset.card_pos, this, ← hcount]
            simp only [hc, true_iff]
            omega
          · rw [Finset.erase_eq_of_notMem (hother hbc)]
            exact h.users_nonempty
      · rw [husers b]
        simp only [Option.some.injEq]
        split_ifs with hab
        · subst hab
          rw [hnewtable, h.users_eq_empty ha]
          exact ⟨rfl, hlen, by simp⟩
        · by_cases hbc : b = c
          · subst hbc
            rw [holdtable, Finset.card_erase_of_mem hmem, ← hcount]
            exact ⟨hdisp, hlen, rfl⟩
          · rw [hs, Finset.mem_insert] at hb
            rw [Finset.erase_eq_of_notMem (hother hbc), hothertable (Ne.symm hab) hbc]
            exact h.table b (hb.resolve_left (Ne.symm hab))
      · have hba : b ≠ a := fun e => hfresh (e ▸ hub)
        by_cases hbc : b = c
        · subst hbc
          rw [holdtable]
          rfl
        · rw [hothertable hba hbc]
    · -- the table is of this task alone
      refine ⟨c, s, ?_, ?_, hta, fun u hu hcu => ?_⟩
      · simp [Eml.ownTable, hta, hshared]
      · have hself : update v t (some ((v t).getD fun _ => 0)) = v := by
          rw [update_eq_self_iff, h.vec t, hta]
          rfl
        rw [hself]
        exact h
      · have hpair : ({t, u} : Finset T) ⊆ s.users c := by
          intro w hw
          rcases Finset.mem_insert.1 hw with rfl | hw
          · exact hmem
          · rw [Finset.mem_singleton] at hw
            exact hw ▸ mem_users.2 ⟨h.mem_tasks hcu, hcu⟩
        have := Finset.card_le_card hpair
        rw [Finset.card_pair hu.symm] at this
        omega

theorem Holds.setTable (h : s.Holds v) {eml : ℕ} (ht : s.task t = some eml)
    (hown : ∀ u, u ≠ t → s.task u ≠ some eml) {vector : List ℕ}
    (hlen : vector.length = emlMaxEmulateCount) :
    (s.setTable eml { s.table eml with dispVector := vector }).Holds (update v t
      (some (EmlDispatch.routines { s.table eml with dispVector := vector }))) := by
  have hstate : (s.setTable eml { s.table eml with dispVector := vector }).task =
      update s.task t (some eml) := by
    rw [← ht, update_eq_self]
    rfl
  have := h.change (s.setTable eml { s.table eml with dispVector := vector }) (some eml) hstate
    (fun u hu => .inr ⟨?_, hu⟩) (fun b => h.users_nonempty) (fun b hb => ?_) (fun u b hu hub => ?_)
  · simpa [Eml.setTable] using this
  · rintro rfl
    exact hu (h.mem_tasks ht)
  · by_cases hbe : b = eml
    · subst hbe
      have := h.table b hb
      simp only [Eml.setTable, update_self]
      exact ⟨this.1, hlen, this.2.2⟩
    · simp only [Eml.setTable, update_of_ne hbe]
      exact h.table b hb
  · have hbe : b ≠ eml := fun e => hown u hu (e ▸ hub)
    simp [Eml.setTable, update_of_ne hbe]

theorem badCnt_iff {vectorStart : ℤ} {count : ℕ} (h : vectorStart + count ≤ 2 ^ 31) :
    (emlMaxSyscall < int32 (vectorStart + count - 1) ∨ vectorStart < emlMinSyscall) ↔
      ¬ InRange vectorStart count := by
  unfold InRange
  by_cases hmin : emlMinSyscall ≤ vectorStart
  · rw [int32_eq (by unfold emlMinSyscall at hmin; omega) (by omega)]
    omega
  · simp [hmin, not_le.1 hmin]

theorem routines_write {eml : EmlDispatch} {vectorStart : ℤ} {i : ℕ} {routines vector : List ℕ}
    (hi : vectorStart - emlMinSyscall = i)
    (hget : ∀ k, vector.getD k 0 = if i ≤ k ∧ k < i + routines.length then routines.getD (k - i) 0
        else eml.dispVector.getD k 0) :
    EmlDispatch.routines { eml with dispVector := vector } =
      setRange eml.routines vectorStart routines := by
  funext n
  unfold EmlDispatch.routines setRange
  by_cases hn : emlMinSyscall ≤ n
  · obtain ⟨k, hk⟩ := Int.eq_ofNat_of_zero_le (Int.sub_nonneg_of_le hn)
    have hcond : (i ≤ k ∧ k < i + routines.length) ↔
        (vectorStart ≤ n ∧ n < vectorStart + routines.length) := by omega
    have hsub : (n - vectorStart).toNat = k - i := by omega
    simp only [hn, if_true, hk, Int.toNat_natCast, hget k, hcond, hsub]
  · have hcond : ¬ (vectorStart ≤ n ∧ n < vectorStart + routines.length) := by omega
    rw [if_neg hn, if_neg hcond]
    exact (if_neg hn).symm

theorem Holds.set (h : s.Holds v) (ht : t ∈ s.tasks) (ha : a ∉ s.allocated) {vectorStart : ℤ}
    {routines : List ℕ} (hfits : vectorStart + routines.length ≤ 2 ^ 31) :
    ∃ kr s' v', s.taskSetEmulationVector (some t) vectorStart routines a = some (kr, s') ∧
      v.does (.set (some t) vectorStart routines a) (.set kr) v' ∧ s'.Holds v' := by
  have hbad := badCnt_iff hfits
  unfold taskSetEmulationVector
  dsimp only
  by_cases hrange : InRange vectorStart routines.length
  · rw [if_neg (by rw [hbad]; exact not_not.2 hrange)]
    obtain ⟨eml, s', hown, hholds, htask, hothers⟩ := h.ownTable ht ha
    obtain ⟨i, hi⟩ := Int.eq_ofNat_of_zero_le (Int.sub_nonneg_of_le hrange.1)
    obtain ⟨hdisp, hlen, -⟩ := hholds.table eml (hholds.mem_allocated htask)
    have hend : i + routines.length ≤ emlMaxEmulateCount := by
      have := hrange.2
      have hmax : emlMaxSyscall = emlMaxEmulateCount + emlMinSyscall - 1 := rfl
      omega
    obtain ⟨vector, hwrite, hlen', hget⟩ := writeVector_eq routines _ i hlen hend
    have hset := hholds.setTable htask hothers hlen'
    have hold := hholds.vec t
    rw [update_self, htask, map_some, Option.some.injEq] at hold
    rw [routines_write hi hget, ← hold, update_idem] at hset
    refine ⟨.success, _, _, ?_, ?_, hset⟩
    · rw [hown, bind_some]
      simp only [hdisp, hi]
      rw [hwrite]
      rfl
    · simp [Vectors.does, hrange]
  · rw [if_pos (hbad.2 hrange)]
    exact ⟨.badCnt, s, v, rfl, by simp [Vectors.does, hrange], h⟩

theorem Holds.syscall (h : s.Holds v) {number : ℤ} (hn : number < 2 ^ 31)
    (hfits : s.task t = none ∨ number ≠ emlMaxSyscall + 1) :
    ∃ dest, s.syscall t number = some dest ∧ v.does (.syscall t number) (.syscall dest) v := by
  have hmax : emlMaxSyscall = emlMaxEmulateCount + emlMinSyscall - 1 := rfl
  have h256 : emlMaxEmulateCount = 256 := rfl
  have hmin52 : emlMinSyscall = -52 := rfl
  simp only [Vectors.does, true_and, EmlReply.syscall.injEq]
  unfold Eml.syscall
  by_cases hmin : number - emlMinSyscall < 0
  · refine ⟨.native, if_pos hmin, .native, rfl, fun _ => ?_⟩
    cases v t with
    | none => rfl
    | some routines =>
      dsimp only
      rw [if_neg (by omega)]
  · rw [if_neg hmin]
    cases hta : s.task t with
    | none => exact ⟨.native, rfl, .native, rfl, fun _ => by rw [h.vec t, hta]; rfl⟩
    | some a =>
      obtain ⟨hdisp, hlen, -⟩ := h.table a (h.mem_allocated hta)
      have hnot : number ≠ emlMaxSyscall + 1 := hfits.resolve_left (by rw [hta]; simp)
      simp only [hdisp]
      by_cases hwrap : number - emlMinSyscall < 2 ^ 31
      · have hd1 : int32 (number - emlMinSyscall) = number - emlMinSyscall :=
          int32_eq (by omega) hwrap
        rw [hd1]
        by_cases hlast : (emlMaxEmulateCount : ℤ) < number - emlMinSyscall
        · refine ⟨.native, if_pos hlast, .native, rfl, fun _ => ?_⟩
          rw [h.vec t, hta, map_some]
          dsimp only
          rw [if_neg (by omega)]
        · have hentry : entry (number - emlMinSyscall) = number - emlMinSyscall :=
            entry_eq (by omega) (by omega)
          have hlt : (number - emlMinSyscall).toNat < (s.table a).dispVector.length := by
            rw [hlen]
            omega
          rw [if_neg hlast, hentry, if_pos ⟨by omega, by omega⟩, getElem?_eq_getElem hlt,
            map_some]
          refine ⟨_, rfl, _, rfl, fun _ => ?_⟩
          have hr : (s.table a).routines number =
              (s.table a).dispVector[(number - emlMinSyscall).toNat] := by
            unfold EmlDispatch.routines
            rw [if_pos (by omega), getD_eq_getElem _ _ hlt]
          rw [h.vec t, hta, map_some]
          dsimp only
          rw [hr]
          by_cases h0 : (s.table a).dispVector[(number - emlMinSyscall).toNat] = 0
          · simp [h0]
          · rw [if_neg h0, if_pos ⟨by omega, by omega, h0⟩]
      · -- the sum wraps, and the scaled index comes back to an entry of the table
        have hd1 : int32 (number - emlMinSyscall) = number - emlMinSyscall - 2 ^ 32 := by
          unfold int32
          rw [Int.bmod_def]
          split_ifs <;> omega
        have hentry : entry (int32 (number - emlMinSyscall)) = number - emlMinSyscall - 2 ^ 31 := by
          rw [hd1]
          unfold entry
          rw [Int.bmod_def]
          split_ifs <;> omega
        rw [if_neg (by omega), hentry, if_pos ⟨by omega, by omega⟩, getElem?_eq_getElem
          (by rw [hlen]; omega), map_some]
        exact ⟨_, rfl, _, rfl, fun hlt => absurd hlt hwrap⟩

theorem Holds.step (h : s.Holds v) {e : EmlEvent T} (ha : s.Allowed e) (hf : s.Fits e) :
    ∃ r s' v', s.step e = some (r, s') ∧ (v.does e r v' ∧ s'.Freed) ∧ s'.Holds v' := by
  cases e with
  | create task parent =>
    have := h.create ha.1 parent
    exact ⟨_, _, _, rfl, ⟨⟨rfl, rfl⟩, this.freed⟩, this⟩
  | destroy task =>
    have := h.destroy ha
    exact ⟨_, _, _, rfl, ⟨⟨rfl, rfl⟩, this.freed⟩, this⟩
  | set task vectorStart routines a =>
    cases task with
    | none => exact ⟨_, s, v, rfl, ⟨⟨rfl, rfl⟩, h.freed⟩, h⟩
    | some t =>
      obtain ⟨ht, -, -, -, hfree⟩ := ha
      obtain ⟨kr, s', v', hset, hdoes, hholds⟩ := h.set (ht t rfl) hfree hf
      exact ⟨.set kr, s', v', by simp [Eml.step, hset], ⟨hdoes, hholds.freed⟩, hholds⟩
  | get task count =>
    cases task with
    | none => exact ⟨_, s, v, rfl, ⟨⟨rfl, rfl⟩, h.freed⟩, h⟩
    | some t =>
      refine ⟨_, s, v, rfl, ⟨⟨rfl, ?_⟩, h.freed⟩, h⟩
      have hv := h.vec t
      rcases hf t rfl with hnone | hcount
      · rw [hnone, map_none] at hv
        simp [taskGetEmulationVector, hnone, hv]
      · have hsmall : (count : ℤ) < emlMaxSyscall - emlMinSyscall + 1 := by
          have : emlMaxSyscall = emlMaxEmulateCount + emlMinSyscall - 1 := rfl
          omega
        cases hta : s.task t with
        | none =>
          rw [hta, map_none] at hv
          simp [taskGetEmulationVector, hta, hv]
        | some a =>
          rw [hta, map_some] at hv
          simp [taskGetEmulationVector, hta, hv, hsmall, hcount]
  | syscall task number =>
    obtain ⟨ht, -, hn⟩ := ha
    obtain ⟨dest, hsys, hdoes⟩ := h.syscall hn hf
    exact ⟨.syscall dest, s, v, by simp [Eml.step, hsys], ⟨hdoes, h.freed⟩, h⟩

omit [DecidableEq T] in
theorem holds_init : (init : Eml T).Holds fun _ => none where
  freed a := by simp [init]
  gone _ _ := rfl
  table a ha := absurd ha (Finset.notMem_empty a)
  vec _ := rfl

/-- Over any run of calls that fit, no access leaves a table, the calls answer and do what they
should, and the tables in use are always those of the tasks there are. -/
theorem runs_do {es : List (EmlEvent T)}
    (h : Runs.Along step (fun s e => s.Allowed e ∧ s.Fits e) (init : Eml T) es) :
    Runs.Does step (fun v e r v' s' => Vectors.does v e r v' ∧ s'.Freed) (init : Eml T)
      (fun _ => none) es := by
  refine Runs.Does.of_simulation Holds ?_ holds_init h
  rintro s v e hs ⟨ha, hf⟩
  exact hs.step ha hf

/-- A child with the table of its parent takes a copy. -/
def inheritedRun : List (EmlEvent ℕ) :=
  [.create 0 none, .get (some 0) 256, .set (some 0) 4 [7, 8] 0, .create 1 (some 0),
    .set (some 1) (-52) [9] 1, .set (some 1) 203 [1, 2] 2, .syscall 1 5, .destroy 0, .syscall 1 205,
    .destroy 1]

theorem runs_do_inherited : Runs.Does step (fun v e r v' s' => Vectors.does v e r v' ∧ s'.Freed)
    (init : Eml ℕ) (fun _ => none) inheritedRun :=
  runs_do (by decide +kernel)

/-- The system call behind the last one, of a task with a table. -/
def behindRun : List (EmlEvent ℕ) :=
  [.create 0 none, .set (some 0) 0 [7] 0, .syscall 0 204]

theorem behindRun_leaves : ¬ ∀ es : List (EmlEvent ℕ),
    Runs.Along step (fun s e => s.Allowed e) (init : Eml ℕ) es →
      Runs.Does step (fun v e r v' s' => Vectors.does v e r v' ∧ s'.Freed) (init : Eml ℕ)
        (fun _ => none) es := by
  intro h
  obtain ⟨_, _, _, h1, -, _, _, _, h2, -, _, _, _, h3, -⟩ := h behindRun (by decide +kernel)
  obtain ⟨-, rfl⟩ := Prod.mk.inj (some.inj h1)
  obtain ⟨-, rfl⟩ := Prod.mk.inj (some.inj h2)
  cases h3

end Eml

end MachKernel.Kern
