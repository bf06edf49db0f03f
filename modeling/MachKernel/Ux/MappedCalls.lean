import MachKernel.Lib.Bytes
import MachKernel.Vm.Page

/-! The system calls that the emulator answers from the user area mapped into its task
(`emul_mapped.c`, `bsd_user_side.c`), beside the versions that the server has of them. -/

namespace MachKernel.Ux.MappedCalls
open Bytes Function List

abbrev Word := BitVec 32

abbrev eNomem : ℕ := 12
abbrev eInval : ℕ := 22
abbrev rlimNlimits : ℕ := 6
abbrev rlimitData : Fin rlimNlimits := ⟨2, by decide⟩
abbrev ngroups : ℕ := 16
abbrev nogroup : BitVec 16 := 65535
abbrev nsig : ℕ := 32
abbrev sigkill : ℤ := 9
abbrev sigstop : ℤ := 17
abbrev sigcont : ℤ := 19
abbrev sigDfl : Word := 0
abbrev sigIgn : Word := 1
abbrev svOnstack : Word := 1
abbrev svInterrupt : Word := 2
abbrev strc : Word := 0x10
abbrev srmt : Word := 0x10000000
abbrev pgshift : ℕ := 13

/-- The macro `sigmask`. -/
def sigmask (sig : ℕ) : Word := 1 <<< (sig - 1)

/-- `SIGKILL`, `SIGCONT` and `SIGSTOP`. -/
def cantmask : Word := sigmask 9 ||| sigmask 19 ||| sigmask 17

/-- `SIGSTOP`, `SIGTSTP`, `SIGTTIN` and `SIGTTOU`. -/
def stopsigmask : Word := sigmask 17 ||| sigmask 18 ||| sigmask 21 ||| sigmask 22

structure Rlimit where
  cur : Word
  max : Word

structure Sigvec where
  handler : Word
  mask : Word
  flags : Word

structure Sigstack where
  sp : Word
  onstack : Word

/-- The fields of `struct ushared_ro` and `struct ushared_rw` that the calls use. -/
structure Area where
  rlimit : Fin rlimNlimits → Rlimit
  -- what an index outside `us_rlimit` comes to
  besideRlimit : Word → Rlimit
  dataStart : Word
  groups : Fin ngroups → BitVec 16
  flag : Word
  cursig : BitVec 16
  dsize : Word
  sigstack : Sigstack
  signal : Fin (nsig + 1) → Word
  usigmask : Fin (nsig + 1) → Word
  sigonstack : Word
  sigintr : Word
  sigtramp : Word
  sigmask : Word
  sig : Word
  sigignore : Word
  sigcatch : Word

/-- What a call starts from: the area, the memory of the user, its address space, the register that
is the second return value until a call sets one, and the threads asleep on `&p->p_sigmask`. -/
structure State (S : Type) where
  area : Area
  mem : Mem
  space : S
  d1 : Word
  sleepers : List ℕ

/-- What a call leaves. It `looks` when it calls `e_checksignals`, in the server
`check_proc_signals`. -/
structure Outcome (S : Type) where
  error : ℕ
  rval : Word × Word
  area : Area
  mem : Mem
  space : S
  -- whether it used an entry outside a table
  outside : Bool
  woken : List ℕ
  looks : Bool

/-- The seven calls, with their arguments as they stand in `argp`. -/
inductive Call
  | obreak (nsiz : Word)
  | getgroups (gidsetsize gidset : Word)
  | getrlimit (which rlp : Word)
  | sigblock (mask : Word)
  | sigsetmask (mask : Word)
  | sigvec (sig nsv osv tramp : Word)
  | sigstack (nss oss : Word)

/-! Structures in the memory of the user. -/

def Rlimit.put (l : Rlimit) (m : Mem) (p : Word) : Mem :=
  put32 (put32 m p.toNat l.cur) (p.toNat + 4) l.max

def Sigvec.get (m : Mem) (p : Word) : Sigvec :=
  ⟨get32 m p.toNat, get32 m (p.toNat + 4), get32 m (p.toNat + 8)⟩

def Sigvec.put (v : Sigvec) (m : Mem) (p : Word) : Mem :=
  put32 (put32 (put32 m p.toNat v.handler) (p.toNat + 4) v.mask) (p.toNat + 8) v.flags

def Sigstack.get (m : Mem) (p : Word) : Sigstack := ⟨get32 m p.toNat, get32 m (p.toNat + 4)⟩

def Sigstack.put (ss : Sigstack) (m : Mem) (p : Word) : Mem :=
  put32 (put32 m p.toNat ss.sp) (p.toNat + 4) ss.onstack

/-- `copyout` of an array of words. -/
def copyout (m : Mem) (p : ℕ) : List Word → Mem
  | [] => m
  | w :: ws => copyout (put32 m p w) (p + 4) ws

theorem copyout_append (m : Mem) (p : ℕ) (ws : List Word) (w : Word) :
    copyout m p (ws ++ [w]) = put32 (copyout m p ws) (p + 4 * ws.length) w := by
  induction ws generalizing m p with
  | nil => rfl
  | cons v ws ih =>
    rw [cons_append, copyout, ih, copyout, length_cons,
      show p + 4 + 4 * ws.length = p + 4 * (ws.length + 1) by omega]

/-! Parts that both sides have. -/

def ctob (x : Word) : Word := x <<< pgshift

def btoc (x : Word) : Word := (x + (2 ^ pgshift - 1)) >>> pgshift

/-- How many entries of `us_groups` there are up to the last that is used. -/
def groupsSize (groups : Fin ngroups → BitVec 16) : (n : ℕ) → n ≤ ngroups → ℕ
  | 0, _ => 0
  | n + 1, h => if groups ⟨n, h⟩ ≠ nogroup then n + 1 else groupsSize groups n (Nat.le_of_succ_le h)

theorem groupsSize_le (groups : Fin ngroups → BitVec 16) (n : ℕ) (h : n ≤ ngroups) :
    groupsSize groups n h ≤ n := by
  induction n with
  | zero => exact le_rfl
  | succ n ih =>
    unfold groupsSize
    split
    · exact le_rfl
    · exact (ih _).trans (Nat.le_succ n)

namespace Area
variable (a : Area)

def size : ℕ := groupsSize a.groups ngroups le_rfl

theorem size_le : a.size ≤ ngroups := groupsSize_le a.groups ngroups le_rfl

/-- The vector of a signal, as `*osv` has it. -/
def oldVec (sig : Fin (nsig + 1)) : Sigvec where
  handler := a.signal sig
  mask := a.usigmask sig
  flags :=
    (if a.sigonstack &&& MappedCalls.sigmask sig ≠ 0 then svOnstack else 0) |||
      if a.sigintr &&& MappedCalls.sigmask sig ≠ 0 then svInterrupt else 0

/-- `setsigvec`; the emulator has the same statements under the same lock. -/
def setsigvec (sig : Fin (nsig + 1)) (sv : Sigvec) : Area :=
  let bit := MappedCalls.sigmask sig
  let a := { a with
    signal := update a.signal sig sv.handler
    usigmask := update a.usigmask sig (sv.mask &&& ~~~cantmask)
    sigintr :=
      if sv.flags &&& svInterrupt ≠ 0 then a.sigintr ||| bit else a.sigintr &&& ~~~bit
    sigonstack :=
      if sv.flags &&& svOnstack ≠ 0 then a.sigonstack ||| bit else a.sigonstack &&& ~~~bit }
  if sv.handler = sigIgn then
    { a with
      sig := a.sig &&& ~~~bit
      sigignore := a.sigignore ||| bit
      sigcatch := a.sigcatch &&& ~~~bit }
  else
    { a with
      sigignore := a.sigignore &&& ~~~bit
      sigcatch := if sv.handler = sigDfl then a.sigcatch &&& ~~~bit else a.sigcatch ||| bit }

/-- The test of `e_checksignals`. -/
def eChecksignals : Bool :=
  a.cursig ≠ 0 ∨
    a.sig &&& ~~~(a.sigmask ||| (if a.flag &&& strc ≠ 0 then 0 else a.sigignore) |||
      if a.flag &&& srmt ≠ 0 then stopsigmask else 0) ≠ 0

/-- The bits from which `issig` takes a signal. -/
def sigbits : Word :=
  let sigbits := a.sig &&& ~~~a.sigmask
  let sigbits := if a.flag &&& strc = 0 then sigbits &&& ~~~a.sigignore else sigbits
  if a.flag &&& srmt ≠ 0 then sigbits &&& ~~~stopsigmask else sigbits

/-- There is a signal for the process to take. -/
def Deliverable : Prop := a.cursig ≠ 0 ∨ a.sigbits ≠ 0

end Area

/-- The signals that may be changed. -/
def Settable (sig : Word) : Prop :=
  0 < sig.toInt ∧ sig.toInt ≤ nsig ∧ sig.toInt ≠ sigkill ∧ sig.toInt ≠ sigstop

instance (sig : Word) : Decidable (Settable sig) := inferInstanceAs (Decidable (_ ∧ _))

theorem Settable.lt {sig : Word} (h : Settable sig) : sig.toInt.toNat < nsig + 1 := by
  obtain ⟨hpos, hle, -⟩ := h
  omega

/-- The index of a signal in `us_signal` and `us_usigmask`. -/
def Settable.index {sig : Word} (h : Settable sig) : Fin (nsig + 1) := ⟨sig.toInt.toNat, h.lt⟩

def roundPage [Vm.PageSize] (x : Word) : Word := .ofNat 32 (Vm.roundPage x.toNat)

/-- A return with nothing changed. -/
def State.returns {S : Type} (s : State S) (error : ℕ) : Outcome S where
  error
  rval := (0, s.d1)
  area := s.area
  mem := s.mem
  space := s.space
  outside := false
  woken := []
  looks := false

/-! The server's versions. Those that user memory is an argument of have it from the emulator:
`emul_generic` copies what they wrote, `bsd_sigvec` and `bsd_sigstack` take the new value in the
message, and the old one is stored when the reply has no error. -/

section Server
variable {S : Type} (s : State S)

def obreak [Vm.PageSize] (vmAllocate : S → Word → Word → Option S) (nsiz : Word) : Outcome S :=
  let new := roundPage nsiz
  if (s.area.rlimit rlimitData).cur.toInt < (new - s.area.dataStart).toInt then
    s.returns eNomem
  else
    let old := roundPage (s.area.dataStart + ctob s.area.dsize)
    if old < new then
      match vmAllocate s.space old (new - old) with
      | none => s.returns 0
      | some space => { s.returns 0 with
          area := { s.area with dsize := s.area.dsize + btoc (new - old) }
          space }
    else s.returns 0

/-- `getgroups`; `gidsetsize` is a `u_int`. -/
def getgroups (gidsetsize gidset : Word) : Outcome S :=
  let size := s.area.size
  if gidsetsize.toNat < size then s.returns eInval
  else
    let groups := ((List.ofFn s.area.groups).take size).map (BitVec.zeroExtend 32)
    { s.returns 0 with
      mem := copyout s.mem gidset.toNat groups
      rval := (.ofNat 32 size, s.d1) }

/-- `getrlimit`; `which` is a `u_int`. -/
def getrlimit (which rlp : Word) : Outcome S :=
  if h : which.toNat < rlimNlimits then
    { s.returns 0 with mem := (s.area.rlimit ⟨which.toNat, h⟩).put s.mem rlp }
  else s.returns eInval

def sigblock (mask : Word) : Outcome S :=
  { s.returns 0 with
    rval := (s.area.sigmask, s.d1)
    area := { s.area with sigmask := s.area.sigmask ||| (mask &&& ~~~cantmask) } }

def sigsetmask (mask : Word) : Outcome S :=
  { s.returns 0 with
    rval := (s.area.sigmask, s.d1)
    area := { s.area with sigmask := mask &&& ~~~cantmask }
    woken := s.sleepers
    looks := true }

def sigvec (sig nsv osv tramp : Word) : Outcome S :=
  if h : Settable sig then
    let mem := if osv ≠ 0 then (s.area.oldVec h.index).put s.mem osv else s.mem
    if nsv ≠ 0 then
      let vec := Sigvec.get s.mem nsv
      if sig.toInt = sigcont ∧ vec.handler = sigIgn then s.returns eInval
      else
        { s.returns 0 with
          mem
          area := { s.area with sigtramp := tramp }.setsigvec h.index vec
          woken := if vec.handler = sigIgn then [] else s.sleepers
          looks := vec.handler ≠ sigIgn }
    else { s.returns 0 with mem }
  else s.returns eInval

def sigstack (nss oss : Word) : Outcome S :=
  { s.returns 0 with
    mem := if oss ≠ 0 then s.area.sigstack.put s.mem oss else s.mem
    area := if nss ≠ 0 then { s.area with sigstack := Sigstack.get s.mem nss } else s.area }

end Server

/-! The emulator's versions. -/

section Emulator
variable {S : Type} (s : State S)

def eObreak [Vm.PageSize] (vmAllocate : S → Word → Word → Option S) (nsiz : Word) : Outcome S :=
  let new := roundPage nsiz
  if (s.area.rlimit rlimitData).cur.toInt < (new - s.area.dataStart).toInt then
    s.returns eNomem
  else
    let old := roundPage (s.area.dataStart + ctob s.area.dsize)
    if old < new then
      match vmAllocate s.space old (new - old) with
      -- `goto server`
      | none => obreak s vmAllocate nsiz
      | some space => { s.returns 0 with
          area := { s.area with dsize := s.area.dsize + btoc (new - old) }
          space
          looks := true }
    else { s.returns 0 with looks := true }

/-- The loop that stores the groups, up to the entry `n`. -/
def storeGroups (groups : Fin ngroups → BitVec 16) (m : Mem) (p : ℕ) : (n : ℕ) → n ≤ ngroups → Mem
  | 0, _ => m
  | n + 1, h =>
    put32 (storeGroups groups m p n (Nat.le_of_succ_le h)) (p + 4 * n)
      ((groups ⟨n, h⟩).zeroExtend 32)

/-- `e_getgroups`; the argument is an `int`. -/
def eGetgroups (gidsetsize gidset : Word) : Outcome S :=
  let size := s.area.size
  if gidsetsize.toInt < size then s.returns eInval
  else
    { s.returns 0 with
      mem := storeGroups s.area.groups s.mem gidset.toNat size s.area.size_le
      rval := (.ofNat 32 size, s.d1)
      looks := true }

/-- `e_getrlimit`; the argument is an `int`, and only its upper bound is tested. -/
def eGetrlimit (which rlp : Word) : Outcome S :=
  if (rlimNlimits : ℤ) ≤ which.toInt then s.returns eInval
  else if h : which.toNat < rlimNlimits then
    { s.returns 0 with
      mem := (s.area.rlimit ⟨which.toNat, h⟩).put s.mem rlp
      looks := true }
  else
    { s.returns 0 with
      mem := (s.area.besideRlimit which).put s.mem rlp
      outside := true
      looks := true }

def eSigblock (mask : Word) : Outcome S :=
  { s.returns 0 with
    rval := (s.area.sigmask, s.d1)
    area := { s.area with sigmask := s.area.sigmask ||| (mask &&& ~~~cantmask) }
    looks := true }

def eSigsetmask (mask : Word) : Outcome S :=
  { s.returns 0 with
    rval := (s.area.sigmask, s.d1)
    area := { s.area with sigmask := mask &&& ~~~cantmask }
    looks := true }

/-- `e_sigvec`: `*osv` is stored before `*nsv` is looked at. -/
def eSigvec (sig nsv osv tramp : Word) : Outcome S :=
  if h : Settable sig then
    let mem := if osv ≠ 0 then (s.area.oldVec h.index).put s.mem osv else s.mem
    if nsv ≠ 0 then
      let vec := Sigvec.get mem nsv
      if sig.toInt = sigcont ∧ vec.handler = sigIgn then { s.returns eInval with mem }
      else
        { s.returns 0 with
          mem
          area := { s.area with sigtramp := tramp }.setsigvec h.index vec
          looks := true }
    else { s.returns 0 with mem, looks := true }
  else s.returns eInval

/-- `e_sigstack`: `*oss` is stored before `*nss` is read. -/
def eSigstack (nss oss : Word) : Outcome S :=
  let mem := if oss ≠ 0 then s.area.sigstack.put s.mem oss else s.mem
  { s.returns 0 with
    mem
    area := if nss ≠ 0 then { s.area with sigstack := Sigstack.get mem nss } else s.area
    looks := true }

end Emulator

section Calls
variable [Vm.PageSize] {S : Type} (vmAllocate : S → Word → Word → Option S) (s : State S)

/-- What the emulator does for a call. -/
def emulator : Call → Outcome S
  | .obreak nsiz => eObreak s vmAllocate nsiz
  | .getgroups gidsetsize gidset => eGetgroups s gidsetsize gidset
  | .getrlimit which rlp => eGetrlimit s which rlp
  | .sigblock mask => eSigblock s mask
  | .sigsetmask mask => eSigsetmask s mask
  | .sigvec sig nsv osv tramp => eSigvec s sig nsv osv tramp
  | .sigstack nss oss => eSigstack s nss oss

/-- What the server does for it. -/
def server : Call → Outcome S
  | .obreak nsiz => obreak s vmAllocate nsiz
  | .getgroups gidsetsize gidset => getgroups s gidsetsize gidset
  | .getrlimit which rlp => getrlimit s which rlp
  | .sigblock mask => sigblock s mask
  | .sigsetmask mask => sigsetmask s mask
  | .sigvec sig nsv osv tramp => sigvec s sig nsv osv tramp
  | .sigstack nss oss => sigstack s nss oss

end Calls

/-- Whether the caller is told to take signals. -/
def Outcome.interrupt {S : Type} (o : Outcome S) : Bool := o.looks && o.area.eChecksignals

/-- The outcome `e` of the emulator agrees with the outcome `v` of the server: the same result and
the same effects, no entry used outside a table, nothing changed by a call that fails, and every
thread woken or told that the server wakes because signals may have become deliverable. -/
structure Agrees {S : Type} (s : State S) (e v : Outcome S) : Prop where
  error : e.error = v.error
  rval : e.rval = v.rval
  mem : e.mem = v.mem
  area : e.area = v.area
  space : e.space = v.space
  inside : e.outside = false
  unchanged : e.error ≠ 0 → e.area = s.area
  woken : ∀ t ∈ v.woken, t ∈ e.woken
  told : v.looks → v.area.Deliverable → e.interrupt

/-- The memory once the vector in force is stored where `osv` points. -/
def State.vecStored {S : Type} (s : State S) {sig : Word} (h : Settable sig) (osv : Word) : Mem :=
  if osv ≠ 0 then (s.area.oldVec h.index).put s.mem osv else s.mem

/-- The memory once the signal stack in force is stored where `oss` points. -/
def State.stackStored {S : Type} (s : State S) (oss : Word) : Mem :=
  if oss ≠ 0 then s.area.sigstack.put s.mem oss else s.mem

/-- Two vectors that set a signal in the same way. -/
structure Sigvec.Alike (v w : Sigvec) : Prop where
  handler : v.handler = w.handler
  mask : v.mask &&& ~~~cantmask = w.mask &&& ~~~cantmask
  onstack : v.flags &&& svOnstack ≠ 0 ↔ w.flags &&& svOnstack ≠ 0
  interrupt : v.flags &&& svInterrupt ≠ 0 ↔ w.flags &&& svInterrupt ≠ 0

/-- The calls that both sides do alike: a count and an index are not negative, the new value does
not lie where the old one is stored in a way that matters, a vector that is refused comes without
one to be stored over another, and nobody sleeps on a channel that only the server wakes. -/
def Fits {S : Type} (s : State S) : Call → Prop
  | .obreak _ => True
  | .getgroups gidsetsize _ => 0 ≤ gidsetsize.toInt
  | .getrlimit which _ => 0 ≤ which.toInt
  | .sigblock _ => True
  | .sigsetmask _ => s.sleepers = []
  | .sigvec sig nsv osv _ => ∀ h : Settable sig, nsv ≠ 0 →
    let vec := Sigvec.get s.mem nsv
    if sig.toInt = sigcont ∧ vec.handler = sigIgn then s.vecStored h osv = s.mem
    else (Sigvec.get (s.vecStored h osv) nsv).Alike vec ∧ (vec.handler ≠ sigIgn → s.sleepers = [])
  | .sigstack nss oss => nss ≠ 0 → Sigstack.get (s.stackStored oss) nss = Sigstack.get s.mem nss

theorem Area.deliverable_iff (a : Area) : a.Deliverable ↔ a.eChecksignals = true := by
  have hbits : a.sigbits = a.sig &&& ~~~(a.sigmask |||
      (if a.flag &&& strc ≠ 0 then 0 else a.sigignore) |||
      if a.flag &&& srmt ≠ 0 then stopsigmask else 0) := by
    have hzero : ~~~(0 : Word) = BitVec.allOnes 32 := rfl
    unfold sigbits
    by_cases hc : a.flag &&& strc = 0 <;> by_cases hm : a.flag &&& srmt = 0 <;>
      simp only [hc, hm, ne_eq, not_true_eq_false, not_false_eq_true, if_true, if_false,
        BitVec.not_or, hzero, BitVec.and_allOnes, BitVec.and_assoc]
  rw [Deliverable, hbits, eChecksignals, decide_eq_true_eq]

section Agreement
variable {S : Type} {s : State S}

theorem agrees_returns (error : ℕ) : Agrees s (s.returns error) (s.returns error) where
  error := rfl
  rval := rfl
  mem := rfl
  area := rfl
  space := rfl
  inside := rfl
  unchanged _ := rfl
  woken _ h := h
  told h := by cases h

theorem agrees_looks {e v : Outcome S} (he : e = { v with looks := true }) (herror : v.error = 0)
    (hinside : v.outside = false) : Agrees s e v := by
  subst he
  exact
    { error := rfl
      rval := rfl
      mem := rfl
      area := rfl
      space := rfl
      inside := hinside
      unchanged := fun h => absurd herror h
      woken := fun _ h => h
      told := fun _ h => by
        rw [Outcome.interrupt, Bool.true_and]
        exact v.area.deliverable_iff.1 h }

theorem eObreak_agrees [Vm.PageSize] (vmAllocate : S → Word → Word → Option S) (nsiz : Word) :
    Agrees s (eObreak s vmAllocate nsiz) (obreak s vmAllocate nsiz) := by
  unfold eObreak obreak
  dsimp only
  split
  · exact agrees_returns eNomem
  · split
    · split
      · exact agrees_returns 0
      · exact agrees_looks rfl rfl rfl
    · exact agrees_looks rfl rfl rfl

theorem copyout_groups (groups : Fin ngroups → BitVec 16) (m : Mem) (p n : ℕ) (h : n ≤ ngroups) :
    copyout m p (((List.ofFn groups).take n).map (BitVec.zeroExtend 32)) =
      storeGroups groups m p n h := by
  induction n with
  | zero => rfl
  | succ n ih =>
    have hlen : n < (List.ofFn groups).length := by rw [List.length_ofFn]; omega
    rw [List.take_succ_eq_append_getElem hlen, List.map_append, List.map_singleton, copyout_append,
      ih (Nat.le_of_succ_le h), storeGroups, List.length_map, List.length_take_of_le hlen.le,
      List.getElem_ofFn]

theorem toInt_lt_iff {w : Word} (h : 0 ≤ w.toInt) (k : ℕ) : w.toInt < k ↔ w.toNat < k := by
  have hint := BitVec.toInt_eq_toNat_cond w
  have hlt := w.isLt
  split at hint <;> omega

theorem le_toNat_of_neg {w : Word} (h : w.toInt < 0) {k : ℕ} (hk : k ≤ 2 ^ 31) : k ≤ w.toNat := by
  have hint := BitVec.toInt_eq_toNat_cond w
  split at hint <;> omega

theorem eGetgroups_agrees_iff (gidsetsize gidset : Word) :
    Agrees s (eGetgroups s gidsetsize gidset) (getgroups s gidsetsize gidset) ↔
      0 ≤ gidsetsize.toInt := by
  have hsize : s.area.size ≤ 16 := s.area.size_le
  rw [eGetgroups, getgroups]
  constructor
  · intro h
    by_contra hneg
    have hle := le_toNat_of_neg (not_le.1 hneg) (k := s.area.size) (by omega)
    rw [if_pos (show gidsetsize.toInt < s.area.size by omega), if_neg (not_lt.2 hle)] at h
    cases h.error
  · intro hpos
    dsimp only
    simp only [toInt_lt_iff hpos]
    split
    · exact agrees_returns eInval
    · refine agrees_looks ?_ rfl rfl
      rw [copyout_groups s.area.groups _ _ _ s.area.size_le]

theorem eGetrlimit_agrees_iff (which rlp : Word) :
    Agrees s (eGetrlimit s which rlp) (getrlimit s which rlp) ↔ 0 ≤ which.toInt := by
  rw [eGetrlimit, getrlimit]
  constructor
  · intro h
    by_contra hneg
    have hle : rlimNlimits ≤ which.toNat := le_toNat_of_neg (not_le.1 hneg) (by decide)
    rw [if_neg (by omega), dif_neg (not_lt.2 hle), dif_neg (not_lt.2 hle)] at h
    cases h.error
  · intro hpos
    by_cases hc : which.toNat < rlimNlimits
    · rw [dif_pos hc, dif_pos hc, if_neg (not_le.2 ((toInt_lt_iff hpos _).2 hc))]
      exact agrees_looks rfl rfl rfl
    · rw [dif_neg hc, dif_neg hc, if_pos (not_lt.1 (mt (toInt_lt_iff hpos _).1 hc))]
      exact agrees_returns eInval

theorem eSigblock_agrees (mask : Word) : Agrees s (eSigblock s mask) (sigblock s mask) :=
  agrees_looks rfl rfl rfl

theorem agrees_woken {e v : Outcome S} (he : e = { v with woken := [], looks := true })
    (herror : v.error = 0) (hinside : v.outside = false) :
    Agrees s e v ↔ v.woken = [] := by
  subst he
  refine ⟨fun h => eq_nil_iff_forall_not_mem.2 fun t ht => not_mem_nil (h.woken t ht),
    fun h => agrees_looks ?_ herror hinside⟩
  cases v
  cases h
  rfl

theorem eSigsetmask_agrees_iff (mask : Word) :
    Agrees s (eSigsetmask s mask) (sigsetmask s mask) ↔ s.sleepers = [] :=
  agrees_woken rfl rfl rfl

theorem eSigstack_agrees_iff (nss oss : Word) :
    Agrees s (eSigstack s nss oss) (sigstack s nss oss) ↔
      (nss ≠ 0 → Sigstack.get (s.stackStored oss) nss = Sigstack.get s.mem nss) := by
  constructor
  · intro h hnss
    have harea := congrArg Area.sigstack h.area
    rw [eSigstack, sigstack] at harea
    dsimp only at harea
    rwa [if_pos hnss, if_pos hnss] at harea
  · intro h
    refine agrees_looks ?_ rfl rfl
    rw [eSigstack, sigstack]
    by_cases hnss : nss = 0
    · simp only [hnss, ne_eq, not_true_eq_false, if_false]
    · have hget := h hnss
      rw [State.stackStored] at hget
      simp only [ne_eq, hnss, not_false_eq_true, if_true, hget]

/-! A signal's vector. -/

theorem sigmask_ne_zero : ∀ sig : Fin (nsig + 1), sigmask sig ≠ 0 := by decide

theorem set_or_clear_inj {w bit : Word} (hbit : bit ≠ 0) {p q : Prop} [Decidable p] [Decidable q]
    (h : (if p then w ||| bit else w &&& ~~~bit) = if q then w ||| bit else w &&& ~~~bit) :
    p ↔ q := by
  have hne : w ||| bit ≠ w &&& ~~~bit := by
    intro heq
    refine hbit (BitVec.eq_of_getLsbD_eq fun i hi => ?_)
    have hi' := congrArg (BitVec.getLsbD · i) heq
    simp only [BitVec.getLsbD_or, BitVec.getLsbD_and, BitVec.getLsbD_not, hi] at hi'
    refine Eq.trans ?_ BitVec.getLsbD_zero.symm
    revert hi'
    cases w.getLsbD i <;> cases bit.getLsbD i <;> simp
  constructor
  · intro hp
    by_contra hq
    rw [if_pos hp, if_neg hq] at h
    exact hne h
  · intro hq
    by_contra hp
    rw [if_neg hp, if_pos hq] at h
    exact hne h.symm

namespace Area

theorem setsigvec_signal (a : Area) (i : Fin (nsig + 1)) (v : Sigvec) :
    (a.setsigvec i v).signal = update a.signal i v.handler := by
  by_cases h : v.handler = sigIgn <;> simp only [setsigvec, h, if_true, if_false]

theorem setsigvec_usigmask (a : Area) (i : Fin (nsig + 1)) (v : Sigvec) :
    (a.setsigvec i v).usigmask = update a.usigmask i (v.mask &&& ~~~cantmask) := by
  by_cases h : v.handler = sigIgn <;> simp only [setsigvec, h, if_true, if_false]

theorem setsigvec_sigintr (a : Area) (i : Fin (nsig + 1)) (v : Sigvec) :
    (a.setsigvec i v).sigintr = if v.flags &&& svInterrupt ≠ 0
      then a.sigintr ||| MappedCalls.sigmask i else a.sigintr &&& ~~~MappedCalls.sigmask i := by
  by_cases h : v.handler = sigIgn <;> simp only [setsigvec, h, if_true, if_false]

theorem setsigvec_sigonstack (a : Area) (i : Fin (nsig + 1)) (v : Sigvec) :
    (a.setsigvec i v).sigonstack = if v.flags &&& svOnstack ≠ 0
      then a.sigonstack ||| MappedCalls.sigmask i
      else a.sigonstack &&& ~~~MappedCalls.sigmask i := by
  by_cases h : v.handler = sigIgn <;> simp only [setsigvec, h, if_true, if_false]

theorem setsigvec_eq_iff {sig : Word} (h : Settable sig) (a : Area) (v w : Sigvec) :
    a.setsigvec h.index v = a.setsigvec h.index w ↔ v.Alike w := by
  have hbit := sigmask_ne_zero h.index
  constructor
  · intro heq
    have hsignal := congrFun (congrArg signal heq) h.index
    have husigmask := congrFun (congrArg usigmask heq) h.index
    have hintr := congrArg sigintr heq
    have honstack := congrArg sigonstack heq
    rw [setsigvec_signal, setsigvec_signal, update_self, update_self] at hsignal
    rw [setsigvec_usigmask, setsigvec_usigmask, update_self, update_self] at husigmask
    rw [setsigvec_sigintr, setsigvec_sigintr] at hintr
    rw [setsigvec_sigonstack, setsigvec_sigonstack] at honstack
    exact ⟨hsignal, husigmask, set_or_clear_inj hbit honstack, set_or_clear_inj hbit hintr⟩
  · intro halike
    unfold setsigvec
    simp only [halike.handler, halike.mask, halike.interrupt, halike.onstack]

end Area

section Vectors
variable {sig nsv osv tramp : Word} (h : Settable sig) (hnsv : nsv ≠ 0)
include h hnsv

theorem eSigvec_refused
    (href : sig.toInt = sigcont ∧ (Sigvec.get (s.vecStored h osv) nsv).handler = sigIgn) :
    eSigvec s sig nsv osv tramp = { s.returns eInval with mem := s.vecStored h osv } := by
  rw [eSigvec, dif_pos h]
  exact (if_pos hnsv).trans (if_pos href)

theorem eSigvec_taken
    (href : ¬(sig.toInt = sigcont ∧ (Sigvec.get (s.vecStored h osv) nsv).handler = sigIgn)) :
    eSigvec s sig nsv osv tramp =
      { s.returns 0 with
        mem := s.vecStored h osv
        area := { s.area with sigtramp := tramp }.setsigvec h.index
          (Sigvec.get (s.vecStored h osv) nsv)
        looks := true } := by
  rw [eSigvec, dif_pos h]
  exact (if_pos hnsv).trans (if_neg href)

theorem sigvec_refused (href : sig.toInt = sigcont ∧ (Sigvec.get s.mem nsv).handler = sigIgn) :
    sigvec s sig nsv osv tramp = s.returns eInval := by
  rw [sigvec, dif_pos h]
  exact (if_pos hnsv).trans (if_pos href)

theorem sigvec_taken
    (href : ¬(sig.toInt = sigcont ∧ (Sigvec.get s.mem nsv).handler = sigIgn)) :
    sigvec s sig nsv osv tramp =
      { s.returns 0 with
        mem := s.vecStored h osv
        area := { s.area with sigtramp := tramp }.setsigvec h.index (Sigvec.get s.mem nsv)
        woken := if (Sigvec.get s.mem nsv).handler = sigIgn then [] else s.sleepers
        looks := (Sigvec.get s.mem nsv).handler ≠ sigIgn } := by
  rw [sigvec, dif_pos h]
  exact (if_pos hnsv).trans (if_neg href)

/-- A vector that the server refuses: `*osv` must have been there already. -/
theorem eSigvec_agrees_refused
    (href : sig.toInt = sigcont ∧ (Sigvec.get s.mem nsv).handler = sigIgn) :
    Agrees s (eSigvec s sig nsv osv tramp) (sigvec s sig nsv osv tramp) ↔
      s.vecStored h osv = s.mem := by
  rw [sigvec_refused h hnsv href]
  constructor
  · intro hagrees
    have hmem := hagrees.mem
    by_cases href' : sig.toInt = sigcont ∧ (Sigvec.get (s.vecStored h osv) nsv).handler = sigIgn
    · rwa [eSigvec_refused h hnsv href'] at hmem
    · rwa [eSigvec_taken h hnsv href'] at hmem
  · intro hmem
    rw [eSigvec_refused h hnsv (by rwa [hmem]), hmem]
    exact agrees_returns eInval

theorem eSigvec_agrees_taken
    (href : ¬(sig.toInt = sigcont ∧ (Sigvec.get s.mem nsv).handler = sigIgn)) :
    Agrees s (eSigvec s sig nsv osv tramp) (sigvec s sig nsv osv tramp) ↔
      (Sigvec.get (s.vecStored h osv) nsv).Alike (Sigvec.get s.mem nsv) ∧
        ((Sigvec.get s.mem nsv).handler ≠ sigIgn → s.sleepers = []) := by
  rw [sigvec_taken h hnsv href]
  constructor
  · intro hagrees
    by_cases href' : sig.toInt = sigcont ∧ (Sigvec.get (s.vecStored h osv) nsv).handler = sigIgn
    · rw [eSigvec_refused h hnsv href'] at hagrees
      cases hagrees.error
    · rw [eSigvec_taken h hnsv href'] at hagrees
      refine ⟨(Area.setsigvec_eq_iff h _ _ _).1 hagrees.area, fun hign => ?_⟩
      have hwoken := hagrees.woken
      dsimp only at hwoken
      rw [if_neg hign] at hwoken
      exact eq_nil_iff_forall_not_mem.2 fun t ht => not_mem_nil (hwoken t ht)
  · rintro ⟨halike, hsleepers⟩
    rw [eSigvec_taken h hnsv (by rwa [halike.handler])]
    refine agrees_looks ?_ rfl rfl
    rw [(Area.setsigvec_eq_iff h _ _ _).2 halike]
    by_cases hign : (Sigvec.get s.mem nsv).handler = sigIgn
    · rw [if_pos hign]
      rfl
    · rw [if_neg hign, hsleepers hign]
      rfl

end Vectors

theorem eSigvec_agrees_iff (sig nsv osv tramp : Word) :
    Agrees s (eSigvec s sig nsv osv tramp) (sigvec s sig nsv osv tramp) ↔
      Fits s (.sigvec sig nsv osv tramp) := by
  unfold Fits
  by_cases h : Settable sig
  · by_cases hnsv : nsv = 0
    · refine iff_of_true ?_ fun _ hne => absurd hnsv hne
      rw [eSigvec, sigvec, dif_pos h, dif_pos h]
      dsimp only
      rw [if_neg (not_not.2 hnsv), if_neg (not_not.2 hnsv)]
      exact agrees_looks rfl rfl rfl
    · by_cases href : sig.toInt = sigcont ∧ (Sigvec.get s.mem nsv).handler = sigIgn
      · simp only [eSigvec_agrees_refused h hnsv href, ne_eq, hnsv, not_false_eq_true, href,
          and_self, if_true, h, forall_true_left]
      · simp only [eSigvec_agrees_taken h hnsv href, ne_eq, hnsv, not_false_eq_true, href,
          if_false, h, forall_true_left]
  · refine iff_of_true ?_ fun hs => absurd hs h
    rw [eSigvec, sigvec, dif_neg h, dif_neg h]
    exact agrees_returns eInval

end Agreement

/-- The emulator and the server agree on exactly the calls that fit. -/
theorem emulator_agrees_iff [Vm.PageSize] {S : Type} (vmAllocate : S → Word → Word → Option S)
    (s : State S) (c : Call) :
    Agrees s (emulator vmAllocate s c) (server vmAllocate s c) ↔ Fits s c := by
  cases c with
  | obreak nsiz => exact iff_of_true (eObreak_agrees vmAllocate nsiz) trivial
  | getgroups gidsetsize gidset => exact eGetgroups_agrees_iff gidsetsize gidset
  | getrlimit which rlp => exact eGetrlimit_agrees_iff which rlp
  | sigblock mask => exact iff_of_true (eSigblock_agrees mask) trivial
  | sigsetmask mask => exact eSigsetmask_agrees_iff mask
  | sigvec sig nsv osv tramp => exact eSigvec_agrees_iff sig nsv osv tramp
  | sigstack nss oss => exact eSigstack_agrees_iff nss oss

/-- A user area with no limits, groups or signals, and an empty memory. -/
def blank : State Unit where
  area :=
    { rlimit := fun _ => ⟨0, 0⟩
      besideRlimit := fun _ => ⟨0, 0⟩
      dataStart := 0
      groups := fun _ => nogroup
      flag := 0
      cursig := 0
      dsize := 0
      sigstack := ⟨0, 0⟩
      signal := fun _ => sigDfl
      usigmask := fun _ => 0
      sigonstack := 0
      sigintr := 0
      sigtramp := 0
      sigmask := 0
      sig := 0
      sigignore := 0
      sigcatch := 0 }
  mem := fun _ => 0
  space := ()
  d1 := 0
  sleepers := []

/-- For the limit number -1 the emulator copies what lies before the table. -/
theorem getrlimit_negative_not_agrees :
    ¬Agrees blank (@emulator Vm.pages4096 Unit (fun _ _ _ => none) blank (.getrlimit (-1) 0x1000))
      (@server Vm.pages4096 Unit (fun _ _ _ => none) blank (.getrlimit (-1) 0x1000)) :=
  fun h => absurd h.inside (by decide)

/-! What fits. -/

section Fits
variable {S : Type} {s : State S}

theorem Sigvec.Alike.refl (v : Sigvec) : v.Alike v := ⟨rfl, rfl, Iff.rfl, Iff.rfl⟩

end Fits

end MachKernel.Ux.MappedCalls
