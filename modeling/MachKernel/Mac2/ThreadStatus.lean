import MachKernel.Lib.Bytes
import MachKernel.Lib.Runs

/-! The saved user state of a stopped thread, and the calls that read and write it. -/

namespace MachKernel.Mac2.ThreadStatus
open Bytes

/-! Where the parts of a pcb lie, in bytes. -/

abbrev userOff : ℕ := 0
abbrev regsSize : ℕ := 64
abbrev fpStateOff : ℕ := 68
abbrev fpRegsSize : ℕ := 108
abbrev fpFrameOff : ℕ := 176
abbrev fpfBusySize : ℕ := 0xd4
abbrev kernelOff : ℕ := 392
abbrev returnDataOff : ℕ := 450
abbrev frameMax : ℕ := 92

theorem layout : userOff = 0 ∧ regsSize = 64 ∧ fpStateOff = 68 ∧ fpRegsSize = 108 ∧
    fpFrameOff = 176 ∧ fpfBusySize = 212 ∧ kernelOff = 392 ∧ returnDataOff = 450 ∧
    frameMax = 92 := by decide

/-- The size of an exception frame, by its format. -/
def frameSize (fmt : BitVec 4) : Option ℕ :=
  match fmt with
  | 0x0 => some 8
  | 0x2 => some 12
  | 0x9 => some 20
  | 0xA => some 32
  | 0xB => some 92
  | _ => none

def srTrace : BitVec 16 := 0x8000
def srT0 : BitVec 16 := 0x4000
def srSupr : BitVec 16 := 0x2000
def srMaster : BitVec 16 := 0x1000
def srIpl : BitVec 16 := 0x0700

/-- The status register that a user may give itself. -/
def userSr (sr : BitVec 16) : BitVec 16 := sr &&& ~~~(srT0 ||| srSupr ||| srMaster ||| srIpl)

/-- What `pcb_frame` points to: the frame in the pcb, or the one that a trap pushed. -/
inductive Place
  | inPcb
  | onStack
  deriving DecidableEq, Repr

structure Pcb where
  -- the pcb from `pcb_user` on, less the fields below
  mem : Mem
  -- the kernel stack from the frame of the last trap on
  stack : Mem
  frame : Place
  returnSize : ℕ
  retFrame : Bool
  traceUser : Bool
  fpRestore : Bool

open Pcb

/-- The format of the frame at `off`. -/
def fmtAt (m : Mem) (off : ℕ) : BitVec 4 := (m (off + 6)).extractLsb' 4 4

/-- The format of the frame that `pcb_frame` points to. -/
def Pcb.fmt (pcb : Pcb) : BitVec 4 :=
  match pcb.frame with
  | .inPcb => fmtAt pcb.mem returnDataOff
  | .onStack => fmtAt pcb.stack 0

inductive KernReturn
  | success
  | invalidArgument
  deriving DecidableEq, Repr

abbrev threadStateRegs : ℕ := 1
abbrev threadStateFpregs : ℕ := 2
abbrev threadStateFrame : ℕ := 3
abbrev threadStateFpframe : ℕ := 4

/-- The size that a floating-point frame says it has. -/
def fpfSize (m : Mem) (off : ℕ) : ℕ := (m (off + 1)).toNat

def threadSetstatus (pcb : Pcb) (flavor : ℕ) (tstate : Mem) (count : ℕ) : KernReturn × Pcb :=
  if flavor = threadStateRegs then
    if count < regsSize / 4 then (.invalidArgument, pcb)
    else (.success, { pcb with mem := copy tstate 0 pcb.mem userOff regsSize })
  else if flavor = threadStateFpregs then
    if count < fpRegsSize / 4 then (.invalidArgument, pcb)
    else
      let mem := copy tstate 0 pcb.mem fpStateOff fpRegsSize
      (.success, { pcb with mem := copy (fun _ => 0) 0 mem fpFrameOff 4, fpRestore := true })
  else if flavor = threadStateFrame then
    match frameSize (fmtAt tstate 0) with
    | none => (.invalidArgument, pcb)
    | some size =>
      if count < size / 4 then (.invalidArgument, pcb)
      else
        let mem := copy tstate 0 pcb.mem returnDataOff size
        let sr := userSr (get16 mem returnDataOff)
        (.success, { pcb with
          mem := put16 mem returnDataOff sr, returnSize := size, frame := .inPcb, retFrame := true,
          traceUser := sr &&& srTrace ≠ 0 })
  else if flavor = threadStateFpframe then
    if count < (4 + fpfSize tstate 0) / 4 then (.invalidArgument, pcb)
    else
      let mem := copy tstate 0 pcb.mem fpFrameOff 4
      (.success, { pcb with
        mem := if fpfSize tstate 0 > 0 then
            copy tstate 4 mem (fpFrameOff + 4) (fpfSize tstate 0)
          else mem,
        fpRestore := false })
  else (.invalidArgument, pcb)

/-- What `thread_getstatus` returns: the state array and its count as it leaves them. -/
structure Got where
  result : KernReturn
  tstate : Mem
  count : ℕ

def threadGetstatus (pcb : Pcb) (flavor : ℕ) (tstate : Mem) (count : ℕ) : Got :=
  if flavor = threadStateRegs then
    if count < regsSize / 4 then ⟨.invalidArgument, tstate, count⟩
    else ⟨.success, copy pcb.mem userOff tstate 0 regsSize, regsSize / 4⟩
  else if flavor = threadStateFpregs then
    if count < fpRegsSize / 4 then ⟨.invalidArgument, tstate, count⟩
    else ⟨.success, copy pcb.mem fpStateOff tstate 0 fpRegsSize, fpRegsSize / 4⟩
  else if flavor = threadStateFrame then
    match frameSize pcb.fmt with
    | none => ⟨.invalidArgument, tstate, count⟩
    | some size =>
      if count < size / 4 then ⟨.invalidArgument, tstate, count⟩
      -- from the pcb, wherever the frame is whose format was looked at
      else ⟨.success, copy pcb.mem returnDataOff tstate 0 size, size / 4⟩
  else if flavor = threadStateFpframe then
    if count < (4 + fpfSize pcb.mem fpFrameOff) / 4 then ⟨.invalidArgument, tstate, count⟩
    else
      let tstate := copy pcb.mem fpFrameOff tstate 0 4
      let size := fpfSize tstate 0
      ⟨.success, if size > 0 then copy pcb.mem (fpFrameOff + 4) tstate 4 size else tstate,
        (4 + size) / 4⟩
  else ⟨.invalidArgument, tstate, count⟩

/-- The kernel stack is taken away; its frame goes into the pcb. `none` is a panic. -/
def stackDetach (pcb : Pcb) : Option Pcb :=
  if pcb.retFrame then some pcb
  else
    match frameSize pcb.fmt with
    | none => none
    | some size =>
      let mem := match pcb.frame with
        | .inPcb => copy pcb.mem returnDataOff pcb.mem returnDataOff size
        | .onStack => copy pcb.stack 0 pcb.mem returnDataOff size
      some { pcb with mem := mem, returnSize := size, frame := .inPcb, retFrame := true }

/-! ## What a thread's saved state is -/

/-- The frame with which the thread goes back to user mode, as `rte_user` takes it. -/
def Pcb.resumeFrame (pcb : Pcb) : List Byte :=
  if pcb.retFrame then read pcb.mem returnDataOff pcb.returnSize
  else read pcb.stack 0 ((frameSize (fmtAt pcb.stack 0)).getD 0)

def Pcb.fpFrame (pcb : Pcb) : List Byte :=
  read pcb.mem fpFrameOff (4 + fpfSize pcb.mem fpFrameOff)

/-- The bytes of a pcb that belong to one of the flavors. -/
def Owned (i : ℕ) : Prop :=
  i < regsSize ∨ fpStateOff ≤ i ∧ i < kernelOff ∨ returnDataOff ≤ i ∧ i < returnDataOff + frameMax

instance (i : ℕ) : Decidable (Owned i) := inferInstanceAs (Decidable (_ ∨ _ ∨ _))

/-- The user state of a thread, flavor by flavor, and the rest of its pcb. -/
structure Status where
  regs : List Byte
  fpregs : List Byte
  frame : List Byte
  fpframe : List Byte
  trace : Bool
  restore : Bool
  others : Mem

def Pcb.status (pcb : Pcb) : Status where
  regs := read pcb.mem userOff regsSize
  fpregs := read pcb.mem fpStateOff fpRegsSize
  frame := pcb.resumeFrame
  fpframe := pcb.fpFrame
  trace := pcb.traceUser
  restore := pcb.fpRestore
  others := fun i => if Owned i then 0 else pcb.mem i

/-- A frame with the status register that a user may give itself. -/
def userFrame : List Byte → List Byte
  | hi :: lo :: rest =>
    (userSr (hi ++ lo)).extractLsb' 8 8 :: (userSr (hi ++ lo)).extractLsb' 0 8 :: rest
  | frame => frame

def traced : List Byte → Bool
  | hi :: lo :: _ => (hi ++ lo : BitVec 16) &&& srTrace ≠ 0
  | _ => false

/-- A frame that is resumed in user mode and at priority 0. -/
def UserMode : List Byte → Prop
  | hi :: lo :: _ => (hi ++ lo : BitVec 16) &&& (srSupr ||| srIpl) = 0
  | _ => False

/-- Setting the state of a flavor from the bytes that the caller gives. -/
def Status.set (a : Status) (flavor : ℕ) (arg : List Byte) : KernReturn × Status :=
  if flavor = threadStateRegs then
    if arg.length < regsSize then (.invalidArgument, a)
    else (.success, { a with regs := arg.take regsSize })
  else if flavor = threadStateFpregs then
    if arg.length < fpRegsSize then (.invalidArgument, a)
    else (.success, { a with
      fpregs := arg.take fpRegsSize, fpframe := [0, 0, 0, 0], restore := true })
  else if flavor = threadStateFrame then
    match arg[6]?.bind fun b => frameSize (b.extractLsb' 4 4) with
    | none => (.invalidArgument, a)
    | some size =>
      if arg.length < size then (.invalidArgument, a)
      else (.success, { a with
        frame := userFrame (arg.take size), trace := traced (userFrame (arg.take size)) })
  else if flavor = threadStateFpframe then
    match arg[1]? with
    | none => (.invalidArgument, a)
    | some size =>
      if arg.length < 4 + size.toNat then (.invalidArgument, a)
      else (.success, { a with fpframe := arg.take (4 + size.toNat), restore := false })
  else (.invalidArgument, a)

theorem Status.set_others (a : Status) (flavor : ℕ) (arg : List Byte) :
    (a.set flavor arg).2.others = a.others := by
  unfold Status.set
  (repeat' split) <;> rfl

/-- The state of a flavor. -/
def Status.get (a : Status) (flavor : ℕ) : Option (List Byte) :=
  if flavor = threadStateRegs then some a.regs
  else if flavor = threadStateFpregs then some a.fpregs
  else if flavor = threadStateFrame then some a.frame
  else if flavor = threadStateFpframe then some a.fpframe
  else none

/-! ## Calls on a stopped thread -/

inductive Event
  | set (flavor : ℕ) (tstate : Mem) (count : ℕ)
  | get (flavor : ℕ) (tstate : Mem) (count : ℕ)
  | detach

def step (pcb : Pcb) : Event → Option (Got × Pcb)
  | .set flavor tstate count =>
    some (⟨(threadSetstatus pcb flavor tstate count).1, tstate, count⟩,
      (threadSetstatus pcb flavor tstate count).2)
  | .get flavor tstate count => some (threadGetstatus pcb flavor tstate count, pcb)
  | .detach => (stackDetach pcb).map fun pcb => (⟨.success, fun _ => 0, 0⟩, pcb)

/-- What a call that asks for `value` should return, and write of the caller's array. -/
def Gets (value : Option (List Byte)) (tstate : Mem) (count : ℕ) (got : Got) : Prop :=
  match value with
  | none => got = ⟨.invalidArgument, tstate, count⟩
  | some value =>
    if value.length ≤ 4 * count then
      got.result = .success ∧ read got.tstate 0 value.length = value ∧
        (∀ i, value.length ≤ i → got.tstate i = tstate i) ∧ 4 * got.count = value.length
    else got = ⟨.invalidArgument, tstate, count⟩

/-- What a call should do: it is the call on the user state, and the thread stays in user mode. -/
def spec (a : Status) (e : Event) (got : Got) (a' : Status) (pcb : Pcb) : Prop :=
  pcb.status = a' ∧ UserMode pcb.resumeFrame ∧ match e with
    | .set flavor tstate count => (got.result, a') = a.set flavor (read tstate 0 (4 * count))
    | .get flavor tstate count => a' = a ∧ Gets (a.get flavor) tstate count got
    | .detach => a' = a

/-- The calls that keep to a flavor's fields and see the frame where it is. -/
def Fits (pcb : Pcb) : Event → Prop
  | .set flavor tstate count => flavor = threadStateFpframe →
    (4 + fpfSize tstate 0) / 4 ≤ count → 4 ∣ fpfSize tstate 0 ∧ fpfSize tstate 0 ≤ fpfBusySize
  | .get flavor _ count => flavor = threadStateFrame →
    pcb.retFrame ∨ count < (frameSize pcb.fmt).getD 0 / 4
  | .detach => True

instance (pcb : Pcb) : DecidablePred (Fits pcb)
  | .set _ _ _ => inferInstanceAs (Decidable (_ → _ → _))
  | .get _ _ _ => inferInstanceAs (Decidable (_ → _))
  | .detach => isTrue trivial

/-- A thread that has stopped in the kernel, having come there from user mode. -/
structure Stopped (pcb : Pcb) : Prop where
  place : pcb.retFrame ↔ pcb.frame = .inPcb
  saved : pcb.retFrame → frameSize (fmtAt pcb.mem returnDataOff) = some pcb.returnSize
  trapped : ¬pcb.retFrame → ∃ size, frameSize (fmtAt pcb.stack 0) = some size
  user : UserMode pcb.resumeFrame
  fpSize : fpfSize pcb.mem fpFrameOff ≤ fpfBusySize ∧ 4 ∣ fpfSize pcb.mem fpFrameOff

theorem frameSize_some {fmt : BitVec 4} {size : ℕ} (h : frameSize fmt = some size) :
    8 ≤ size ∧ size ≤ frameMax ∧ 4 ∣ size := by
  unfold frameSize at h
  split at h <;> cases h <;> decide

section Frame

variable {pcb pcb' : Pcb}

theorem resumeFrame_congr (hret : pcb'.retFrame = pcb.retFrame)
    (hsize : pcb'.returnSize = pcb.returnSize) (hstack : pcb'.stack = pcb.stack)
    (hmem : ∀ i, returnDataOff ≤ i → i < returnDataOff + frameMax → pcb'.mem i = pcb.mem i)
    (hstopped : Stopped pcb) : pcb'.resumeFrame = pcb.resumeFrame := by
  simp only [resumeFrame, hret, hsize, hstack]
  split
  · rename_i h
    have := (frameSize_some (hstopped.saved h)).2.1
    exact read_eq_read_iff.2 fun i hi => hmem _ (by omega) (by omega)
  · rfl

theorem fpFrame_congr (hsize : fpfSize pcb.mem fpFrameOff ≤ fpfBusySize)
    (hmem : ∀ i, fpFrameOff ≤ i → i < kernelOff → pcb'.mem i = pcb.mem i) :
    fpfSize pcb'.mem fpFrameOff = fpfSize pcb.mem fpFrameOff ∧ pcb'.fpFrame = pcb.fpFrame := by
  have := layout
  have h : fpfSize pcb'.mem fpFrameOff = fpfSize pcb.mem fpFrameOff := by
    rw [fpfSize, fpfSize, hmem _ (by omega) (by omega)]
  refine ⟨h, ?_⟩
  simp only [fpFrame, h]
  exact read_eq_read_iff.2 fun i hi => hmem _ (by omega) (by omega)

theorem others_congr (hmem : ∀ i, ¬Owned i → pcb'.mem i = pcb.mem i) :
    pcb'.status.others = pcb.status.others := by
  funext i
  simp only [status]
  split
  · rfl
  · exact hmem i ‹_›

end Frame

/-! ## Setting a flavor -/

section Set

variable {pcb : Pcb} {tstate : Mem} {count : ℕ}

/-- What a flavor's call leaves of a stopped thread when it writes only to `[off, off + n)`. -/
theorem Stopped.congr {pcb' : Pcb} (h : Stopped pcb) (hret : pcb'.retFrame = pcb.retFrame)
    (hframe : pcb'.frame = pcb.frame) (hsize : pcb'.returnSize = pcb.returnSize)
    (hstack : pcb'.stack = pcb.stack)
    (hmem : ∀ i, returnDataOff ≤ i → i < returnDataOff + frameMax → pcb'.mem i = pcb.mem i)
    (hfp : fpfSize pcb'.mem fpFrameOff ≤ fpfBusySize ∧ 4 ∣ fpfSize pcb'.mem fpFrameOff) :
    Stopped pcb' := by
  have := layout
  have hfmt : fmtAt pcb'.mem returnDataOff = fmtAt pcb.mem returnDataOff := by
    rw [fmtAt, fmtAt, hmem _ (by omega) (by omega)]
  refine ⟨?_, ?_, ?_, ?_, hfp⟩
  · rw [hret, hframe]; exact h.place
  · rw [hret, hfmt, hsize]; exact h.saved
  · rw [hret, hstack]; exact h.trapped
  · rw [resumeFrame_congr hret hsize hstack hmem h]; exact h.user

theorem set_regs (h : Stopped pcb) (hc : ¬count < regsSize / 4) :
    Stopped { pcb with mem := copy tstate 0 pcb.mem userOff regsSize } ∧
      status { pcb with mem := copy tstate 0 pcb.mem userOff regsSize } =
        { pcb.status with regs := (read tstate 0 (4 * count)).take regsSize } := by
  have := layout
  have hmem : ∀ i, regsSize ≤ i →
      copy tstate 0 pcb.mem userOff regsSize i = pcb.mem i := fun i hi =>
    copy_outside (by omega)
  obtain ⟨hsize, hfp⟩ := @fpFrame_congr pcb
    { pcb with mem := copy tstate 0 pcb.mem userOff regsSize } h.fpSize.1
    fun i hi _ => hmem i (by omega)
  have hframe := @resumeFrame_congr pcb
    { pcb with mem := copy tstate 0 pcb.mem userOff regsSize } rfl rfl rfl
    (fun i hi _ => hmem i (by omega)) h
  have hothers := @others_congr pcb { pcb with mem := copy tstate 0 pcb.mem userOff regsSize }
    fun i hi => hmem i (by simp only [Owned] at hi; omega)
  refine ⟨h.congr rfl rfl rfl rfl (fun i hi _ => hmem i (by omega)) (hsize ▸ h.fpSize), ?_⟩
  rw [take_read _ _ (by omega)]
  simp only [status] at hothers ⊢
  rw [read_copy, read_copy_outside _ _ (by omega), hframe, hfp, hothers]

theorem set_fpregs (h : Stopped pcb) (hc : ¬count < fpRegsSize / 4) {mem : Mem}
    (hm : mem = copy (fun _ => 0) 0 (copy tstate 0 pcb.mem fpStateOff fpRegsSize) fpFrameOff 4) :
    Stopped { pcb with mem := mem, fpRestore := true } ∧
      status { pcb with mem := mem, fpRestore := true } = { pcb.status with
          fpregs := (read tstate 0 (4 * count)).take fpRegsSize, fpframe := [0, 0, 0, 0],
          restore := true } := by
  have := layout
  have hmem : ∀ i, i < fpStateOff ∨ fpFrameOff + 4 ≤ i → mem i = pcb.mem i := fun i hi => by
    rw [hm, copy_outside (by omega), copy_outside (by omega)]
  have hzero : read mem fpFrameOff 4 = [0, 0, 0, 0] := by
    rw [hm, read_copy]
    rfl
  have hsize : fpfSize mem fpFrameOff = 0 := by
    rw [fpfSize, hm, copy_inside _ _ _ _ (by omega)]
    rfl
  have hregs : read mem fpStateOff fpRegsSize = read tstate 0 fpRegsSize := by
    rw [hm, read_copy_outside _ _ (by omega), read_copy]
  have hframe := @resumeFrame_congr pcb { pcb with mem := mem, fpRestore := true } rfl rfl rfl
    (fun i hi _ => hmem i (by omega)) h
  have hothers := @others_congr pcb { pcb with mem := mem, fpRestore := true }
    fun i hi => hmem i (by simp only [Owned] at hi; omega)
  have huser : read mem userOff regsSize = read pcb.mem userOff regsSize :=
    read_eq_read_iff.2 fun i hi => hmem _ (by omega)
  refine ⟨h.congr rfl rfl rfl rfl (fun i hi _ => hmem i (by omega)) ⟨?_, ?_⟩, ?_⟩
  · rw [hsize]; omega
  · rw [hsize]; exact dvd_zero 4
  · rw [take_read _ _ (by omega)]
    simp only [status, fpFrame] at hothers ⊢
    rw [hregs, hsize, hzero, hframe, hothers, huser]

theorem set_fpframe (h : Stopped pcb) (hc : ¬count < (4 + fpfSize tstate 0) / 4)
    (hfits : 4 ∣ fpfSize tstate 0 ∧ fpfSize tstate 0 ≤ fpfBusySize) {mem : Mem}
    (hm : mem = if fpfSize tstate 0 > 0 then
      copy tstate 4 (copy tstate 0 pcb.mem fpFrameOff 4) (fpFrameOff + 4) (fpfSize tstate 0)
      else copy tstate 0 pcb.mem fpFrameOff 4) :
    Stopped { pcb with mem := mem, fpRestore := false } ∧
      status { pcb with mem := mem, fpRestore := false } = { pcb.status with
          fpframe := (read tstate 0 (4 * count)).take (4 + fpfSize tstate 0),
          restore := false } := by
  have := layout
  have hmem : ∀ i, i < fpFrameOff ∨ kernelOff ≤ i → mem i = pcb.mem i := fun i hi => by
    rw [hm]
    split <;> (repeat rw [copy_outside (by omega)])
  have hfp : read mem fpFrameOff (4 + fpfSize tstate 0) = read tstate 0 (4 + fpfSize tstate 0) := by
    rw [hm]
    split
    · exact read_copy_copy tstate pcb.mem 0 fpFrameOff 4 _
    · obtain hz : fpfSize tstate 0 = 0 := by omega
      rw [hz, read_copy]
  have hsize : fpfSize mem fpFrameOff = fpfSize tstate 0 := by
    rw [fpfSize, read_eq_read_iff.1 hfp 1 (by omega), fpfSize]
  have hframe := @resumeFrame_congr pcb { pcb with mem := mem, fpRestore := false } rfl rfl rfl
    (fun i hi _ => hmem i (by omega)) h
  have hothers := @others_congr pcb { pcb with mem := mem, fpRestore := false }
    fun i hi => hmem i (by simp only [Owned] at hi; omega)
  have huser : read mem userOff regsSize = read pcb.mem userOff regsSize :=
    read_eq_read_iff.2 fun i hi => hmem _ (by omega)
  have hregs : read mem fpStateOff fpRegsSize = read pcb.mem fpStateOff fpRegsSize :=
    read_eq_read_iff.2 fun i hi => hmem _ (by omega)
  refine ⟨h.congr rfl rfl rfl rfl (fun i hi _ => hmem i (by omega)) ?_, ?_⟩
  · rw [hsize]; exact ⟨hfits.2, hfits.1⟩
  · rw [take_read _ _ (by omega)]
    simp only [status, fpFrame] at hothers ⊢
    rw [hsize, hfp, hframe, hothers, huser, hregs]

theorem userFrame_read (m : Mem) (off : ℕ) {n : ℕ} (h : 2 ≤ n) :
    userFrame (read m off n) = read (put16 m off (userSr (get16 m off))) off n := by
  obtain ⟨k, rfl⟩ := Nat.exists_eq_add_of_le' h
  rw [read_put16, read_succ, read_succ]
  rfl

theorem traced_read (m : Mem) (off : ℕ) (sr : BitVec 16) {n : ℕ} (h : 2 ≤ n) :
    traced (read (put16 m off sr) off n) = decide (sr &&& srTrace ≠ 0) := by
  obtain ⟨k, rfl⟩ := Nat.exists_eq_add_of_le' h
  rw [read_put16, traced, append_halves]

theorem userMode_read (m : Mem) (off : ℕ) (sr : BitVec 16) {n : ℕ} (h : 2 ≤ n) :
    UserMode (read (put16 m off (userSr sr)) off n) := by
  obtain ⟨k, rfl⟩ := Nat.exists_eq_add_of_le' h
  rw [read_put16, UserMode, append_halves, userSr, BitVec.and_assoc]
  have hmask : ~~~(srT0 ||| srSupr ||| srMaster ||| srIpl) &&& (srSupr ||| srIpl) = 0 := by decide
  rw [hmask]
  exact BitVec.and_zero

theorem set_frame (h : Stopped pcb) {size : ℕ}
    (hf : frameSize (fmtAt tstate 0) = some size) (hc : ¬count < size / 4) {mem : Mem}
    (hm : mem = copy tstate 0 pcb.mem returnDataOff size) {pcb' : Pcb}
    (hpcb : pcb' = { pcb with
      mem := put16 mem returnDataOff (userSr (get16 mem returnDataOff)), returnSize := size,
      frame := .inPcb, retFrame := true,
      traceUser := userSr (get16 mem returnDataOff) &&& srTrace ≠ 0 }) :
    Stopped pcb' ∧ pcb'.status = { pcb.status with
      frame := userFrame ((read tstate 0 (4 * count)).take size),
      trace := traced (userFrame ((read tstate 0 (4 * count)).take size)) } := by
  have := layout
  obtain ⟨hlo, hhi, hdvd⟩ := frameSize_some hf
  have hmem : ∀ i, i < returnDataOff ∨ returnDataOff + frameMax ≤ i →
      pcb'.mem i = pcb.mem i := fun i hi => by
    rw [hpcb, hm]
    simp only
    rw [put16_outside (by omega), copy_outside (by omega)]
  have hframe : pcb'.resumeFrame = userFrame (read tstate 0 size) := by
    rw [← read_copy tstate pcb.mem 0 returnDataOff size, ← hm, userFrame_read _ _ (by omega), hpcb]
    rfl
  have htrace : pcb'.traceUser = traced (userFrame (read tstate 0 size)) := by
    rw [← read_copy tstate pcb.mem 0 returnDataOff size, ← hm, userFrame_read _ _ (by omega),
      traced_read _ _ _ (by omega), hpcb]
  have hfmt : fmtAt pcb'.mem returnDataOff = fmtAt tstate 0 := by
    rw [hpcb, hm, fmtAt, fmtAt]
    simp only
    rw [put16_outside (by omega), copy_inside _ _ _ _ (by omega)]
  obtain ⟨hsize, hfp⟩ := @fpFrame_congr pcb pcb' h.fpSize.1 fun i hi _ => hmem i (by omega)
  have hothers := @others_congr pcb pcb' fun i hi => hmem i (by simp only [Owned] at hi; omega)
  have huser : read pcb'.mem userOff regsSize = read pcb.mem userOff regsSize :=
    read_eq_read_iff.2 fun i hi => hmem _ (by omega)
  have hregs : read pcb'.mem fpStateOff fpRegsSize = read pcb.mem fpStateOff fpRegsSize :=
    read_eq_read_iff.2 fun i hi => hmem _ (by omega)
  refine ⟨⟨?_, ?_, ?_, ?_, hsize ▸ h.fpSize⟩, ?_⟩
  · simp [hpcb]
  · intro _
    rw [hfmt, hf, hpcb]
  · simp [hpcb]
  · rw [hframe, ← read_copy tstate pcb.mem 0 returnDataOff size, userFrame_read _ _ (by omega)]
    exact userMode_read _ _ _ (by omega)
  · rw [take_read _ _ (by omega)]
    have hrestore : pcb'.fpRestore = pcb.fpRestore := by rw [hpcb]
    simp only [status] at hothers ⊢
    rw [hframe, htrace, hfp, hothers, huser, hregs, hrestore]

end Set

/-! ## Each call -/

section Call

variable {pcb : Pcb} {flavor : ℕ} {tstate : Mem} {count : ℕ}

theorem format_read (hc : 2 ≤ count) :
    ((read tstate 0 (4 * count))[6]?.bind fun b => frameSize (b.extractLsb' 4 4)) =
      frameSize (fmtAt tstate 0) := by
  rw [getElem?_read _ _ (by omega)]
  rfl

theorem format_short (hc : count < 2) :
    ((read tstate 0 (4 * count))[6]?.bind fun b => frameSize (b.extractLsb' 4 4)) = none := by
  rw [List.getElem?_eq_none (by rw [length_read]; omega)]
  rfl

theorem set_spec (h : Stopped pcb) (hfits : Fits pcb (.set flavor tstate count)) :
    Stopped (threadSetstatus pcb flavor tstate count).2 ∧
      ((threadSetstatus pcb flavor tstate count).1,
        (threadSetstatus pcb flavor tstate count).2.status) =
        pcb.status.set flavor (read tstate 0 (4 * count)) := by
  have := layout
  unfold threadSetstatus Status.set
  rw [length_read]
  by_cases hregs : flavor = threadStateRegs
  · rw [if_pos hregs, if_pos hregs]
    by_cases hc : count < regsSize / 4
    · rw [if_pos hc, if_pos (by omega)]
      exact ⟨h, rfl⟩
    · rw [if_neg hc, if_neg (by omega)]
      obtain ⟨hstopped, hstatus⟩ := @set_regs pcb tstate count h hc
      exact ⟨hstopped, Prod.ext rfl hstatus⟩
  rw [if_neg hregs, if_neg hregs]
  by_cases hfpregs : flavor = threadStateFpregs
  · rw [if_pos hfpregs, if_pos hfpregs]
    by_cases hc : count < fpRegsSize / 4
    · rw [if_pos hc, if_pos (by omega)]
      exact ⟨h, rfl⟩
    · rw [if_neg hc, if_neg (by omega)]
      obtain ⟨hstopped, hstatus⟩ := @set_fpregs pcb tstate count h hc _ rfl
      exact ⟨hstopped, Prod.ext rfl hstatus⟩
  rw [if_neg hfpregs, if_neg hfpregs]
  by_cases hframe : flavor = threadStateFrame
  · rw [if_pos hframe, if_pos hframe]
    rcases lt_or_ge count 2 with hshort | hlong
    · rw [format_short hshort]
      cases hf : frameSize (fmtAt tstate 0) with
      | none => exact ⟨h, rfl⟩
      | some size =>
        have := frameSize_some hf
        simp only
        rw [if_pos (by omega)]
        exact ⟨h, rfl⟩
    · rw [format_read hlong]
      cases hf : frameSize (fmtAt tstate 0) with
      | none => exact ⟨h, rfl⟩
      | some size =>
        have := frameSize_some hf
        simp only
        by_cases hc : count < size / 4
        · rw [if_pos hc, if_pos (by omega)]
          exact ⟨h, rfl⟩
        · rw [if_neg hc, if_neg (by omega)]
          obtain ⟨hstopped, hstatus⟩ := @set_frame pcb tstate count h size hf hc _ rfl _ rfl
          exact ⟨hstopped, Prod.ext rfl hstatus⟩
  rw [if_neg hframe, if_neg hframe]
  by_cases hfpframe : flavor = threadStateFpframe
  · rw [if_pos hfpframe, if_pos hfpframe]
    rcases Nat.eq_zero_or_pos count with hzero | hpos
    · rw [List.getElem?_eq_none (by rw [length_read]; omega), if_pos (by omega)]
      exact ⟨h, rfl⟩
    · rw [getElem?_read _ _ (by omega)]
      have hfits := hfits hfpframe
      by_cases hc : count < (4 + fpfSize tstate 0) / 4
      · have : 4 * count < 4 + (tstate (0 + 1)).toNat := by
          change count < (4 + (tstate (0 + 1)).toNat) / 4 at hc
          omega
        simp only
        rw [if_pos hc, if_pos this]
        exact ⟨h, rfl⟩
      · obtain ⟨hdvd, hle⟩ := hfits (not_lt.1 hc)
        have : ¬4 * count < 4 + (tstate (0 + 1)).toNat := by
          change ¬count < (4 + (tstate (0 + 1)).toNat) / 4 at hc
          change 4 ∣ (tstate (0 + 1)).toNat at hdvd
          omega
        simp only
        rw [if_neg hc, if_neg this]
        obtain ⟨hstopped, hstatus⟩ := @set_fpframe pcb tstate count h hc ⟨hdvd, hle⟩ _ rfl
        exact ⟨hstopped, Prod.ext rfl hstatus⟩
  · rw [if_neg hfpframe, if_neg hfpframe]
    exact ⟨h, rfl⟩

theorem Gets.copy {src : Mem} {off n : ℕ} (hdvd : 4 ∣ n) (hc : ¬count < n / 4) :
    Gets (some (read src off n)) tstate count ⟨.success, copy src off tstate 0 n, n / 4⟩ := by
  rw [Gets, length_read]
  simp only
  rw [if_pos (by omega)]
  exact ⟨trivial, read_copy _ _ _ _ _, fun i hi => copy_outside (by omega), by omega⟩

theorem Gets.short {value : List Byte} (h : 4 * count < value.length) :
    Gets (some value) tstate count ⟨.invalidArgument, tstate, count⟩ := by
  rw [Gets, if_neg (by omega)]

theorem get_spec (h : Stopped pcb) (hfits : Fits pcb (.get flavor tstate count)) :
    Gets (pcb.status.get flavor) tstate count (threadGetstatus pcb flavor tstate count) := by
  have := layout
  unfold threadGetstatus Status.get
  by_cases hregs : flavor = threadStateRegs
  · rw [if_pos hregs, if_pos hregs]
    split
    · exact Gets.short (by rw [status, length_read]; omega)
    · exact Gets.copy (by decide) ‹_›
  rw [if_neg hregs, if_neg hregs]
  by_cases hfpregs : flavor = threadStateFpregs
  · rw [if_pos hfpregs, if_pos hfpregs]
    split
    · exact Gets.short (by rw [status, length_read]; omega)
    · exact Gets.copy (by decide) ‹_›
  rw [if_neg hfpregs, if_neg hfpregs]
  by_cases hframe : flavor = threadStateFrame
  · rw [if_pos hframe, if_pos hframe]
    by_cases hret : pcb.retFrame
    · have hsaved := h.saved hret
      have hdvd := (frameSize_some hsaved).2.2
      have hfmt : frameSize pcb.fmt = some pcb.returnSize := by
        rw [fmt, h.place.1 hret]
        exact hsaved
      have hresume : pcb.status.frame = read pcb.mem returnDataOff pcb.returnSize := by
        simp only [status, resumeFrame, if_pos hret]
      rw [hfmt, hresume]
      simp only
      split
      · exact Gets.short (by rw [length_read]; omega)
      · exact Gets.copy hdvd ‹_›
    · obtain ⟨size, hsize⟩ := h.trapped hret
      have hfmt : frameSize pcb.fmt = some size := by
        have : pcb.frame = .onStack := by
          cases hp : pcb.frame with
          | inPcb => exact absurd (h.place.2 hp) hret
          | onStack => rfl
        rw [fmt, this]
        exact hsize
      have hresume : pcb.status.frame.length = size := by
        simp only [status, resumeFrame, if_neg hret, length_read, hsize, Option.getD_some]
      -- a count that is large enough would be given what is left in the pcb
      have hc := (hfits hframe).resolve_left hret
      have hdvd := (frameSize_some hsize).2.2
      rw [hfmt, Option.getD_some] at hc
      rw [hfmt]
      simp only
      rw [if_pos hc]
      exact Gets.short (by omega)
  rw [if_neg hframe, if_neg hframe]
  by_cases hfpframe : flavor = threadStateFpframe
  · rw [if_pos hfpframe, if_pos hfpframe]
    obtain ⟨-, hdvd⟩ := h.fpSize
    have hsize : fpfSize (copy pcb.mem fpFrameOff tstate 0 4) 0 = fpfSize pcb.mem fpFrameOff := by
      rw [fpfSize, copy_inside _ _ _ _ (by omega), fpfSize]
    split
    · exact Gets.short (by rw [status, fpFrame, length_read]; omega)
    · simp only [hsize]
      rw [Gets, status, fpFrame, length_read, if_pos (by omega)]
      refine ⟨rfl, ?_, fun i hi => ?_, by simp only; omega⟩
      · split
        · exact read_copy_copy pcb.mem tstate fpFrameOff 0 4 _
        · obtain hz : fpfSize pcb.mem fpFrameOff = 0 := by omega
          rw [hz, read_copy]
      · simp only
        split <;> (repeat rw [copy_outside (by omega)])
  · rw [if_neg hfpframe, if_neg hfpframe]
    rfl

theorem detach_spec (h : Stopped pcb) :
    ∃ pcb', stackDetach pcb = some pcb' ∧ Stopped pcb' ∧ pcb'.status = pcb.status := by
  have := layout
  unfold stackDetach
  by_cases hret : pcb.retFrame
  · exact ⟨pcb, if_pos hret, h, rfl⟩
  obtain ⟨size, hsize⟩ := h.trapped hret
  obtain ⟨hlo, hhi, -⟩ := frameSize_some hsize
  have hplace : pcb.frame = .onStack := by
    cases hp : pcb.frame with
    | inPcb => exact absurd (h.place.2 hp) hret
    | onStack => rfl
  have hfmt : frameSize pcb.fmt = some size := by
    rw [fmt, hplace]
    exact hsize
  rw [if_neg hret, hfmt, hplace]
  refine ⟨_, rfl, ?_⟩
  generalize hpcb : { pcb with
    mem := copy pcb.stack 0 pcb.mem returnDataOff size, returnSize := size, frame := .inPcb,
    retFrame := true } = pcb'
  have hmem : ∀ i, i < returnDataOff ∨ returnDataOff + frameMax ≤ i →
      pcb'.mem i = pcb.mem i := fun i hi => by
    rw [← hpcb]
    exact copy_outside (by omega)
  have hframe : pcb'.resumeFrame = pcb.resumeFrame := by
    simp only [← hpcb, resumeFrame, if_true, if_neg hret, hsize, Option.getD_some, read_copy]
  have hfmt' : fmtAt pcb'.mem returnDataOff = fmtAt pcb.stack 0 := by
    rw [← hpcb, fmtAt, fmtAt]
    simp only
    rw [copy_inside _ _ _ _ (by omega)]
  obtain ⟨hfpsize, hfp⟩ := @fpFrame_congr pcb pcb' h.fpSize.1 fun i hi _ => hmem i (by omega)
  have hothers := @others_congr pcb pcb' fun i hi => hmem i (by simp only [Owned] at hi; omega)
  have huser : read pcb'.mem userOff regsSize = read pcb.mem userOff regsSize :=
    read_eq_read_iff.2 fun i hi => hmem _ (by omega)
  have hregs : read pcb'.mem fpStateOff fpRegsSize = read pcb.mem fpStateOff fpRegsSize :=
    read_eq_read_iff.2 fun i hi => hmem _ (by omega)
  refine ⟨⟨?_, ?_, ?_, hframe ▸ h.user, hfpsize ▸ h.fpSize⟩, ?_⟩
  · simp [← hpcb]
  · intro _
    rw [hfmt', hsize, ← hpcb]
  · simp [← hpcb]
  · have hflags : pcb'.traceUser = pcb.traceUser ∧ pcb'.fpRestore = pcb.fpRestore := by
      rw [← hpcb]
      exact ⟨rfl, rfl⟩
    simp only [status] at hothers ⊢
    rw [hframe, hfp, hothers, huser, hregs, hflags.1, hflags.2]

end Call

/-- Every run of calls that fit is a run of calls on the user state, in user mode throughout. -/
theorem statusRuns_do (pcb : Pcb) (es : List Event) (h : Stopped pcb)
    (hes : Runs.Along step Fits pcb es) : Runs.Does step spec pcb pcb.status es := by
  refine Runs.Does.of_simulation (fun pcb a => Stopped pcb ∧ pcb.status = a) ?_ ⟨h, rfl⟩ hes
  rintro pcb a e ⟨hs, rfl⟩ hfits
  cases e with
  | set flavor tstate count =>
    obtain ⟨hs', hset⟩ := set_spec hs hfits
    exact ⟨_, _, _, rfl, ⟨rfl, hs'.user, hset⟩, hs', rfl⟩
  | get flavor tstate count =>
    exact ⟨_, _, _, rfl, ⟨rfl, hs.user, rfl, get_spec hs hfits⟩, hs, rfl⟩
  | detach =>
    obtain ⟨pcb', hdetach, hs', hstatus⟩ := detach_spec hs
    refine ⟨⟨.success, fun _ => 0, 0⟩, pcb', _, ?_, ⟨rfl, hs'.user, hstatus⟩, hs', rfl⟩
    rw [step, hdetach]
    rfl

/-! A thread that `pcb_init` has just made. -/

def fresh : Pcb where
  mem := fun _ => 0
  stack := fun _ => 0
  frame := .inPcb
  returnSize := 8
  retFrame := true
  traceUser := false
  fpRestore := false

theorem fresh_stopped : Stopped fresh := by
  refine ⟨by decide, fun _ => by decide, fun h => absurd rfl h, ?_, by decide⟩
  change (0 : BitVec 8) ++ (0 : BitVec 8) &&& (srSupr ||| srIpl) = 0
  decide

/-- The whole frame of the coprocessor with all its registers, and a supervisor's frame. -/
def calls : List Event :=
  [.set threadStateFpframe (fun i => if i = 1 then 0x18 else 1) 7,
   .get threadStateFpframe (fun _ => 0) 7,
   .set threadStateFrame (fun i => if i = 0 then 0xff else 0) 2,
   .get threadStateFrame (fun _ => 0) 2, .detach]

theorem statusRuns_do_calls : Runs.Does step spec fresh fresh.status calls :=
  statusRuns_do fresh calls fresh_stopped (by decide +kernel)

/-- A floating-point frame that says it has 255 bytes. -/
def longFrame : Event := .set threadStateFpframe (fun i => if i = 1 then 0xff else 1) 64

/-- It goes over the kernel registers behind the field. -/
theorem longFrame_not_does : ¬Runs.Does step spec fresh fresh.status [longFrame] := by
  rintro ⟨got, pcb', a', hstep, ⟨hstatus, -, hset⟩, -⟩
  have hothers : a'.others = fresh.status.others := by
    rw [← Status.set_others fresh.status, ← hset]
  have hpcb : pcb' = (threadSetstatus fresh threadStateFpframe
      (fun i => if i = 1 then 0xff else 1) 64).2 := by
    injection hstep with hstep
    exact (congrArg Prod.snd hstep).symm
  have hmem : pcb'.status.others kernelOff = 1 := by
    rw [hpcb]
    decide +kernel
  rw [hstatus, hothers] at hmem
  revert hmem
  decide +kernel

end MachKernel.Mac2.ThreadStatus
