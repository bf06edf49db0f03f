import MachKernel.Lib.Word32

/-! The SCSI layer of the Macintosh disk driver: the six-byte commands and one transfer. -/

namespace MachKernel.Device.Mscsi

/-- A C `long` from the word that holds it. -/
def long (w : ℕ) : ℤ := Int.bmod w Word32.modulus

/-- The word that holds a C `long`. -/
def unsigned (x : ℤ) : ℕ := (x % Word32.modulus).toNat

theorem long_eq (w : ℕ) : -2 ^ 31 ≤ long w ∧ long w < 2 ^ 31 := by
  have hm : (Word32.modulus : ℤ) = 4294967296 := by norm_num
  have h := Int.le_bmod (x := w) (m := Word32.modulus) (by norm_num)
  have h' := Int.bmod_lt (x := w) (m := Word32.modulus) (by norm_num)
  rw [hm] at h h'
  change -2 ^ 31 ≤ Int.bmod w Word32.modulus ∧ Int.bmod w Word32.modulus < 2 ^ 31
  omega

theorem long_of_lt {w : ℕ} (h : w < 2 ^ 31) : long w = w := by
  refine Int.bmod_eq_of_le ?_ ?_ <;> simp only [Word32.modulus] <;> omega

theorem unsigned_lt (x : ℤ) : unsigned x < Word32.modulus := by
  have hm : (Word32.modulus : ℤ) = 4294967296 := by norm_num
  rw [unsigned, hm]
  have : Word32.modulus = 4294967296 := by norm_num
  omega

theorem unsigned_of_nonneg {x : ℤ} (h : 0 ≤ x) (h' : x < 2 ^ 31) : (unsigned x : ℤ) = x := by
  have hm : (Word32.modulus : ℤ) = 4294967296 := by norm_num
  have hx : unsigned x = x.toNat := by rw [unsigned, hm, Int.emod_eq_of_lt h (by omega)]
  rw [hx]
  exact Int.toNat_of_nonneg h

theorem bmod_mod (w m : ℕ) : Int.bmod ((w % m : ℕ) : ℤ) m = Int.bmod w m := by
  rw [Int.natCast_mod, Int.emod_bmod]

theorem long_mod (w : ℕ) : long (w % Word32.modulus) = long w := bmod_mod w Word32.modulus

theorem bmod_of_emod {w : ℕ} {x : ℤ} {m : ℕ} (h : (w : ℤ) % m = x % m)
    (hl : -((m / 2 : ℕ) : ℤ) ≤ x) (hu : x < (((m + 1) / 2 : ℕ) : ℤ)) : Int.bmod w m = x := by
  rw [← Int.emod_bmod, h, Int.emod_bmod]
  refine Int.bmod_eq_of_le ?_ ?_ <;> push_cast at * <;> omega

theorem long_of_emod {w : ℕ} {x : ℤ} (h : (w : ℤ) % Word32.modulus = x % Word32.modulus)
    (hl : -2 ^ 31 ≤ x) (hu : x < 2 ^ 31) : long w = x := by
  have hm := Word32.modulus_eq
  exact bmod_of_emod h (by rw [hm]; omega) (by rw [hm]; omega)

theorem unsigned_emod (x : ℤ) : (unsigned x : ℤ) = x % Word32.modulus := by
  have hm : (Word32.modulus : ℤ) = 4294967296 := by norm_num
  exact Int.toNat_of_nonneg (Int.emod_nonneg _ (by rw [hm]; omega))

abbrev nbblk : ℕ := 512
abbrev maxPhys : ℕ := 32 * 1024
abbrev maxNBlk : ℤ := 256

def scsiMSBlk (n : ℕ) : ℕ := (n >>> 16) &&& 0x1f
def scsiBlk (n : ℕ) : ℕ := (n >>> 8) &&& 0xff
def scsiLSBlk (n : ℕ) : ℕ := n &&& 0xff
-- the field that takes it is one byte
def scsiNBlk (n : ℤ) : ℕ := ((if n < maxNBlk then n else 0) % 256).toNat

/-- `io_op`, less its flags. The `IO_OPEN` command moves no data and is left out. -/
inductive IoOp
  | read
  | write
  deriving DecidableEq, Repr

inductive IoReturn
  | success
  | queued
  | ioError
  | noSuchDevice
  | invalidRecnum
  | invalidSize
  | kernReturn
  deriving DecidableEq, Repr

/-- The memory a data pointer goes into. -/
inductive Buffer
  | null
  | kmem
  | inbandZone
  | ioMap
  | copy
  | message
  deriving DecidableEq, Repr

/-- A page list: where its data starts, how long it is, how many pages it has at hand. -/
structure PageList where
  offset : ℕ
  size : ℕ
  npages : ℕ
  deriving DecidableEq, Repr

structure IoReq where
  op : IoOp
  inband : Bool
  loaned : Bool
  recnum : ℕ
  buf : Buffer
  -- `io_data`, counted from the start of `buf`
  data : ℕ
  count : ℤ
  allocSize : ℕ
  residual : ℤ
  copy : PageList
  total : ℤ
  deriving DecidableEq, Repr

structure SCSICmdBlk where
  op : ℕ
  msblk : ℕ
  blk : ℕ
  lsblk : ℕ
  nblk : ℕ
  deriving DecidableEq, Repr

def cmdRead : ℕ := 0x08
def cmdWrite : ℕ := 0x0a

def IoOp.code : IoOp → ℕ
  | .read => cmdRead
  | .write => cmdWrite

/-- The first block that a command names. -/
def SCSICmdBlk.first (cmd : SCSICmdBlk) : ℕ := cmd.msblk * 65536 + cmd.blk * 256 + cmd.lsblk

/-- The number of blocks that a command names. -/
def SCSICmdBlk.number (cmd : SCSICmdBlk) : ℕ := if cmd.nblk = 0 then 256 else cmd.nblk

def SCSICmdBlk.blocks (cmd : SCSICmdBlk) : List ℕ := List.range' cmd.first cmd.number

def cmdOf (ior : IoReq) : SCSICmdBlk where
  op := ior.op.code
  msblk := scsiMSBlk ior.recnum
  blk := scsiBlk ior.recnum
  lsblk := scsiLSBlk ior.recnum
  nblk := scsiNBlk (ior.count / nbblk)

theorem first_cmdOf (ior : IoReq) : (cmdOf ior).first = ior.recnum % 2 ^ 21 := by
  have h5 : ∀ n : ℕ, n &&& 0x1f = n % 2 ^ 5 := fun n => Nat.and_two_pow_sub_one_eq_mod n 5
  have h8 : ∀ n : ℕ, n &&& 0xff = n % 2 ^ 8 := fun n => Nat.and_two_pow_sub_one_eq_mod n 8
  simp only [cmdOf, SCSICmdBlk.first, scsiMSBlk, scsiBlk, scsiLSBlk, Nat.shiftRight_eq_div_pow,
    h5, h8]
  omega

theorem number_cmdOf {ior : IoReq} {n : ℕ} (h : ior.count = 512 * n) (hn : n ≤ 64) :
    (cmdOf ior).number = if n = 0 then 256 else n := by
  have hb : (cmdOf ior).nblk = n := by
    simp only [cmdOf, scsiNBlk, maxNBlk, nbblk, h]
    omega
  rw [SCSICmdBlk.number, hb]

theorem SCSICmdBlk.number_pos (cmd : SCSICmdBlk) : 0 < cmd.number := by
  simp only [SCSICmdBlk.number]
  split <;> omega

/-- How the SCSI manager answers one command. -/
inductive Bus
  | getFails
  | selectFails
  | cmdFails
  | transferFails
  | completeFails
  | completes
  deriving DecidableEq, Repr

/-- Whether the target is sent the command. -/
def Bus.sent : Bus → Bool
  | .getFails | .selectFails => false
  | _ => true

/-- One call of `scsi_cmd`, with what it moves: `moved` blocks at `data` of `buf`. -/
structure Call where
  cmd : SCSICmdBlk
  sent : Bool
  buf : Buffer
  data : ℕ
  moved : ℕ
  panics : Bool
  result : IoReturn
  deriving DecidableEq, Repr

def scsiTransfer (bus : Bus) (ior : IoReq) (call : Call) : Call :=
  if maxPhys < ior.count then { call with panics := true }
  else { call with
    -- the transfer program moves one block and loops
    moved := unsigned (ior.count / nbblk)
    result := if bus = .completes then .success else .ioError }

def scsiCmd (bus : Bus) (ior : IoReq) : Call :=
  let call : Call :=
    { cmd := cmdOf ior, sent := bus.sent, buf := ior.buf, data := ior.data, moved := 0,
      panics := false, result := .ioError }
  match bus with
  | .getFails => call
  | .selectFails => { call with result := .noSuchDevice }
  | .cmdFails => call
  | _ => scsiTransfer bus ior call

/-- Whether a request had to wait for its turn or its data phase, and how the bus answered. -/
structure Turn where
  waits : Bool
  bus : Bus
  deriving DecidableEq, Repr

-- a request that waits is carried on by `scsi_intr`, which leaves the result in `io_error`
def scsiOp (turn : Turn) (ior : IoReq) : Call × IoReturn :=
  let call := scsiCmd turn.bus ior
  (call, if turn.waits then .queued else call.result)

def scsiWait (call : Call) : IoReturn := call.result

def Turn.sent (turn : Turn) : Bool := turn.bus.sent
def Turn.good (turn : Turn) : Bool := turn.bus = .completes

theorem Turn.sent_of_good {turn : Turn} (h : turn.good) : turn.sent := by
  simp only [Turn.good, decide_eq_true_eq] at h
  simp [Turn.sent, h, Bus.sent]

/-- A call of `scsi_cmd` for `n` blocks from `recnum` on, and how it turns out. -/
structure CallOf (turn : Turn) (buf : Buffer) (recnum n data : ℕ) (call : Call) : Prop where
  first : call.cmd.first = recnum % 2 ^ 21
  number : call.cmd.number = if n = 0 then 256 else n
  sent : call.sent = turn.sent
  buf : call.buf = buf
  data : call.data = data
  panics : call.panics = false
  success : call.result = .success ↔ turn.good
  moved_le : call.moved ≤ n
  moved : turn.good → call.moved = n
  unsent : turn.sent = false → call.moved = 0

theorem scsiTransfer_eq (bus : Bus) {ior : IoReq} {n : ℕ} (h : ior.count = 512 * n)
    (hn : n ≤ 64) (call : Call) :
    scsiTransfer bus ior call = { call with
      moved := n, result := if bus = .completes then .success else .ioError } := by
  have hmax : ¬(maxPhys : ℤ) < ior.count := by simp only [maxPhys]; omega
  have hblk : ior.count / (nbblk : ℤ) = n := by simp only [nbblk]; omega
  have hmv : unsigned (ior.count / (nbblk : ℤ)) = n := by
    have := unsigned_of_nonneg (x := (n : ℤ)) (by omega) (by omega)
    rw [hblk]
    omega
  rw [scsiTransfer, if_neg hmax, hmv]

theorem scsiCmd_callOf (turn : Turn) {ior : IoReq} {n : ℕ} (h : ior.count = 512 * n)
    (hn : n ≤ 64) : CallOf turn ior.buf ior.recnum n ior.data (scsiCmd turn.bus ior) := by
  have hf := first_cmdOf ior
  have hnb := number_cmdOf h hn
  constructor <;> cases hb : turn.bus <;>
    simp [scsiCmd, scsiTransfer_eq _ h hn, Turn.good, Turn.sent, hb, Bus.sent, hf, hnb]

end MachKernel.Device.Mscsi
