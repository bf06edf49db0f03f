import MachKernel.Device.Mscsi

/-! The Macintosh SCSI disk driver: reads and writes of an open partition. -/

namespace MachKernel.Device.Sdisk
open Mscsi List

/-- An open disk partition, in blocks. -/
structure DiskPart where
  offset : ℕ
  length : ℕ
  offset_lt : offset < Word32.modulus
  length_lt : length < Word32.modulus

abbrev recSize : ℕ := 512
abbrev maxBlk : ℕ := 64
abbrev pgbytes : ℕ := 8192
abbrev inbandMax : ℕ := 128

def roundPage (n : ℕ) : ℕ := Word32.add n (pgbytes - 1) / pgbytes * pgbytes
def truncPage (n : ℕ) : ℕ := n / pgbytes * pgbytes

/-- What the callees of one request answer, and what its automatic variables start as. -/
structure Env where
  -- whether `kmem_alloc` and `kmem_alloc_pageable` find room
  room : Bool
  -- `io_data - new_addr` when nothing was mapped: neither has been set
  gap : ℤ
  -- `wait`, which nothing sets before its use
  wait : ℕ
  turns : ℕ → Mscsi.Turn

/-- What a request leaves: its `ior`, its calls of `scsi_cmd`, and where else it stored. -/
structure Transfer where
  ior : IoReq
  calls : List Call
  stores : List ℕ
  result : Mscsi.IoReturn
  deriving DecidableEq, Repr

/-! Getting the memory of a request. -/

def deviceReadAlloc (room : Bool) (ior : IoReq) (size : ℤ) : Option IoReq :=
  if ior.count = 0 then some ior
  else if ior.inband then
    some { ior with buf := .inbandZone, data := 0, allocSize := inbandMax }
  else if room then
    some { ior with buf := .kmem, data := 0, allocSize := roundPage (unsigned size) }
  else none

/-- The bytes that `kmem_io_map_copyout` maps of a page list. -/
def PageList.mapped (copy : PageList) : ℕ :=
  min (roundPage (Word32.add copy.offset copy.size) - truncPage copy.offset) (copy.npages * pgbytes)

def kmemIoMapCopyout (room : Bool) (ior : IoReq) : IoReq :=
  if room then
    { ior with buf := .ioMap, data := ior.copy.offset % pgbytes,
               allocSize := PageList.mapped ior.copy }
  else ior

/-- `device_write_get`, with the store through `wait`, which it takes to be a pointer. -/
def deviceWriteGet (env : Env) (ior : IoReq) : IoReq × List ℕ :=
  -- the FALSE goes out first; a split request stores TRUE there as well
  let stores := [env.wait]
  if ior.count = 0 then (ior, stores)
  else if ior.loaned then (ior, stores)
  else if ior.inband then
    ({ ior with buf := .inbandZone, data := 0, allocSize := inbandMax }, stores)
  else
    -- whether it mapped anything is not looked at
    let mapped := kmemIoMapCopyout env.room ior
    let gap := if env.room then (mapped.data : ℤ) else env.gap
    if gap + mapped.count > mapped.allocSize then
      ({ mapped with count := mapped.allocSize - gap }, stores ++ [env.wait])
    else (mapped, stores)

/-! One transfer of a larger request. -/

def diskIor (op : IoOp) (buf : Buffer) (recnum count data : ℕ) : IoReq where
  op := op
  inband := false
  loaned := false
  recnum := recnum
  buf := buf
  data := data
  count := long (count * recSize % Word32.modulus)
  allocSize := 0
  residual := 0
  copy := ⟨0, 0, 0⟩
  total := 0

def diskRw (op : IoOp) (turn : Mscsi.Turn) (buf : Buffer) (recnum count data : ℕ) : Call ×
    Mscsi.IoReturn :=
  let tried := scsiOp turn (diskIor op buf recnum count data)
  (tried.1, if tried.2 = .queued then scsiWait tried.1 else tried.2)

/-- The pieces of a request for more than `maxBlk` blocks, and what was left when one failed. -/
def pieces (op : IoOp) (buf : Buffer) (turns : ℕ → Mscsi.Turn) (offset length data : ℕ) :
    List Call × Option ℕ :=
  if maxBlk < length then
    let tried := diskRw op (turns 0) buf offset maxBlk data
    if tried.2 = .success then
      let rest := pieces op buf (fun i => turns (i + 1)) (Word32.add offset maxBlk)
        (length - maxBlk) (data + maxPhys)
      (tried.1 :: rest.1, rest.2)
    else ([tried.1], some length)
  else if 0 < length then
    let tried := diskRw op (turns 0) buf offset length data
    ([tried.1], if tried.2 = .success then none else some length)
  else ([], none)
termination_by length
decreasing_by simp only [maxBlk] at *; omega

-- `io_residual` is set only where a piece fails
def residualOf (residual : ℤ) : Option ℕ → ℤ
  | none => residual
  | some left => long (left * recSize % Word32.modulus)

/-- The part that `sd_read` and `sd_write` share: from the memory of the request on. -/
def transfer (part : DiskPart) (env : Env) (ior : IoReq) (length : ℕ) (stores : List ℕ) :
    Transfer :=
  let offset := Word32.add ior.recnum part.offset
  if maxBlk < length then
    let tried := pieces ior.op ior.buf env.turns offset length ior.data
    ⟨{ ior with residual := residualOf ior.residual tried.2 }, tried.1, stores, .success⟩
  else
    let ior := { ior with recnum := offset }
    let tried := scsiOp (env.turns 0) ior
    ⟨ior, [tried.1], stores, tried.2⟩

/-- The request made to fit the partition, and its length in blocks. -/
def adjust (part : DiskPart) (ior : IoReq) : IoReq × ℕ :=
  let length := unsigned (ior.count / recSize)
  if Word32.add ior.recnum length > part.length then
    let length := part.length - ior.recnum
    ({ ior with count := long (length * recSize % Word32.modulus) }, length)
  else (ior, length)

def sdRead (part : DiskPart) (env : Env) (ior : IoReq) : Except Mscsi.IoReturn Transfer :=
  if ior.recnum ≥ part.length then .error .invalidRecnum
  else if ior.count % recSize ≠ 0 then .error .invalidSize
  else
    let (ior, length) := adjust part ior
    match deviceReadAlloc env.room ior ior.count with
    | none => .error .kernReturn
    | some ior => .ok (transfer part env ior length [])

def sdWrite (part : DiskPart) (env : Env) (ior : IoReq) : Except Mscsi.IoReturn Transfer :=
  if ior.recnum ≥ part.length then .error .invalidRecnum
  else if ior.count % recSize ≠ 0 then .error .invalidSize
  else
    let (ior, length) := adjust part ior
    let (ior, stores) := if ior.inband then (ior, []) else deviceWriteGet env ior
    let out := transfer part env ior length stores
    -- `wait` is still what it was; a caller that waits is told of success
    .ok { out with result :=
      if maxBlk < length then out.result
      else if env.wait = 0 then out.result else .success }

/-! The requests that the device routines make of them. -/

inductive Request
  | read (recnum bytesWanted : ℕ)
  | readInband (recnum bytesWanted : ℕ)
  | writeInband (recnum dataCount : ℕ)
  -- a write comes back for the rest of its page list, with what is left of its counts
  | write (recnum dataCount : ℕ) (copy : PageList) (residual : ℤ) (loaned : Bool)
  deriving DecidableEq, Repr

open Request

def Request.ior : Request → IoReq
  | .read recnum bytesWanted =>
    { op := .read, inband := false, loaned := false, recnum := recnum, buf := .null, data := 0,
      count := long bytesWanted, allocSize := 0, residual := 0, copy := ⟨0, 0, 0⟩, total := 0 }
  | .readInband recnum bytesWanted =>
    { op := .read, inband := true, loaned := false, recnum := recnum, buf := .null, data := 0,
      -- `sizeof` makes the comparison an unsigned one
      count := if bytesWanted % Word32.modulus < inbandMax then long bytesWanted else inbandMax,
      allocSize := 0, residual := 0, copy := ⟨0, 0, 0⟩, total := 0 }
  | .writeInband recnum dataCount =>
    { op := .write, inband := true, loaned := false, recnum := recnum, buf := .message, data := 0,
      count := long dataCount, allocSize := 0, residual := 0, copy := ⟨0, 0, 0⟩,
      total := long dataCount }
  | .write recnum dataCount copy residual loaned =>
    { op := .write, inband := false, loaned := loaned, recnum := recnum, buf := .copy, data := 0,
      count := long dataCount, allocSize := 0, residual := residual, copy := copy,
      total := long dataCount }

def Request.run (part : DiskPart) (env : Env) (request : Request) : Except Mscsi.IoReturn Transfer :=
  match request.ior.op with
  | .read => sdRead part env request.ior
  | .write => sdWrite part env request.ior

/-! What a transfer should do. -/

/-- The blocks that a call tells the target of. -/
def callBlocks (call : Call) : List ℕ := if call.sent then call.cmd.blocks else []

/-- The bytes of memory that a request has at `io_data`'s beginning. -/
def held (ior : IoReq) : ℕ :=
  match ior.buf with
  | .kmem | .inbandZone | .ioMap => ior.allocSize
  | .message => ior.total.toNat
  | .null | .copy => 0

/-- The length that is asked for, clipped to the partition and to what the memory holds. -/
def asked (part : DiskPart) (ior : IoReq) (out : Transfer) : ℕ :=
  min (min (ior.count.toNat / recSize) (part.length - ior.recnum))
    ((held out.ior - out.ior.data) / recSize)

/-- A transfer names the blocks asked for, once each and in order, and moves them only between
the disk and the memory of the request. -/
structure Exact (part : DiskPart) (ior : IoReq) (out : Transfer) : Prop where
  inOrder : out.calls.flatMap callBlocks <+:
    List.range' (part.offset + ior.recnum) (asked part ior out)
  whole : (∀ call ∈ out.calls, call.result = .success) → out.calls.flatMap callBlocks =
    List.range' (part.offset + ior.recnum) (asked part ior out)
  placed : ∀ call ∈ out.calls, call.sent → call.buf = out.ior.buf ∧
    call.data = out.ior.data + recSize * (call.cmd.first - (part.offset + ior.recnum)) ∧
    call.moved ≤ call.cmd.number
  inMemory : ∀ call ∈ out.calls, call.data + recSize * call.moved ≤ held out.ior
  counted : out.ior.count - out.ior.residual =
    recSize * ((out.calls.filter fun call => call.result = .success).map Call.moved).sum
  noStore : out.stores = []
  noPanic : ∀ call ∈ out.calls, call.panics = false

/-! ## One call -/

theorem callBlocks_eq {turn : Mscsi.Turn} {buf : Buffer} {recnum n data : ℕ} {call : Call}
    (h : CallOf turn buf recnum n data call) (hn : 0 < n) :
    callBlocks call = if turn.sent then List.range' (recnum % 2 ^ 21) n else [] := by
  simp only [callBlocks, h.sent, SCSICmdBlk.blocks, h.first, h.number, if_neg hn.ne']

theorem start_lt {turn : Mscsi.Turn} {buf : Buffer} {start n data m : ℕ} {call : Call} {more : List ℕ}
    (h : CallOf turn buf (start % Word32.modulus) n data call) (hn : 0 < n)
    (hsent : turn.sent) (hp : callBlocks call ++ more <+: List.range' start m) :
    start < 2 ^ 21 := by
  have hmod : start % Word32.modulus % 2 ^ 21 = start % 2 ^ 21 :=
    Nat.mod_mod_of_dvd _ (pow_dvd_pow 2 (by norm_num))
  obtain ⟨n, rfl⟩ : ∃ k, n = k + 1 := ⟨n - 1, by omega⟩
  rw [callBlocks_eq h hn, if_pos hsent, hmod, range'_succ, cons_append] at hp
  cases m with
  | zero => simp at hp
  | succ m =>
    rw [range'_succ] at hp
    have := (cons_prefix_cons.1 hp).1
    omega

theorem diskRw_callOf (op : IoOp) (turn : Mscsi.Turn) (buf : Buffer) (recnum data : ℕ) {n : ℕ}
    (hn : n ≤ 64) : CallOf turn buf recnum n data (diskRw op turn buf recnum n data).1 := by
  refine @scsiCmd_callOf turn (diskIor op buf recnum n data) n ?_ hn
  have hlt : n * recSize < 2 ^ 31 := by simp only [recSize]; omega
  rw [diskIor, long_mod, long_of_lt hlt]
  push_cast
  ring

theorem diskRw_success (op : IoOp) (turn : Mscsi.Turn) (buf : Buffer) (recnum data : ℕ) {n : ℕ}
    (hn : n ≤ 64) : (diskRw op turn buf recnum n data).2 = .success ↔ turn.good := by
  rw [← (diskRw_callOf op turn buf recnum data hn).success]
  simp only [diskRw]
  split
  · rfl
  · rename_i hq
    have hw : ¬turn.waits = true := fun hw => hq (if_pos hw)
    rw [show (scsiOp turn (diskIor op buf recnum n data)).2 = _ from if_neg hw]
    rfl

/-! ## The pieces -/

/-- Every piece that is tried and sent starts at a block that a command can name. -/
def Near (turns : ℕ → Mscsi.Turn) (start length : ℕ) : Prop :=
  ∀ i, maxBlk * i < length → (∀ j < i, (turns j).good) → (turns i).sent →
    start + maxBlk * i < 2 ^ 21

theorem near_more {turns : ℕ → Mscsi.Turn} {start length : ℕ} (hl : maxBlk < length) :
    Near turns start length ↔ ((turns 0).sent → start < 2 ^ 21) ∧
      ((turns 0).good → Near (fun i => turns (i + 1)) (start + maxBlk) (length - maxBlk)) := by
  constructor
  · intro h
    refine ⟨fun hs => by simpa using h 0 (by omega) (by simp) hs, fun hg i hi hgood hs => ?_⟩
    have hi' : maxBlk * (i + 1) < length := by simp only [maxBlk] at *; omega
    have := h (i + 1) hi' (fun j hj => ?_) hs
    · simp only [maxBlk] at *; omega
    · cases j with
      | zero => exact hg
      | succ j => exact hgood j (by omega)
  · rintro ⟨h0, hmore⟩ i hi hgood hs
    cases i with
    | zero => simpa using h0 hs
    | succ i =>
      have hi' : maxBlk * i < length - maxBlk := by simp only [maxBlk] at *; omega
      have := hmore (hgood 0 (by omega)) i hi' (fun j hj => hgood (j + 1) (by omega)) hs
      simp only [maxBlk] at *
      omega

theorem near_last {turns : ℕ → Mscsi.Turn} {start length : ℕ} (hl : ¬maxBlk < length)
    (hpos : 0 < length) : Near turns start length ↔ ((turns 0).sent → start < 2 ^ 21) := by
  constructor
  · exact fun h hs => by simpa using h 0 (by omega) (by simp) hs
  · intro h i hi _ hs
    obtain rfl : i = 0 := by simp only [maxBlk] at *; omega
    simpa using h hs

/-- The bytes that the calls of a request have moved, in blocks. -/
def movedBlocks (calls : List Call) : ℕ :=
  ((calls.filter fun call => call.result = .success).map Call.moved).sum

/-- What the calls for the `length` blocks from `start` on should be. -/
structure Moves (buf : Buffer) (start length data : ℕ) (calls : List Call) (left : Option ℕ) :
    Prop where
  inOrder : calls.flatMap callBlocks <+: List.range' start length
  whole : (∀ call ∈ calls, call.result = .success) →
    calls.flatMap callBlocks = List.range' start length
  placed : ∀ call ∈ calls, call.sent → call.buf = buf ∧
    call.data = data + recSize * (call.cmd.first - start) ∧ call.moved ≤ call.cmd.number
  inMemory : ∀ call ∈ calls, call.data + recSize * call.moved ≤ data + recSize * length
  counted : movedBlocks calls + left.getD 0 = length
  noPanic : ∀ call ∈ calls, call.panics = false

section Pieces

variable {turn : Mscsi.Turn} {buf : Buffer} {start n length data : ℕ} {call : Call}

theorem Moves.last (h : CallOf turn buf (start % Word32.modulus) n data call) (hn : 0 < n)
    (hle : n ≤ length) (hnear : turn.sent → start < 2 ^ 21) (hall : turn.good → n = length) :
    Moves buf start length data [call] (if turn.good then none else some length) := by
  have hfirst : turn.sent → start % Word32.modulus % 2 ^ 21 = start := fun hs => by
    have := hnear hs
    simp only [Word32.modulus]
    omega
  have hblocks : callBlocks call = if turn.sent then List.range' start n else [] := by
    rw [callBlocks_eq h hn]
    split
    · rename_i hs; rw [hfirst hs]
    · rfl
  refine ⟨?_, ?_, ?_, ?_, ?_, ?_⟩
  · rw [flatMap_singleton, hblocks]
    split
    · obtain ⟨k, rfl⟩ : ∃ k, length = n + k := ⟨length - n, by omega⟩
      exact ⟨_, range'_append_1⟩
    · exact nil_prefix
  · intro hgood
    have hg := h.success.1 (hgood call (by simp))
    rw [flatMap_singleton, hblocks, if_pos (Mscsi.Turn.sent_of_good hg), hall hg]
  · simp only [mem_singleton, forall_eq]
    intro hs
    rw [h.sent] at hs
    refine ⟨h.buf, ?_, ?_⟩
    · rw [h.first, hfirst hs, h.data]; simp
    · rw [h.number, if_neg hn.ne']; exact h.moved_le
  · simp only [mem_singleton, forall_eq, h.data]
    have := h.moved_le
    simp only [recSize]
    omega
  · simp only [movedBlocks, filter_singleton]
    by_cases hg : turn.good
    · simp [h.success.2 hg, h.moved hg, hg, hall hg]
    · simp [mt h.success.1 hg, hg]
  · simpa using h.panics

theorem Moves.cons {calls : List Call} {left : Option ℕ}
    (h : CallOf turn buf (start % Word32.modulus) n data call) (hn : 0 < n) (hle : n ≤ length)
    (hgood : turn.good) (hnear : start < 2 ^ 21)
    (hrest : Moves buf (start + n) (length - n) (data + recSize * n) calls left) :
    Moves buf start length data (call :: calls) left := by
  have hone := Moves.last h hn le_rfl (fun _ => hnear) (fun _ => rfl)
  have hblocks : callBlocks call = List.range' start n := by
    simpa using hone.whole (by simpa using h.success.2 hgood)
  have hrange : List.range' start length
      = List.range' start n ++ List.range' (start + n) (length - n) := by
    rw [range'_append_1, Nat.add_sub_cancel' hle]
  refine ⟨?_, ?_, ?_, ?_, ?_, ?_⟩
  · rw [flatMap_cons, hblocks, hrange]
    exact (prefix_append_right_inj _).2 hrest.inOrder
  · intro hs
    rw [flatMap_cons, hblocks, hrange,
      hrest.whole fun call hc => hs call (mem_cons_of_mem _ hc)]
  · rintro c hc hs
    rcases mem_cons.1 hc with rfl | hc
    · exact hone.placed _ (by simp) hs
    · obtain ⟨hb, hd, hm⟩ := hrest.placed c hc hs
      refine ⟨hb, ?_, hm⟩
      have hfirst : c.cmd.first ∈ calls.flatMap callBlocks := by
        refine mem_flatMap.2 ⟨c, hc, ?_⟩
        have := c.cmd.number_pos
        simp only [callBlocks, hs, if_true, SCSICmdBlk.blocks, mem_range'_1]
        omega
      have := mem_range'_1.1 (hrest.inOrder.subset hfirst)
      simp only [recSize] at *
      omega
  · rintro c hc
    rcases mem_cons.1 hc with rfl | hc
    · have := hone.inMemory c (by simp)
      simp only [recSize] at *
      omega
    · have := hrest.inMemory c hc
      simp only [recSize] at *
      omega
  · have := hrest.counted
    simp only [movedBlocks, filter_cons, h.success.2 hgood, decide_true, if_true,
      map_cons, sum_cons, h.moved hgood] at *
    omega
  · rintro c hc
    rcases mem_cons.1 hc with rfl | hc
    · exact h.panics
    · exact hrest.noPanic c hc

end Pieces

theorem add_mod_eq (a b : ℕ) : Word32.add (a % Word32.modulus) b = (a + b) % Word32.modulus := by
  simp only [Word32.add, Nat.mod_add_mod]

section Pieces

variable (op : IoOp) (buf : Buffer) {turns : ℕ → Mscsi.Turn} (start length data : ℕ)

theorem pieces_good (hl : maxBlk < length) (hg : (turns 0).good) :
    pieces op buf turns (start % Word32.modulus) length data =
      ((diskRw op (turns 0) buf (start % Word32.modulus) maxBlk data).1 ::
        (pieces op buf (fun i => turns (i + 1)) ((start + maxBlk) % Word32.modulus)
          (length - maxBlk) (data + maxPhys)).1,
       (pieces op buf (fun i => turns (i + 1)) ((start + maxBlk) % Word32.modulus)
          (length - maxBlk) (data + maxPhys)).2) := by
  have hs := (diskRw_success op (turns 0) buf (start % Word32.modulus) data le_rfl).2 hg
  rw [pieces, if_pos hl]
  simp only [if_pos hs, add_mod_eq]

theorem pieces_bad (hl : maxBlk < length) (hg : ¬(turns 0).good) :
    pieces op buf turns (start % Word32.modulus) length data =
      ([(diskRw op (turns 0) buf (start % Word32.modulus) maxBlk data).1], some length) := by
  have hs := mt (diskRw_success op (turns 0) buf (start % Word32.modulus) data le_rfl).1 hg
  rw [pieces, if_pos hl]
  simp only [if_neg hs]

theorem pieces_last (hl : ¬maxBlk < length) (hpos : 0 < length) :
    pieces op buf turns (start % Word32.modulus) length data =
      ([(diskRw op (turns 0) buf (start % Word32.modulus) length data).1],
       if (turns 0).good then none else some length) := by
  have hs := diskRw_success op (turns 0) buf (start % Word32.modulus) data (not_lt.1 hl)
  rw [pieces, if_neg hl, if_pos hpos]
  simp only [hs]

end Pieces

theorem pieces_moves (op : IoOp) (buf : Buffer) {turns : ℕ → Mscsi.Turn} {start length data : ℕ}
    (hpos : 0 < length) (hnear : Near turns start length) :
    Moves buf start length data (pieces op buf turns (start % Word32.modulus) length data).1
      (pieces op buf turns (start % Word32.modulus) length data).2 := by
  induction length using Nat.strong_induction_on generalizing turns start data with
  | _ length ih =>
  have hblk : 0 < maxBlk := by simp only [maxBlk]; omega
  by_cases hl : maxBlk < length
  · have hcall := diskRw_callOf op (turns 0) buf (start % Word32.modulus) data le_rfl
    obtain ⟨h0, hmore⟩ := (near_more hl).1 hnear
    by_cases hg : (turns 0).good
    · rw [pieces_good op buf start length data hl hg]
      refine Moves.cons hcall hblk hl.le hg (h0 (Mscsi.Turn.sent_of_good hg)) ?_
      exact ih (length - maxBlk) (by omega) (by omega) (hmore hg)
    · rw [pieces_bad op buf start length data hl hg]
      simpa [hg] using Moves.last hcall hblk hl.le h0 (fun h => absurd h hg)
  · have hcall := diskRw_callOf op (turns 0) buf (start % Word32.modulus) data (not_lt.1 hl)
    rw [pieces_last op buf start length data hl hpos]
    exact Moves.last hcall hpos le_rfl ((near_last hl hpos).1 hnear) (fun _ => rfl)

theorem near_of_prefix (op : IoOp) (buf : Buffer) {turns : ℕ → Mscsi.Turn} {start length data m : ℕ}
    (hp : (pieces op buf turns (start % Word32.modulus) length data).1.flatMap callBlocks <+:
      List.range' start m) : Near turns start length := by
  induction length using Nat.strong_induction_on generalizing turns start data m with
  | _ length ih =>
  have hblk : 0 < maxBlk := by simp only [maxBlk]; omega
  by_cases hl : maxBlk < length
  · have hcall := diskRw_callOf op (turns 0) buf (start % Word32.modulus) data le_rfl
    by_cases hg : (turns 0).good
    · rw [pieces_good op buf start length data hl hg, flatMap_cons] at hp
      have hlt := start_lt hcall hblk (Mscsi.Turn.sent_of_good hg) hp
      refine (near_more hl).2 ⟨fun _ => hlt, fun _ => ?_⟩
      have hone := (Moves.last hcall hblk le_rfl (fun _ => hlt) (fun _ => rfl)).whole
        (by simpa using hcall.success.2 hg)
      rw [flatMap_singleton] at hone
      rw [hone] at hp
      have hm : maxBlk ≤ m := by
        have := ((prefix_append _ _).trans hp).length_le
        simpa only [length_range'] using this
      obtain ⟨k, rfl⟩ : ∃ k, m = maxBlk + k := ⟨m - maxBlk, by omega⟩
      rw [← range'_append_1, prefix_append_right_inj] at hp
      exact ih _ (by omega) hp
    · rw [pieces_bad op buf start length data hl hg] at hp
      refine (near_more hl).2 ⟨fun hs => ?_, fun h => absurd h hg⟩
      exact start_lt hcall hblk hs hp
  · by_cases hpos : 0 < length
    · have hcall := diskRw_callOf op (turns 0) buf (start % Word32.modulus) data (not_lt.1 hl)
      rw [pieces_last op buf start length data hl hpos] at hp
      exact (near_last hl hpos).2 fun hs => start_lt hcall hpos hs hp
    · intro i hi
      omega

/-! ## A whole request -/

/-- The length of a request, clipped to the partition. -/
def clipped (part : DiskPart) (ior : IoReq) : ℕ :=
  min (ior.count.toNat / recSize) (part.length - ior.recnum)

theorem clipped_le (part : DiskPart) (ior : IoReq) :
    recSize * clipped part ior ≤ ior.count.toNat := by
  simp only [clipped, recSize]
  omega

/-- A request that is cut into pieces: as the driver compares, more than `maxBlk` blocks. -/
def Large (part : DiskPart) (ior : IoReq) : Prop :=
  maxBlk < unsigned (ior.count / recSize) ∧
    (part.length < Word32.add ior.recnum (unsigned (ior.count / recSize)) →
      maxBlk < part.length - ior.recnum)

theorem large_iff (part : DiskPart) (ior : IoReq) :
    maxBlk < (adjust part ior).2 ↔ Large part ior := by
  simp only [adjust, Large, gt_iff_lt]
  split
  · rename_i h
    have := unsigned_lt (ior.count / recSize)
    have hadd : Word32.add ior.recnum (unsigned (ior.count / recSize))
        ≤ ior.recnum + unsigned (ior.count / recSize) := Nat.mod_le _ _
    constructor
    · exact fun hl => ⟨by omega, fun _ => hl⟩
    · exact fun hl => hl.2 h
  · rename_i h
    exact ⟨fun hl => ⟨hl, fun h' => absurd h' h⟩, fun hl => hl.1⟩

section Adjust

variable {part : DiskPart} {ior : IoReq}

theorem adjust_fst : ∃ count, (adjust part ior).1 = { ior with count := count } := by
  simp only [adjust]
  split
  · exact ⟨_, rfl⟩
  · exact ⟨ior.count, rfl⟩

theorem adjust_inband (part : DiskPart) (ior : IoReq) :
    (adjust part ior).1.inband = ior.inband := by
  obtain ⟨count, h⟩ := @adjust_fst part ior
  rw [h]

theorem adjust_count (hl : -2 ^ 31 ≤ ior.count) (hu : ior.count < 2 ^ 31)
    (hdvd : ior.count % recSize = 0) :
    (adjust part ior).1.count = long ((adjust part ior).2 * recSize) := by
  simp only [adjust]
  split
  · rw [long_mod]
  · refine (long_of_emod ?_ hl hu).symm
    have hm : (Word32.modulus : ℤ) = 4294967296 := by exact_mod_cast Word32.modulus_eq
    have hn := unsigned_emod (ior.count / recSize)
    rw [Nat.cast_mul, hm, hn, hm]
    simp only [recSize, Nat.cast_ofNat] at *
    omega

theorem adjust_clipped (hpos : 0 ≤ ior.count) (hu : ior.count < 2 ^ 31)
    (hrec : ior.recnum < part.length) (hnear : part.offset + ior.recnum < 2 ^ 21) :
    (adjust part ior).2 = clipped part ior := by
  have hn := unsigned_of_nonneg (x := ior.count / recSize) (by simp only [recSize]; omega)
    (by simp only [recSize]; omega)
  have hadd : Word32.add ior.recnum (unsigned (ior.count / recSize))
      = ior.recnum + unsigned (ior.count / recSize) :=
    Word32.add_of_lt (by rw [Word32.modulus_eq]; simp only [recSize, Nat.cast_ofNat] at *; omega)
  simp only [adjust, clipped, hadd]
  split <;> simp only [recSize, Nat.cast_ofNat] at * <;> omega

theorem adjust_eq_zero (hl : -2 ^ 31 ≤ ior.count) (hu : ior.count < 2 ^ 31)
    (hdvd : ior.count % recSize = 0) (hrec : ior.recnum < part.length) :
    (adjust part ior).2 = 0 ↔ ior.count = 0 := by
  have hm : (Word32.modulus : ℤ) = 4294967296 := by exact_mod_cast Word32.modulus_eq
  have hn := unsigned_emod (ior.count / recSize)
  have hadd : Word32.add ior.recnum 0 ≤ ior.recnum := Nat.mod_le _ _
  rw [hm] at hn
  simp only [adjust]
  split
  · rename_i hgt
    refine ⟨fun h => absurd h (by simp only; omega), fun h => ?_⟩
    have hz : unsigned (ior.count / recSize) = 0 := by
      simp only [recSize, Nat.cast_ofNat] at *
      omega
    rw [hz] at hgt
    omega
  · simp only [recSize, Nat.cast_ofNat] at *
    omega

end Adjust

/-- What a transfer relies on in a request that has been adjusted and given its memory. -/
structure Ready (part : DiskPart) (ior ior' : IoReq) : Prop where
  recnum : ior'.recnum = ior.recnum
  data : ior'.data = 0
  residual : ior'.residual = 0
  count : ior'.count = long ((adjust part ior).2 * recSize)
  room : 0 ≤ ior.count → ior'.count ≤ ior.count → ior'.count ≤ held ior'
  lower : -2 ^ 31 ≤ ior.count
  upper : ior.count < 2 ^ 31
  dvd : ior.count % recSize = 0
  lt : ior.recnum < part.length

section Transfer

variable {part : DiskPart} {env : Env} {ior ior' : IoReq}

theorem Ready.start (h : Ready part ior ior') : Word32.add ior'.recnum part.offset
    = (part.offset + ior.recnum) % Word32.modulus := by
  rw [h.recnum, Word32.add, Nat.add_comm]

theorem transfer_pieces (env : Env) (h : Ready part ior ior') (hl : maxBlk < (adjust part ior).2) :
    ∃ out, transfer part env ior' (adjust part ior).2 [] = out ∧
      out.calls = (pieces ior'.op ior'.buf env.turns
        ((part.offset + ior.recnum) % Word32.modulus) (adjust part ior).2 0).1 ∧
      out.ior.residual = residualOf 0 (pieces ior'.op ior'.buf env.turns
        ((part.offset + ior.recnum) % Word32.modulus) (adjust part ior).2 0).2 ∧
      out.ior.count = ior'.count ∧ out.ior.buf = ior'.buf ∧ out.ior.data = 0 ∧
      held out.ior = held ior' ∧ out.stores = [] := by
  refine ⟨_, rfl, ?_⟩
  simp only [transfer, if_pos hl, h.start, h.data, h.residual]
  exact ⟨trivial, trivial, trivial, trivial, trivial, rfl, trivial⟩

theorem transfer_call (env : Env) (h : Ready part ior ior') (hl : ¬maxBlk < (adjust part ior).2) :
    ∃ out call, transfer part env ior' (adjust part ior).2 [] = out ∧ out.calls = [call] ∧
      CallOf (env.turns 0) ior'.buf ((part.offset + ior.recnum) % Word32.modulus)
        (adjust part ior).2 0 call ∧
      out.ior.residual = 0 ∧ out.ior.count = ior'.count ∧ out.ior.buf = ior'.buf ∧
      out.ior.data = 0 ∧ held out.ior = held ior' ∧ out.stores = [] := by
  have hcount : ior'.count = 512 * ((adjust part ior).2 : ℤ) := by
    rw [h.count, long_of_lt (by simp only [recSize, maxBlk] at *; omega)]
    push_cast
    ring
  refine ⟨_, scsiCmd (env.turns 0).bus { ior' with recnum := Word32.add ior'.recnum part.offset },
    rfl, ?_⟩
  have hcall := @scsiCmd_callOf (env.turns 0)
    { ior' with recnum := Word32.add ior'.recnum part.offset } (adjust part ior).2 hcount
    (not_lt.1 hl)
  simp only [transfer, if_neg hl]
  refine ⟨rfl, ?_, h.residual, trivial, trivial, h.data, rfl, trivial⟩
  simpa only [h.start, h.data] using hcall

theorem Moves.exact {out : Transfer} {buf : Buffer} {length : ℕ} {left : Option ℕ}
    (hmoves : Moves buf (part.offset + ior.recnum) length 0 out.calls left)
    (hbuf : out.ior.buf = buf)
    (hclip : length = clipped part ior) (hheld : recSize * length ≤ held out.ior)
    (hcount : out.ior.count = recSize * length) (hdata : out.ior.data = 0)
    (hresidual : out.ior.residual = recSize * left.getD 0) (hstores : out.stores = []) :
    Exact part ior out := by
  have hasked : asked part ior out = length := by
    rw [asked, hdata, ← clipped, ← hclip]
    simp only [recSize] at *
    omega
  refine ⟨?_, ?_, ?_, ?_, ?_, hstores, hmoves.noPanic⟩
  · rw [hasked]; exact hmoves.inOrder
  · rw [hasked]; exact hmoves.whole
  · rw [hdata, hbuf]; exact hmoves.placed
  · intro call hc
    have := hmoves.inMemory call hc
    omega
  · have := hmoves.counted
    rw [hcount, hresidual, ← mul_sub, ← this, Nat.cast_add, add_sub_cancel_right, movedBlocks]

end Transfer

/-- The single transfer `i` of a request is tried: all before it are good. -/
def Tried (part : DiskPart) (env : Env) (ior : IoReq) (i : ℕ) : Prop :=
  (i = 0 ∨ maxBlk * i < clipped part ior) ∧ ∀ j < i, (env.turns j).good

/-- The single transfers of a request can all be told to the target and accounted for. -/
structure InReach (part : DiskPart) (env : Env) (ior : IoReq) : Prop where
  near : ∀ i, Tried part env ior i → (env.turns i).sent →
    0 < ior.count ∧ part.offset + ior.recnum + maxBlk * i < 2 ^ 21
  told : ior.count = 0 ∨ (env.turns 0).good ∨ Large part ior

section Transfer

variable {part : DiskPart} {env : Env} {ior ior' : IoReq}

theorem residualOf_eq {left : Option ℕ} (h : recSize * left.getD 0 < 2 ^ 31) :
    residualOf 0 left = recSize * left.getD 0 := by
  cases left with
  | none => simp [residualOf]
  | some left =>
    rw [residualOf, long_mod, Nat.mul_comm, long_of_lt (by simpa using h), Nat.cast_mul]
    rfl

theorem InReach.length_eq (h : InReach part env ior) (hr : Ready part ior ior')
    (hs : (env.turns 0).sent) : 0 < ior.count ∧ part.offset + ior.recnum < 2 ^ 21 ∧
      (adjust part ior).2 = clipped part ior ∧ 0 < clipped part ior := by
  obtain ⟨hpos, hlt⟩ := h.near 0 ⟨Or.inl rfl, by simp⟩ hs
  have hclip := adjust_clipped hpos.le hr.upper hr.lt (by omega)
  have hz := mt (adjust_eq_zero hr.lower hr.upper hr.dvd hr.lt).1 (by omega)
  exact ⟨hpos, by omega, hclip, by omega⟩

theorem Ready.count_eq (h : Ready part ior ior') (hpos : 0 < ior.count)
    (hlen : (adjust part ior).2 = clipped part ior) :
    ior'.count = recSize * (adjust part ior).2 ∧ recSize * (adjust part ior).2 ≤ held ior' := by
  have hle : recSize * (adjust part ior).2 ≤ ior.count.toNat := hlen ▸ clipped_le part ior
  have hu := h.upper
  have hcount : ior'.count = recSize * (adjust part ior).2 := by
    rw [h.count, long_of_lt (by rw [Nat.mul_comm]; omega), Nat.mul_comm, Nat.cast_mul]
  have := h.room hpos.le (by rw [hcount, ← Nat.cast_mul]; omega)
  rw [hcount, ← Nat.cast_mul] at this
  exact ⟨hcount, by omega⟩

theorem exact_of_sent (hr : Ready part ior ior') (h : InReach part env ior)
    (hs : (env.turns 0).sent) : Exact part ior (transfer part env ior' (adjust part ior).2 []) := by
  obtain ⟨hpos, hlt, hlen, hclip⟩ := h.length_eq hr hs
  obtain ⟨hcount, hheld⟩ := hr.count_eq hpos hlen
  have hnear : Near env.turns (part.offset + ior.recnum) (adjust part ior).2 :=
    fun i hi hgood hsi => (h.near i ⟨Or.inr (hlen ▸ hi), hgood⟩ hsi).2
  by_cases hl : maxBlk < (adjust part ior).2
  · obtain ⟨out, hout, hcalls, hres, hct, hbuf, hdata, hhd, hst⟩ :=
      transfer_pieces env hr hl
    have hm := @pieces_moves ior'.op ior'.buf _ _ _ 0 (by omega) hnear
    rw [hout]
    rw [← hcalls] at hm
    have hleft := hm.counted
    refine Moves.exact hm hbuf hlen (hhd ▸ hheld) (hct.trans hcount) hdata ?_ hst
    rw [hres, residualOf_eq]
    have hu := hr.upper
    have hclip' := clipped_le part ior
    simp only [recSize] at hclip' ⊢
    omega
  · obtain ⟨out, call, hout, hcalls, hcall, hres, hct, hbuf, hdata, hhd, hst⟩ :=
      transfer_call env hr hl
    have hgood : (env.turns 0).good := by
      rcases h.told with h0 | hg | hlarge
      · omega
      · exact hg
      · exact absurd ((large_iff part ior).2 hlarge) hl
    have hm := Moves.last hcall (by omega) le_rfl (fun _ => hlt) (fun _ => rfl)
    rw [hout]
    rw [← hcalls] at hm
    refine hm.exact hbuf hlen (hhd ▸ hheld) (hct.trans hcount) hdata ?_ hst
    simpa [hgood] using hres

theorem Exact.of_unsent {out : Transfer} {turn : Mscsi.Turn} {buf : Buffer} {recnum n : ℕ} {call : Call}
    (hcalls : out.calls = [call]) (h : CallOf turn buf recnum n 0 call) (hs : ¬turn.sent)
    (hcount : out.ior.count = out.ior.residual) (hstores : out.stores = []) :
    Exact part ior out := by
  have hsent : ¬call.sent := h.sent ▸ hs
  have hg : call.result ≠ .success := fun hg => hs (Mscsi.Turn.sent_of_good (h.success.1 hg))
  refine ⟨?_, ?_, ?_, ?_, ?_, hstores, ?_⟩ <;> rw [hcalls]
  · simp [callBlocks, hsent]
  · simp [hg]
  · simp [hsent]
  · simp [h.unsent (by simpa using hs), h.data]
  · simp [hg, hcount]
  · simpa using h.panics

theorem pieces_unsent (op : IoOp) (buf : Buffer) {turns : ℕ → Mscsi.Turn} (start length data : ℕ)
    (hl : maxBlk < length) (hs : ¬(turns 0).sent) :
    ∃ call, pieces op buf turns (start % Word32.modulus) length data = ([call], some length) ∧
      CallOf (turns 0) buf (start % Word32.modulus) maxBlk data call :=
  ⟨_, pieces_bad op buf start length data hl (mt Mscsi.Turn.sent_of_good hs),
    diskRw_callOf op (turns 0) buf (start % Word32.modulus) data le_rfl⟩

theorem exact_of_unsent (hr : Ready part ior ior') (h : InReach part env ior)
    (hs : ¬(env.turns 0).sent) :
    Exact part ior (transfer part env ior' (adjust part ior).2 []) := by
  by_cases hl : maxBlk < (adjust part ior).2
  · obtain ⟨out, hout, hcalls, hres, hct, -, -, -, hst⟩ := transfer_pieces env hr hl
    obtain ⟨call, hp, hcall⟩ := pieces_unsent ior'.op ior'.buf
      (part.offset + ior.recnum) (adjust part ior).2 0 hl hs
    rw [hp] at hcalls hres
    refine hout ▸ Exact.of_unsent hcalls hcall hs ?_ hst
    rw [hct, hres, hr.count, residualOf, long_mod]
  · obtain ⟨out, call, hout, hcalls, hcall, hres, hct, -, -, -, hst⟩ :=
      transfer_call env hr hl
    have hzero : ior.count = 0 := by
      rcases h.told with h0 | hg | hlarge
      · exact h0
      · exact absurd (Mscsi.Turn.sent_of_good hg) hs
      · exact absurd ((large_iff part ior).2 hlarge) hl
    refine hout ▸ Exact.of_unsent hcalls hcall hs ?_ hst
    rw [hct, hres, hr.count, (adjust_eq_zero hr.lower hr.upper hr.dvd hr.lt).2 hzero]
    rfl

theorem asked_pos {out : Transfer} {turn : Mscsi.Turn} {buf : Buffer} {recnum n data : ℕ}
    {call : Call} (h : Exact part ior out) (hcall : CallOf turn buf recnum n data call)
    (hs : turn.sent) (hmem : call ∈ out.calls) : 0 < ior.count := by
  have hblk : call.cmd.first ∈ out.calls.flatMap callBlocks := by
    refine mem_flatMap.2 ⟨call, hmem, ?_⟩
    have := call.cmd.number_pos
    simp only [callBlocks, hcall.sent, hs, if_true, SCSICmdBlk.blocks, mem_range'_1]
    omega
  have := mem_range'_1.1 (h.inOrder.subset hblk)
  by_contra hneg
  have hz : ior.count.toNat = 0 := by omega
  simp only [asked, hz, recSize] at this
  omega

theorem pieces_head (op : IoOp) (buf : Buffer) {turns : ℕ → Mscsi.Turn} (start length data : ℕ)
    (hl : maxBlk < length) : ∃ call ∈ (pieces op buf turns (start % Word32.modulus) length data).1,
      CallOf (turns 0) buf (start % Word32.modulus) maxBlk data call := by
  refine ⟨_, ?_, diskRw_callOf op (turns 0) buf (start % Word32.modulus) data le_rfl⟩
  by_cases hg : (turns 0).good
  · simp [pieces_good op buf start length data hl hg]
  · simp [pieces_bad op buf start length data hl hg]

theorem inReach_of_exact (hr : Ready part ior ior')
    (h : Exact part ior (transfer part env ior' (adjust part ior).2 [])) :
    InReach part env ior := by
  by_cases hl : maxBlk < (adjust part ior).2
  · obtain ⟨out, hout, hcalls, -⟩ := transfer_pieces env hr hl
    rw [hout] at h
    have hnear : Near env.turns (part.offset + ior.recnum) (adjust part ior).2 := by
      have := h.inOrder
      rw [hcalls] at this
      exact near_of_prefix _ _ this
    refine ⟨fun i ⟨hi, hgood⟩ hs => ?_, Or.inr (Or.inr ((large_iff part ior).1 hl))⟩
    have hs0 : (env.turns 0).sent := by
      cases i with
      | zero => exact hs
      | succ i => exact Mscsi.Turn.sent_of_good (hgood 0 (by omega))
    obtain ⟨call, hmem, hcall⟩ := @pieces_head ior'.op ior'.buf env.turns
      (part.offset + ior.recnum) (adjust part ior).2 0 hl
    have hpos := asked_pos h hcall hs0 (hcalls ▸ hmem)
    have hlt : part.offset + ior.recnum < 2 ^ 21 := by
      simpa using hnear 0 (by omega) (by simp) hs0
    have hclip := adjust_clipped hpos.le hr.upper hr.lt hlt
    refine ⟨hpos, hnear i ?_ hgood hs⟩
    rcases hi with rfl | hi
    · omega
    · exact hclip ▸ hi
  · obtain ⟨out, call, hout, hcalls, hcall, hres, hct, hbuf, -, -, -⟩ :=
      transfer_call env hr hl
    rw [hout] at h
    have hz := adjust_eq_zero hr.lower hr.upper hr.dvd hr.lt
    have hfirst : (env.turns 0).sent → 0 < ior.count ∧ part.offset + ior.recnum < 2 ^ 21 := by
      intro hs
      have hpos := asked_pos h hcall hs (by simp [hcalls])
      have hlen := mt hz.1 hpos.ne'
      have hp := h.inOrder
      rw [hcalls] at hp
      exact ⟨hpos, start_lt hcall (by omega) hs hp⟩
    refine ⟨fun i ⟨hi, hgood⟩ hs => ?_, ?_⟩
    · have hs0 : (env.turns 0).sent := by
        cases i with
        | zero => exact hs
        | succ i => exact Mscsi.Turn.sent_of_good (hgood 0 (by omega))
      obtain ⟨hpos, hlt⟩ := hfirst hs0
      have hclip := adjust_clipped hpos.le hr.upper hr.lt hlt
      obtain rfl : i = 0 := by
        rcases hi with hi | hi
        · exact hi
        · rw [← hclip] at hi
          simp only [maxBlk] at *
          omega
      exact ⟨hpos, by omega⟩
    · by_cases hg : (env.turns 0).good
      · exact Or.inr (Or.inl hg)
      · refine Or.inl (hz.1 ?_)
        have hcounted := h.counted
        have hbad : call.result ≠ .success := mt hcall.success.1 hg
        rw [hcalls, hct, hres, hr.count,
          long_of_lt (by simp only [recSize, maxBlk] at *; omega)] at hcounted
        simp [hbad] at hcounted
        omega

theorem transfer_exact_iff (hr : Ready part ior ior') :
    Exact part ior (transfer part env ior' (adjust part ior).2 []) ↔ InReach part env ior := by
  refine ⟨inReach_of_exact hr, fun h => ?_⟩
  by_cases hs : (env.turns 0).sent
  · exact exact_of_sent hr h hs
  · exact exact_of_unsent hr h hs

end Transfer

theorem roundPage_ge {n : ℕ} (h : n < 2 ^ 31) : n ≤ roundPage n := by
  have hadd : Word32.add n (pgbytes - 1) = n + (pgbytes - 1) :=
    Word32.add_of_lt (by rw [Word32.modulus_eq]; simp only [pgbytes]; omega)
  rw [roundPage, hadd]
  simp only [pgbytes]
  omega

/-- The requests whose data is not in a page list. -/
def Request.inline : Request → Bool
  | .write .. => false
  | _ => true

theorem Request.count_bounds (request : Request) :
    -2 ^ 31 ≤ request.ior.count ∧ request.ior.count < 2 ^ 31 := by
  cases request with
  | readInband recnum bytesWanted =>
    have h := long_eq bytesWanted
    simp only [ior, inbandMax]
    split <;> omega
  | read recnum bytesWanted => simpa only [ior] using long_eq bytesWanted
  | writeInband recnum dataCount => simpa only [ior] using long_eq dataCount
  | write recnum dataCount => simpa only [ior] using long_eq dataCount

theorem readInband_count {recnum bytesWanted : ℕ}
    (hdvd : (readInband recnum bytesWanted).ior.count % recSize = 0) :
    (readInband recnum bytesWanted).ior.count = 0 := by
  have hm := Word32.modulus_eq
  simp only [ior, inbandMax, recSize] at *
  split at hdvd
  · rename_i h
    rw [if_pos h, ← long_mod] at *
    rw [long_of_lt (by omega)] at *
    omega
  · omega

section Requests

variable {part : DiskPart} {env : Env} {request : Request}

theorem Request.run_write (h : request.ior.op = .write) :
    request.run part env = sdWrite part env request.ior := by
  simp only [Request.run, h]

theorem Request.data_eq (request : Request) : request.ior.data = 0 := by
  cases request <;> rfl

theorem Request.residual_eq (h : request.inline) : request.ior.residual = 0 := by
  cases request with
  | write => cases h
  | _ => rfl

theorem Ready.of_request {ior' : IoReq} (hlt : request.ior.recnum < part.length)
    (hdvd : request.ior.count % recSize = 0) (hrec : ior'.recnum = request.ior.recnum)
    (hdata : ior'.data = 0) (hres : ior'.residual = 0)
    (hcount : ior'.count = (adjust part request.ior).1.count)
    (hroom : 0 ≤ request.ior.count → ior'.count ≤ request.ior.count → ior'.count ≤ held ior') :
    Ready part request.ior ior' := by
  obtain ⟨hl, hu⟩ := request.count_bounds
  exact ⟨hrec, hdata, hres, hcount.trans (adjust_count hl hu hdvd), hroom, hl, hu, hdvd, hlt⟩

theorem read_ready {ior' : IoReq} (hinline : request.inline) (hread : request.ior.op = .read)
    (hlt : request.ior.recnum < part.length) (hdvd : request.ior.count % recSize = 0)
    (halloc : deviceReadAlloc env.room (adjust part request.ior).1
      (adjust part request.ior).1.count = some ior') : Ready part request.ior ior' := by
  obtain ⟨hl, hu⟩ := request.count_bounds
  obtain ⟨c, hc⟩ := @adjust_fst part request.ior
  have hcount : (adjust part request.ior).1.count = c := by rw [hc]
  rw [hc] at halloc
  simp only [deviceReadAlloc] at halloc
  split_ifs at halloc with hzero hinband hroom
  · obtain rfl := Option.some.inj halloc
    refine Ready.of_request hlt hdvd rfl request.data_eq (request.residual_eq hinline)
      hcount.symm fun _ _ => ?_
    simp only [hzero]
    exact Int.natCast_nonneg _
  · cases request with
    | readInband recnum bytesWanted =>
      -- nothing fits into an element of the zone, so nothing was asked for
      have hz := (adjust_eq_zero hl hu hdvd hlt).2 (readInband_count hdvd)
      have := @adjust_count part _ hl hu hdvd
      rw [hcount, hz] at this
      exact absurd this hzero
    | read => cases hinband
    | writeInband => cases hread
    | write => cases hinline
  · obtain rfl := Option.some.inj halloc
    refine Ready.of_request hlt hdvd rfl rfl (request.residual_eq hinline)
      hcount.symm fun _ hle => ?_
    simp only [held] at hle ⊢
    rcases lt_or_ge c 0 with hneg | hpos
    · have := Int.natCast_nonneg (roundPage (unsigned c))
      omega
    · have hc31 : c < 2 ^ 31 := hle.trans_lt hu
      have hn := unsigned_of_nonneg hpos hc31
      have := roundPage_ge (n := unsigned c) (by omega)
      omega

theorem write_ready {recnum dataCount : ℕ}
    (hlt : (writeInband recnum dataCount).ior.recnum < part.length)
    (hdvd : (writeInband recnum dataCount).ior.count % recSize = 0) :
    Ready part (writeInband recnum dataCount).ior
      (adjust part (writeInband recnum dataCount).ior).1 := by
  obtain ⟨c, hc⟩ := @adjust_fst part (writeInband recnum dataCount).ior
  rw [hc]
  refine Ready.of_request hlt hdvd rfl rfl rfl (by rw [hc]) fun hpos hle => hle.trans ?_
  simp only [ior, held] at hpos ⊢
  omega

theorem exact_result {ior : IoReq} {out : Transfer} (result : Mscsi.IoReturn) :
    Exact part ior { out with result := result } ↔ Exact part ior out :=
  ⟨fun h => ⟨h.inOrder, h.whole, h.placed, h.inMemory, h.counted, h.noStore, h.noPanic⟩,
   fun h => ⟨h.inOrder, h.whole, h.placed, h.inMemory, h.counted, h.noStore, h.noPanic⟩⟩

theorem deviceWriteGet_stores (ior : IoReq) : (deviceWriteGet env ior).2 ≠ [] := by
  simp only [deviceWriteGet]
  split_ifs <;> simp

theorem transfer_stores (ior : IoReq) (length : ℕ) (stores : List ℕ) :
    (transfer part env ior length stores).stores = stores := by
  simp only [transfer]
  split <;> rfl

theorem sdRead_ok {ior : IoReq} {out : Transfer} (h : sdRead part env ior = .ok out) :
    ior.recnum < part.length ∧ ior.count % recSize = 0 ∧
      ∃ ior', deviceReadAlloc env.room (adjust part ior).1 (adjust part ior).1.count = some ior' ∧
        out = transfer part env ior' (adjust part ior).2 [] := by
  simp only [sdRead] at h
  split_ifs at h with hlt hdvd
  split at h
  · cases h
  · rename_i ior' halloc
    exact ⟨not_le.1 hlt, not_not.1 hdvd, ior', halloc, (Except.ok.inj h).symm⟩

theorem sdWrite_ok {ior : IoReq} {out : Transfer} (h : sdWrite part env ior = .ok out) :
    ior.recnum < part.length ∧ ior.count % recSize = 0 ∧ ∃ result, out = { transfer part env
        (if (adjust part ior).1.inband then ((adjust part ior).1, [])
          else deviceWriteGet env (adjust part ior).1).1 (adjust part ior).2
        (if (adjust part ior).1.inband then ((adjust part ior).1, [])
          else deviceWriteGet env (adjust part ior).1).2 with result := result } := by
  unfold sdWrite at h
  by_cases hlt : ior.recnum ≥ part.length
  · rw [if_pos hlt] at h
    cases h
  by_cases hdvd : ior.count % recSize ≠ 0
  · rw [if_neg hlt, if_pos hdvd] at h
    cases h
  rw [if_neg hlt, if_neg hdvd] at h
  exact ⟨not_le.1 hlt, not_not.1 hdvd, _, (Except.ok.inj h).symm⟩

end Requests

/-- A request whose data is inline, or is to be read, and whose transfers are in reach. -/
structure Fits (part : DiskPart) (env : Env) (request : Request) : Prop where
  inline : request.inline
  inReach : InReach part env request.ior

theorem read_exact_iff {part : DiskPart} {env : Env} {request : Request} {out : Transfer}
    (hinline : request.inline) (hop : request.ior.op = .read) (h : request.run part env = .ok out) :
    Exact part request.ior out ↔ InReach part env request.ior := by
  simp only [Request.run, hop] at h
  obtain ⟨hlt, hdvd, ior', halloc, rfl⟩ := sdRead_ok h
  exact transfer_exact_iff (read_ready hinline hop hlt hdvd halloc)

theorem sdWrite_exact_iff {part : DiskPart} {env : Env} {ior : IoReq} {out : Transfer}
    (hinband : ior.inband = true) (hready : Ready part ior (adjust part ior).1)
    (h : sdWrite part env ior = .ok out) : Exact part ior out ↔ InReach part env ior := by
  obtain ⟨-, -, result, rfl⟩ := sdWrite_ok h
  rw [exact_result, if_pos ((adjust_inband part ior).trans hinband)]
  exact transfer_exact_iff hready

theorem writeInband_exact_iff {part : DiskPart} {env : Env} {recnum dataCount : ℕ}
    {out : Transfer} (h : (writeInband recnum dataCount).run part env = .ok out) :
    Exact part (writeInband recnum dataCount).ior out ↔
      InReach part env (writeInband recnum dataCount).ior := by
  rw [run_write rfl] at h
  have hok := sdWrite_ok h
  exact sdWrite_exact_iff rfl (write_ready hok.1 hok.2.1) h

theorem write_not_exact {part : DiskPart} {env : Env} {request : Request} {out : Transfer}
    (hop : request.ior.op = .write) (hinband : request.ior.inband = false)
    (h : request.run part env = .ok out) : ¬Exact part request.ior out := by
  intro hexact
  rw [run_write hop] at h
  obtain ⟨-, -, result, rfl⟩ := sdWrite_ok h
  have hadjust : ¬(adjust part request.ior).1.inband = true := by
    rw [adjust_inband, hinband]
    exact Bool.false_ne_true
  have hstores := hexact.noStore
  simp only [transfer_stores, if_neg hadjust] at hstores
  exact absurd hstores (deviceWriteGet_stores _)

/-- A request is carried out exactly if and only if it fits. -/
theorem run_exact_iff (part : DiskPart) (env : Env) (request : Request) (out : Transfer)
    (h : request.run part env = .ok out) : Exact part request.ior out ↔ Fits part env request := by
  have hfits : ∀ hinline : request.inline, InReach part env request.ior ↔
      Fits part env request := fun hinline => ⟨fun h => ⟨hinline, h⟩, fun h => h.inReach⟩
  cases request with
  | read recnum bytesWanted => exact (read_exact_iff rfl rfl h).trans (hfits rfl)
  | readInband recnum bytesWanted => exact (read_exact_iff rfl rfl h).trans (hfits rfl)
  | writeInband recnum dataCount => exact (writeInband_exact_iff h).trans (hfits rfl)
  | write recnum dataCount copy residual loaned =>
    exact iff_of_false (write_not_exact rfl rfl h) fun hf => by cases hf.inline

/-- A disk that answers at once and without errors, and a kernel with room. -/
def quiet : Env := ⟨true, 0, 0, fun _ => ⟨false, .completes⟩⟩

def nearPart : DiskPart := ⟨10, 100, by norm_num, by norm_num⟩

theorem exists_run {part : DiskPart} {env : Env} {request : Request}
    (h : (request.run part env).isOk = true) : ∃ out, request.run part env = .ok out := by
  cases hrun : request.run part env with
  | error => rw [hrun] at h; cases h
  | ok out => exact ⟨out, rfl⟩

theorem run_exact_near : ∃ out, (Request.read 3 512).run nearPart quiet = .ok out ∧
    Exact nearPart (Request.read 3 512).ior out := by
  obtain ⟨out, h⟩ := @exists_run nearPart quiet (Request.read 3 512) (by decide +kernel)
  have hcount : (Request.read 3 512).ior.count = 512 := by decide +kernel
  refine ⟨out, h, (run_exact_iff _ _ _ _ h).2 ⟨rfl, fun i ⟨hi, _⟩ _ => ?_, Or.inr (Or.inl rfl)⟩⟩
  have hclip : clipped nearPart (Request.read 3 512).ior = 1 := by decide +kernel
  obtain rfl : i = 0 := by
    rw [hclip] at hi
    simp only [maxBlk] at hi
    omega
  exact ⟨by rw [hcount]; norm_num, by decide⟩

/-- A partition beyond the blocks that a six-byte command can name. -/
def farPart : DiskPart := ⟨2 ^ 21, 100, by norm_num, by norm_num⟩

theorem farRead_not_exact : ∃ out, (Request.read 0 512).run farPart quiet = .ok out ∧
    ¬Exact farPart (Request.read 0 512).ior out := by
  obtain ⟨out, h⟩ := @exists_run farPart quiet (Request.read 0 512) (by decide +kernel)
  refine ⟨out, h, fun hexact => ?_⟩
  have hblocks : ((Request.read 0 512).run farPart quiet).toOption.map
      (fun out => out.calls.flatMap callBlocks) = some [0] := by decide +kernel
  rw [h] at hblocks
  have hzero : out.calls.flatMap callBlocks = [0] := Option.some.inj hblocks
  have hfirst : 0 ∈ out.calls.flatMap callBlocks := hzero ▸ mem_singleton.2 rfl
  have := (mem_range'_1.1 (hexact.inOrder.subset hfirst)).1
  revert this
  decide

end MachKernel.Device.Sdisk
