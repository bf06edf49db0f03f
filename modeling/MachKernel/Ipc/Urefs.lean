import MachKernel.Ipc.EntryBits

/-! Bounds of the user-reference counts. -/

namespace MachKernel.Ipc
open IeBits Option

/-! ## What a word says -/

namespace IeBits
variable {b d m : BitVec 32}

def typeOf (b : BitVec 32) : PortType :=
  ⟨b.getLsbD 16, b.getLsbD 17, b.getLsbD 18, b.getLsbD 19, b.getLsbD 20⟩

/-- The bits of the types. -/
def ofType (t : PortType) : BitVec 32 :=
  (if t.send = true then send else 0) ||| (if t.receive = true then receive else 0) |||
    (if t.sendOnce = true then sendOnce else 0) ||| (if t.portSet = true then portSet else 0) |||
    if t.deadName = true then deadName else 0

/-- The user-reference count. -/
def count (b : BitVec 32) : ℕ := b.toNat % 2 ^ 16

variable {i : ℕ}

theorem and_bit (b : BitVec 32) (hm : m = BitVec.twoPow 32 i) :
    b &&& m = if b.getLsbD i = true then m else 0 := by
  rw [hm, BitVec.and_twoPow]
  rfl

theorem has_bit (b : BitVec 32) (hm : m = BitVec.twoPow 32 i) (hi : m ≠ 0) :
    has b m = b.getLsbD i := by
  rw [has, and_bit b hm]
  cases b.getLsbD i
  · rfl
  · simpa using hi

@[simp] theorem has_or (b m n : BitVec 32) : has b (m ||| n) = (has b m || has b n) := by
  unfold has
  rw [BitVec.and_or_distrib_left, Bool.eq_iff_iff]
  simp only [bne_iff_ne, ne_eq, BitVec.ofNat_eq_ofNat, BitVec.or_eq_zero_iff, Bool.or_eq_true]
  exact not_and_or

@[simp] theorem has_send (b : BitVec 32) : has b send = (typeOf b).send :=
  has_bit b (i := 16) (by decide) (by decide)
@[simp] theorem has_receive (b : BitVec 32) : has b receive = (typeOf b).receive :=
  has_bit b (i := 17) (by decide) (by decide)
@[simp] theorem has_sendOnce (b : BitVec 32) : has b sendOnce = (typeOf b).sendOnce :=
  has_bit b (i := 18) (by decide) (by decide)
@[simp] theorem has_deadName (b : BitVec 32) : has b deadName = (typeOf b).deadName :=
  has_bit b (i := 20) (by decide) (by decide)
@[simp] theorem has_marequest (b : BitVec 32) : has b marequest = b.getLsbD 21 :=
  has_bit b (i := 21) (by decide) (by decide)
@[simp] theorem has_compat (b : BitVec 32) : has b compat = b.getLsbD 22 :=
  has_bit b (i := 22) (by decide) (by decide)

theorem type_eq (b : BitVec 32) : type b = ofType (typeOf b) := by
  have hmask : typeMask = send ||| receive ||| sendOnce ||| portSet ||| deadName := by decide
  rw [type, hmask, BitVec.and_or_distrib_left, BitVec.and_or_distrib_left, BitVec.and_or_distrib_left,
    BitVec.and_or_distrib_left, and_bit b (i := 16) (by decide), and_bit b (i := 17) (by decide),
    and_bit b (i := 18) (by decide), and_bit b (i := 19) (by decide), and_bit b (i := 20) (by decide)]
  rfl

theorem typeOf_ofType (t : PortType) : typeOf (ofType t) = t := by
  obtain ⟨s, r, o, p, d⟩ := t
  revert s r o p d
  decide

theorem type_iff (b : BitVec 32) (t : PortType) : type b = ofType t ↔ typeOf b = t := by
  rw [type_eq]
  refine ⟨fun h => ?_, fun h => by rw [h]⟩
  rw [← typeOf_ofType (typeOf b), h, typeOf_ofType]

theorem type_none (b : BitVec 32) : type b = 0 ↔ typeOf b = .none := by
  rw [show (0 : BitVec 32) = ofType .none by decide, type_iff]

theorem type_deadName (b : BitVec 32) : type b = deadName ↔ typeOf b = .onlyDeadName := by
  rw [show deadName = ofType .onlyDeadName by decide, type_iff]

theorem toNat_urefs (b : BitVec 32) : (urefs b).toNat = count b := by
  rw [urefs, BitVec.toNat_and]
  exact Nat.and_two_pow_sub_one_eq_mod b.toNat 16

theorem count_lt (b : BitVec 32) : count b < 2 ^ 16 := Nat.mod_lt _ (by decide)

theorem urefs_eq (b : BitVec 32) {n : ℕ} (hn : n < 2 ^ 16) :
    urefs b = BitVec.ofNat 32 n ↔ count b = n := by
  rw [← BitVec.toNat_inj, toNat_urefs, BitVec.toNat_ofNat, Nat.mod_eq_of_lt (by omega)]

/-! What the expressions of the source do to the count and to the other bits. -/

theorem add_eq (b d : BitVec 32) (hlow : 0 ≤ (count b : ℤ) + d.toInt)
    (hhigh : (count b : ℤ) + d.toInt < 2 ^ 16) :
    (count (b + d) : ℤ) = count b + d.toInt ∧ (b + d).toNat / 2 ^ 16 = b.toNat / 2 ^ 16 := by
  unfold count at *
  rw [BitVec.toNat_add]
  have hb := b.isLt
  have hd := d.isLt
  have hint := BitVec.toInt_eq_toNat_cond d
  split_ifs at hint <;> omega

theorem getLsbD_congr {a b : BitVec 32} (h : a.toNat / 2 ^ 16 = b.toNat / 2 ^ 16)
    (hi : 16 ≤ i) : a.getLsbD i = b.getLsbD i := by
  obtain ⟨j, rfl⟩ := Nat.exists_eq_add_of_le hi
  have hbit := congrArg (fun n => n.testBit j) h
  simpa [BitVec.getLsbD, Nat.testBit_div_two_pow (n := 16), Nat.add_comm] using hbit

theorem count_andNot (b m : BitVec 32) (h : m &&& urefsMask = 0) : count (b &&& ~~~m) = count b := by
  rw [← toNat_urefs, ← toNat_urefs, urefs, urefs, BitVec.and_assoc]
  congr 2
  ext i hi
  have hbit := congrArg (fun x => x.getLsbD i) h
  simp only [BitVec.getLsbD_and, BitVec.getElem_and, BitVec.getElem_not] at hbit ⊢
  rw [BitVec.getLsbD_eq_getElem hi, BitVec.getLsbD_eq_getElem hi] at hbit
  cases hm : m[i] <;> cases hu : urefsMask[i] <;> simp_all

theorem count_or (b m : BitVec 32) (h : m &&& urefsMask = 0) : count (b ||| m) = count b := by
  rw [← toNat_urefs, ← toNat_urefs, urefs, urefs, BitVec.and_comm, BitVec.and_or_distrib_left,
    BitVec.and_comm _ m, h, BitVec.and_comm b]
  congr 1
  exact BitVec.or_zero

theorem count_or_of_zero (m : BitVec 32) (h : count b = 0) : count (b ||| m) = count m := by
  have hzero : b &&& urefsMask = 0 := (urefs_eq b (by decide)).mpr h
  rw [BitVec.or_comm, ← count_or m b hzero]

theorem count_andNot_urefs (b m : BitVec 32) (h : urefsMask &&& ~~~m = 0) :
    count (b &&& ~~~m) = 0 := by
  rw [← toNat_urefs, urefs, BitVec.and_assoc, BitVec.and_comm _ urefsMask, h]
  exact congrArg BitVec.toNat BitVec.and_zero

theorem underflow_iff (b d : BitVec 32) :
    machPortUrefsUnderflow (urefs b) d = true ↔ (count b : ℤ) + d.toInt < 0 := by
  have hlt := count_lt b
  have hd := d.isLt
  have hint := BitVec.toInt_eq_toNat_cond d
  simp only [machPortUrefsUnderflow, BitVec.slt, BitVec.ult, Bool.and_eq_true, decide_eq_true_eq,
    toNat_urefs, BitVec.toNat_neg]
  rw [show (0 : BitVec 32).toInt = 0 by decide]
  split_ifs at hint <;> omega

theorem overflow_iff {u : BitVec 32} (hu : u.toNat ≤ 2 ^ 16) (d : BitVec 32) :
    machPortUrefsOverflow u d = true ↔ 0 < d.toInt ∧ 2 ^ 16 - 1 < (u.toNat : ℤ) + d.toInt := by
  have hd := d.isLt
  have hint := BitVec.toInt_eq_toNat_cond d
  have hmax : machPortUrefsMax.toNat = 2 ^ 16 - 1 := by decide
  simp only [machPortUrefsOverflow, BitVec.slt, BitVec.ule, BitVec.ult, Bool.and_eq_true, Bool.or_eq_true,
    decide_eq_true_eq, BitVec.toNat_add, hmax]
  rw [show (0 : BitVec 32).toInt = 0 by decide]
  split_ifs at hint <;> omega

theorem sum_zero_iff (b d : BitVec 32) (hlow : 0 ≤ (count b : ℤ) + d.toInt) :
    urefs b + d = 0 ↔ (count b : ℤ) + d.toInt = 0 := by
  have hlt := count_lt b
  have hd := d.isLt
  have hint := BitVec.toInt_eq_toNat_cond d
  rw [← BitVec.toNat_inj, BitVec.toNat_add, toNat_urefs, show (0 : BitVec 32).toNat = 0 by rfl]
  split_ifs at hint <;> omega

end IeBits

namespace EntryWord

/-- What the entry says of its right. -/
def cap (e : EntryWord) : Capability :=
  ⟨typeOf e.ieBits, count e.ieBits, e.ieBits.getLsbD 21, e.ieBits.getLsbD 22, e.ieObject, e.ieRequest⟩

/-- An entry with a right. -/
def Ok (e : EntryWord) : Prop := e.cap.Valid ∧ e.cap.type ≠ .none

variable {e : EntryWord}

theorem typeOf_bits (e : EntryWord) : typeOf e.ieBits = e.cap.type := rfl
theorem count_bits (e : EntryWord) : count e.ieBits = e.cap.urefs := rfl
theorem marequest_bits (e : EntryWord) : e.ieBits.getLsbD 21 = e.cap.marequest := rfl
theorem compat_bits (e : EntryWord) : e.ieBits.getLsbD 22 = e.cap.compat := rfl

theorem type_iff (e : EntryWord) (t : PortType) : type e.ieBits = ofType t ↔ e.cap.type = t :=
  IeBits.type_iff _ _

theorem type_deadName (e : EntryWord) : type e.ieBits = deadName ↔ e.cap.type = .onlyDeadName :=
  IeBits.type_deadName _

theorem type_sendOnce (e : EntryWord) : type e.ieBits = sendOnce ↔ e.cap.type = .onlySendOnce := by
  rw [show sendOnce = ofType .onlySendOnce by decide, e.type_iff]

theorem type_send (e : EntryWord) : type e.ieBits = send ↔ e.cap.type = .onlySend := by
  rw [show send = ofType .onlySend by decide, e.type_iff]

theorem type_sendReceive (e : EntryWord) :
    type e.ieBits = send ||| receive ↔ e.cap.type = .sendReceive := by
  rw [show send ||| receive = ofType .sendReceive by decide, e.type_iff]

theorem type_none (e : EntryWord) : type e.ieBits = 0 ↔ e.cap.type = .none :=
  IeBits.type_none _

section
variable (bits : BitVec 32) (object : Option ℕ) (request : ℕ)

theorem cap_add {d : BitVec 32} (hlow : 0 ≤ (count bits : ℤ) + d.toInt)
    (hhigh : (count bits : ℤ) + d.toInt < 2 ^ 16) :
    (⟨bits + d, object, request⟩ : EntryWord).cap =
      { (⟨bits, object, request⟩ : EntryWord).cap with urefs := (count bits + d.toInt).toNat } := by
  obtain ⟨hcount, hdiv⟩ := add_eq bits d hlow hhigh
  simp only [cap, typeOf, Capability.mk.injEq, PortType.mk.injEq, and_true]
  refine ⟨⟨?_, ?_, ?_, ?_, ?_⟩, by omega, ?_, ?_⟩
  all_goals exact getLsbD_congr hdiv (by decide)

theorem cap_inc (h : count bits < 2 ^ 16 - 1) :
    (⟨bits + 1, object, request⟩ : EntryWord).cap =
      { (⟨bits, object, request⟩ : EntryWord).cap with urefs := count bits + 1 } := by
  have hone : (1 : BitVec 32).toInt = 1 := by decide
  rw [cap_add _ _ _ (by rw [hone]; omega) (by rw [hone]; omega), hone]
  rfl

variable {n : BitVec 32}

theorem cap_dec (hn : n.toNat ≤ count bits) :
    (⟨bits - n, object, request⟩ : EntryWord).cap =
      { (⟨bits, object, request⟩ : EntryWord).cap with urefs := count bits - n.toNat } := by
  have hlt := count_lt bits
  have hint : (-n).toInt = -n.toNat := by
    rw [BitVec.toInt_eq_toNat_cond, BitVec.toNat_neg]
    split_ifs <;> omega
  rw [BitVec.sub_eq_add_neg, cap_add _ _ _ (by rw [hint]; omega) (by rw [hint]; omega), hint,
    ← sub_eq_add_neg, Int.toNat_sub]

omit bits request in
/-- The word of a dead name, as a conversion makes it. -/
def deadWord (bits : BitVec 32) (request : ℕ) : EntryWord :=
  let bits := bits &&& ~~~typeMask ||| deadName
  ⟨if request ≠ 0 then bits + 1 else bits, none, 0⟩

theorem cap_deadWord (hroom : count bits < 2 ^ 16 - 1) :
    (deadWord bits request).cap =
      ⟨.onlyDeadName, if request ≠ 0 then count bits + 1 else count bits, bits.getLsbD 21,
        bits.getLsbD 22, none, 0⟩ := by
  have hcount : count (bits &&& ~~~typeMask ||| deadName) = count bits := by
    rw [count_or _ _ (by decide), count_andNot _ _ (by decide)]
  have hplain : (⟨bits &&& ~~~typeMask ||| deadName, none, 0⟩ : EntryWord).cap =
      ⟨.onlyDeadName, count bits, bits.getLsbD 21, bits.getLsbD 22, none, 0⟩ := by
    simp only [cap, Capability.mk.injEq, and_true]
    refine ⟨?_, hcount, ?_, ?_⟩
    all_goals simp [typeOf, typeMask, deadName, PortType.onlyDeadName]
  unfold deadWord
  dsimp only
  split_ifs
  · rw [cap_inc _ _ _ (by rw [hcount]; exact hroom), hplain, hcount]
  · exact hplain

theorem cap_clearSend :
    (⟨bits &&& ~~~(urefsMask ||| send), object, request⟩ : EntryWord).cap =
      { (⟨bits, object, request⟩ : EntryWord).cap with
        type := { typeOf bits with send := false }, urefs := 0 } := by
  simp only [cap, Capability.mk.injEq, and_true]
  refine ⟨?_, count_andNot_urefs _ _ (by decide), ?_, ?_⟩
  all_goals simp [typeOf, urefsMask, send]

theorem cap_clearReceive :
    (⟨bits &&& ~~~receive, object, request⟩ : EntryWord).cap =
      { (⟨bits, object, request⟩ : EntryWord).cap with
        type := { typeOf bits with receive := false } } := by
  simp only [cap, Capability.mk.injEq, and_true]
  refine ⟨?_, count_andNot _ _ (by decide), ?_, ?_⟩
  all_goals simp [typeOf, receive]

theorem cap_clearSendOnce :
    (⟨bits &&& ~~~sendOnce, object, request⟩ : EntryWord).cap =
      { (⟨bits, object, request⟩ : EntryWord).cap with
        type := { typeOf bits with sendOnce := false } } := by
  simp only [cap, Capability.mk.injEq, and_true]
  refine ⟨?_, count_andNot _ _ (by decide), ?_, ?_⟩
  all_goals simp [typeOf, sendOnce]

theorem cap_clearDeadName :
    (⟨bits &&& ~~~deadName, object, request⟩ : EntryWord).cap =
      { (⟨bits, object, request⟩ : EntryWord).cap with
        type := { typeOf bits with deadName := false } } := by
  simp only [cap, Capability.mk.injEq, and_true]
  refine ⟨?_, count_andNot _ _ (by decide), ?_, ?_⟩
  all_goals simp [typeOf, deadName]

theorem cap_setReceive :
    (⟨bits ||| receive, object, request⟩ : EntryWord).cap =
      { (⟨bits, object, request⟩ : EntryWord).cap with
        type := { typeOf bits with receive := true } } := by
  simp only [cap, Capability.mk.injEq, and_true]
  refine ⟨?_, count_or _ _ (by decide), ?_, ?_⟩
  all_goals simp [typeOf, receive]

theorem cap_setSend :
    (⟨bits ||| send, object, request⟩ : EntryWord).cap =
      { (⟨bits, object, request⟩ : EntryWord).cap with
        type := { typeOf bits with send := true } } := by
  simp only [cap, Capability.mk.injEq, and_true]
  refine ⟨?_, count_or _ _ (by decide), ?_, ?_⟩
  all_goals simp [typeOf, send]

theorem cap_setMarequest :
    (⟨bits ||| marequest, object, request⟩ : EntryWord).cap =
      { (⟨bits, object, request⟩ : EntryWord).cap with marequest := true } := by
  simp only [cap, Capability.mk.injEq, and_true]
  refine ⟨?_, count_or _ _ (by decide), ?_, ?_⟩
  all_goals simp [typeOf, marequest]

theorem cap_clearMarequest :
    (⟨bits &&& ~~~marequest, object, request⟩ : EntryWord).cap =
      { (⟨bits, object, request⟩ : EntryWord).cap with marequest := false } := by
  simp only [cap, Capability.mk.injEq, and_true]
  refine ⟨?_, count_andNot _ _ (by decide), ?_, ?_⟩
  all_goals simp [typeOf, marequest]

theorem cap_clearCompat :
    (⟨bits &&& ~~~compat, object, request⟩ : EntryWord).cap =
      { (⟨bits, object, request⟩ : EntryWord).cap with compat := false } := by
  simp only [cap, Capability.mk.injEq, and_true]
  refine ⟨?_, count_andNot _ _ (by decide), ?_, ?_⟩
  all_goals simp [typeOf, compat]

theorem count_fresh (gen : BitVec 32) : count (fresh gen).ieBits = 0 :=
  count_andNot_urefs _ _ (by decide)

theorem cap_rename (gen : BitVec 32) :
    (⟨(fresh gen).ieBits ||| (bits &&& rightMask), object, request⟩ : EntryWord).cap =
      (⟨bits, object, request⟩ : EntryWord).cap := by
  simp only [cap, Capability.mk.injEq, and_true]
  refine ⟨?_, ?_, ?_, ?_⟩
  · simp [typeOf, fresh, rightMask]
  · rw [count_or_of_zero _ (count_fresh gen), ← toNat_urefs, ← toNat_urefs, urefs, urefs,
      BitVec.and_assoc, show rightMask &&& urefsMask = urefsMask by decide]
  all_goals simp [fresh, rightMask]

theorem cap_undo (hn : n = 1 ∨ n = 2) :
    (⟨bits &&& ~~~rightMask ||| deadName ||| n, object, request⟩ : EntryWord).cap =
      ⟨.onlyDeadName, n.toNat, false, false, object, request⟩ := by
  have hcount : count (bits &&& ~~~rightMask ||| deadName) = 0 := by
    rw [count_or _ _ (by decide), count_andNot_urefs _ _ (by decide)]
  rcases hn with rfl | rfl
  all_goals
    simp only [cap, Capability.mk.injEq, and_true]
    refine ⟨?_, count_or_of_zero _ hcount, ?_, ?_⟩
    all_goals simp [typeOf, rightMask, deadName, PortType.onlyDeadName]

end

/-! ## The check -/

theorem Ok.types (h : e.Ok) (hsends : e.cap.type.sendRights = true) :
    (e.cap.type = .onlySend ∨ e.cap.type = .sendReceive) ∧ 0 < e.cap.urefs ∧
        (e.cap.urefs : ℤ) < urefsMax ∨
      e.cap.type = .onlySendOnce ∧ e.cap.urefs = 1 ∧ e.cap.marequest = false := by
  cases h.1 with
  | send htype hpos hroom => exact .inl ⟨htype, hpos, hroom⟩
  | sendOnce htype hone hm => exact .inr ⟨htype, hone, hm⟩
  | none htype | receive htype | portSet htype | deadName htype =>
    rw [htype] at hsends
    cases hsends

theorem Ok.deadName_type (h : e.Ok) (hdead : e.cap.type.deadName = true) :
    e.cap.type = .onlyDeadName := by
  cases h.1 with
  | deadName htype => exact htype
  | send htype =>
    rcases htype with htype | htype <;> rw [htype] at hdead <;> cases hdead
  | none htype | receive htype | portSet htype | sendOnce htype =>
    rw [htype] at hdead
    cases hdead

theorem Ok.receive_type (h : e.Ok) (hrecv : e.cap.type.receive = true) :
    e.cap.type = .onlyReceive ∧ e.cap.urefs = 0 ∨ e.cap.type = .sendReceive := by
  cases h.1 with
  | receive htype hzero => exact .inl ⟨htype, hzero⟩
  | send htype =>
    rcases htype with htype | htype
    · rw [htype] at hrecv
      cases hrecv
    · exact .inr htype
  | none htype | deadName htype | portSet htype | sendOnce htype =>
    rw [htype] at hrecv
    cases hrecv

theorem Ok.sendOnce_type (h : e.Ok) (honce : e.cap.type.sendOnce = true) :
    e.cap.type = .onlySendOnce := by
  rcases h.types (by unfold PortType.sendRights; rw [honce, Bool.or_true]) with ⟨htype, -⟩ | ⟨htype, -⟩
  · rcases htype with htype | htype <;> rw [htype] at honce <;> cases honce
  · exact htype

theorem Ok.send_type (h : e.Ok) (hsend : e.cap.type.send = true) :
    e.cap.type = .onlySend ∨ e.cap.type = .sendReceive := by
  rcases h.types (by unfold PortType.sendRights; rw [hsend]; rfl) with ⟨htype, -⟩ | ⟨htype, -⟩
  · exact htype
  · rw [htype] at hsend
    cases hsend

theorem check_false (e : EntryWord) : (e.ipcRightCheck false).1 = true := by
  unfold ipcRightCheck
  rw [if_neg (by simp), apply_ite Prod.fst, ite_self]

/-- What `ipc_right_check` finds: a port that is alive, a compat entry that it destroys, or an entry
that it makes a dead name. -/
theorem check_cases (alive : Bool) (h : e.Ok) (hsends : e.cap.type.sendRights = true) :
    e.ipcRightCheck alive = (false, some e) ∨
      (e.ipcRightCheck alive = (true, none) ∧ e.cap.compat = true) ∨
      ∃ b, e.ipcRightCheck alive = (true, some b) ∧
        (alive = false ∧ (e.ipcRightCheck false).2 = some b) ∧ e.cap.compat = false ∧ b.Ok ∧ b.cap =
          RightState.deadNameOf e.cap := by
  cases alive with
  | true => exact .inl rfl
  | false =>
    have hroom : 0 < e.cap.urefs ∧ (e.cap.urefs : ℤ) < urefsMax ∧
        (e.cap.marequest && !e.cap.type.send) = false := by
      rcases h.types hsends with ⟨htype, hpos, hroom⟩ | ⟨htype, hone, hm⟩
      · refine ⟨hpos, hroom, ?_⟩
        rcases htype with htype | htype <;> rw [htype] <;> simp [PortType.onlySend, PortType.sendReceive]
      · rw [hone, hm]
        exact ⟨one_pos, by decide, rfl⟩
    obtain ⟨hpos, hroom, hm⟩ := hroom
    -- the bits without a msg-accepted request
    obtain ⟨bits, hcheck, hcount, hcompat, hmarequest⟩ : ∃ bits,
        e.ipcRightCheck false = (if has bits compat = true then (true, none)
          else (true, some (deadWord bits e.ieRequest))) ∧
        count bits = e.cap.urefs ∧ bits.getLsbD 22 = e.cap.compat ∧ bits.getLsbD 21 = false := by
      by_cases hclear : e.cap.type.send = true ∧ e.cap.marequest = true
      · have hcap := cap_clearMarequest e.ieBits none 0
        refine ⟨e.ieBits &&& ~~~marequest, ?_, congrArg Capability.urefs hcap,
          congrArg Capability.compat hcap, congrArg Capability.marequest hcap⟩
        unfold ipcRightCheck
        simp only [has_send, has_marequest, typeOf_bits, marequest_bits]
        rw [if_neg (by simp), if_pos hclear.1, if_pos hclear.2]
        rfl
      · refine ⟨e.ieBits, ?_, rfl, rfl, ?_⟩
        · unfold ipcRightCheck
          simp only [has_send, has_marequest, typeOf_bits, marequest_bits]
          rw [if_neg (by simp)]
          by_cases hsend : e.cap.type.send = true
          · rw [if_pos hsend, if_neg fun hmar => hclear ⟨hsend, hmar⟩]
            rfl
          · rw [if_neg hsend]
            rfl
        · change e.cap.marequest = false
          by_contra hmar
          rw [show e.cap.marequest = true by simpa using hmar] at hm
          exact hclear ⟨by simpa using hm, by simpa using hmar⟩
    rw [has_compat, hcompat] at hcheck
    by_cases hc : e.cap.compat = true
    · rw [if_pos hc] at hcheck
      exact .inr (.inl ⟨hcheck, hc⟩)
    · rw [if_neg hc] at hcheck
      have hlt : e.cap.urefs < 2 ^ 16 - 1 := by
        have hmax : urefsMax = 2 ^ 16 - 1 := rfl
        omega
      have hc' : e.cap.compat = false := by simpa using hc
      have hcap : (deadWord bits e.ieRequest).cap = RightState.deadNameOf e.cap := by
        rw [cap_deadWord _ _ (by rw [hcount]; exact hlt), hcount, hmarequest, hcompat, hc']
        rfl
      refine .inr (.inr ⟨_, hcheck, ⟨rfl, congrArg Prod.snd hcheck⟩, hc', ⟨?_, ?_⟩, hcap⟩)
      · rw [hcap]
        refine .deadName rfl ?_ ?_ rfl rfl rfl rfl
        · unfold RightState.deadNameOf
          dsimp only
          split_ifs <;> omega
        · unfold RightState.deadNameOf
          dsimp only
          split_ifs <;> push_cast <;> omega
      · rw [hcap]
        exact (by decide : PortType.onlyDeadName ≠ PortType.none)

/-! ## The operations -/

/-- The entry itself, or the dead name that `ipc_right_check` makes of it when the port is dead. -/
def Base (alive : Bool) (e b : EntryWord) : Prop :=
  b = e ∨ e.cap.type.sendRights = true ∧ alive = false ∧ (e.ipcRightCheck false).2 = some b

/-- The count changes by an exact amount, and only when the operation succeeds; an operation that
finds the amount wrong leaves the entry alone. -/
structure Counts (b : EntryWord) (kr : Option KernReturn) (change : ℤ) (r : Option EntryWord) :
    Prop where
  ok : ∀ e', r = some e' → e'.Ok
  exact : ∀ e', r = some e' →
    (e'.cap.urefs : ℤ) = b.cap.urefs + if kr = some .success then change else 0
  unchanged : kr = some .urefsOverflow ∨ kr = some .invalidValue → r = some b

variable {b : EntryWord} {kr : Option KernReturn} {change : ℤ} {alive : Bool}

theorem Counts.gone (hover : kr ≠ some .urefsOverflow) (hvalue : kr ≠ some .invalidValue) :
    Counts b kr change none :=
  ⟨nofun, nofun, fun h => h.elim (absurd · hover) (absurd · hvalue)⟩

theorem Counts.same (h : b.Ok) (hchange : kr = some .success → change = 0) :
    Counts b kr change (some b) := by
  refine ⟨fun _ he => ?_, fun _ he => ?_, fun _ => rfl⟩
  · obtain rfl := some.inj he
    exact h
  · obtain rfl := some.inj he
    split_ifs with hkr
    · rw [hchange hkr, add_zero]
    · rw [add_zero]

variable {e' : EntryWord} {alive' : Bool} {bits m : BitVec 32} {msgtName : MsgTypeName}
  {right : PortRight}

theorem Counts.changed (h : e'.Ok) (hurefs : (e'.cap.urefs : ℤ) = b.cap.urefs + change) :
    Counts b (some .success) change (some e') := by
  refine ⟨fun _ he => ?_, fun _ he => ?_, fun hkr => by simp at hkr⟩
  · obtain rfl := some.inj he
    exact h
  · obtain rfl := some.inj he
    rw [if_pos rfl]
    exact hurefs

theorem Ok.deadName (h : b.Ok) (htype : b.cap.type = .onlyDeadName) :
    0 < b.cap.urefs ∧ b.cap.marequest = false ∧ b.cap.compat = false ∧ b.cap.request = 0 ∧
      b.cap.object = none :=
  h.1.deadName_fields htype

theorem Ok.setDeadName (h : b.Ok) (htype : b.cap.type = .onlyDeadName) {n : ℕ} (hpos : 0 < n)
    (hmax : (n : ℤ) ≤ urefsMax) (he : e'.cap = { b.cap with urefs := n }) : e'.Ok := by
  obtain ⟨-, hm, hcompat, hrequest, hobject⟩ := h.deadName htype
  refine ⟨?_, ?_⟩
  · rw [he]
    exact .deadName htype hpos hmax hm hcompat hrequest hobject
  · rw [he]
    change b.cap.type ≠ _
    rw [htype]
    decide

theorem Ok.setSend (htype : b.cap.type = .onlySend ∨ b.cap.type = .sendReceive) {n : ℕ}
    (hpos : 0 < n) (hmax : (n : ℤ) < urefsMax)
    (he : e'.cap = { b.cap with urefs := n }) : e'.Ok := by
  refine ⟨?_, ?_⟩
  · rw [he]
    exact .send htype hpos hmax
  · rw [he]
    change b.cap.type ≠ _
    rcases htype with h | h <;> rw [h] <;> decide

theorem deallocDeadName_counts (h : b.Ok) (htype : b.cap.type = .onlyDeadName) :
    Counts b (some b.deallocDeadName.1) (-1) b.deallocDeadName.2 := by
  have hpos := (h.deadName htype).1
  have hlt : b.cap.urefs < 2 ^ 16 := count_lt _
  unfold deallocDeadName
  dsimp only
  split_ifs with hone
  · exact .gone (by simp) (by simp)
  · have hmany : b.cap.urefs ≠ 1 := fun hc => hone ((urefs_eq _ (by decide)).mpr hc)
    have hcap := cap_dec b.ieBits b.ieObject b.ieRequest (n := 1) hpos
    refine .changed (h.setDeadName htype (n := b.cap.urefs - 1) (by omega) ?_ hcap) ?_
    · have hmax : urefsMax = 2 ^ 16 - 1 := rfl
      omega
    · rw [hcap]
      change ((b.cap.urefs - 1 : ℕ) : ℤ) = _
      omega

theorem deltaDeadName_counts (h : b.Ok) (htype : b.cap.type = .onlyDeadName) (d : BitVec 32) :
    Counts b (some (b.deltaDeadName d).1) d.toInt (b.deltaDeadName d).2 := by
  have hpos := (h.deadName htype).1
  have hlt : b.cap.urefs < 2 ^ 16 := count_lt _
  have hmax : urefsMax = 2 ^ 16 - 1 := rfl
  unfold deltaDeadName
  dsimp only
  split_ifs with hunder hover hzero
  · exact .same h (by simp)
  · exact .same h (by simp)
  · exact .gone (by simp) (by simp)
  · rw [underflow_iff, count_bits] at hunder
    rw [overflow_iff (by rw [toNat_urefs, count_bits]; omega), toNat_urefs, count_bits] at hover
    rw [sum_zero_iff _ _ (by rw [count_bits]; omega), count_bits] at hzero
    have hcap := cap_add b.ieBits b.ieObject b.ieRequest (d := d)
      (by rw [count_bits]; omega) (by rw [count_bits]; omega)
    refine .changed (h.setDeadName htype (n := (b.cap.urefs + d.toInt).toNat) (by omega) (by omega)
      hcap) ?_
    rw [hcap]
    change (((b.cap.urefs : ℤ) + d.toInt).toNat : ℤ) = _
    omega

theorem Base.refl (e : EntryWord) : Base alive e e := .inl rfl

/-- The entry after an operation that counts from it or from the dead name it turned into. -/
def Outcome (alive : Bool) (e : EntryWord) (kr : Option KernReturn) (change : Capability → ℤ)
    (r : Option EntryWord) : Prop :=
  ∃ b, Base alive e b ∧ Counts b kr (change b.cap) r

/-- What comes after `ipc_right_check`, which may take the entry away. -/
@[simp] def afterCheck {β : Type} (gone : Option EntryWord → β) (live : β) : Bool × Option EntryWord → β
  | (true, e) => gone e
  | (false, _) => live

/-- The case of a dead name, when the entry is still there. -/
def ifKept (dead : EntryWord → CopiedIn × Option EntryWord) :
    Option EntryWord → CopiedIn × Option EntryWord
  | some e => dead e
  | none => (⟨.invalidName, none, false⟩, none)

theorem Ok.outcome_check (h : e.Ok) (hsends : e.cap.type.sendRights = true)
    (halive : alive = false → alive' = false) {change : Capability → ℤ}
    {f : Bool × Option EntryWord → KernReturn × Option EntryWord}
    (hlive : Outcome alive' e (some (f (false, some e)).1) change (f (false, some e)).2)
    (hgone : e.cap.compat = true → f (true, none) = (.invalidName, none))
    (hdead : ∀ b, b.Ok → b.cap.type = .onlyDeadName → e.cap.compat = false →
      Counts b (some (f (true, some b)).1) (change b.cap) (f (true, some b)).2) :
    Outcome alive' e (some (f (e.ipcRightCheck alive)).1) change (f (e.ipcRightCheck alive)).2 := by
  rcases e.check_cases alive h hsends with hcheck | ⟨hcheck, hcompat⟩ | ⟨b, hcheck, hsome, hcompat,
    hb, hcap⟩
  · rw [hcheck]
    exact hlive
  · rw [hcheck, hgone hcompat]
    exact ⟨e, .refl e, .gone (by simp) (by simp)⟩
  · rw [hcheck]
    exact ⟨b, .inr ⟨hsends, halive hsome.1, hsome.2⟩, hdead b hb (by rw [hcap]; rfl) hcompat⟩

theorem Ok.drop_counts (h : e.Ok) (hsend : e.cap.type.send = true) {n : BitVec 32}
    (hn : n.toNat < e.cap.urefs) (hn' : 0 < n.toNat) :
    Counts e (some .success) (-n.toNat) (some { e with ieBits := e.ieBits - n }) := by
  have hcap := cap_dec e.ieBits e.ieObject e.ieRequest (n := n) (le_of_lt hn)
  have htype := h.send_type hsend
  have hroom := (h.1.urefs_send hsend).2
  refine .changed (Ok.setSend htype (n := e.cap.urefs - n.toNat) (by omega) (by omega) hcap) ?_
  rw [hcap]
  change ((e.cap.urefs - n.toNat : ℕ) : ℤ) = _
  omega

theorem Ok.clearSend_counts (htype : e.cap.type = .sendReceive) (object : Option ℕ) (request : ℕ)
    {d : ℤ} (hd : (e.cap.urefs : ℤ) + d = 0) :
    Counts e (some .success) d (some ⟨e.ieBits &&& ~~~(urefsMask ||| send), object, request⟩) := by
  have hcap := cap_clearSend e.ieBits object request
  have hreceive : ({ typeOf e.ieBits with send := false } : PortType) = .onlyReceive := by
    rw [typeOf_bits, htype]
    rfl
  rw [hreceive] at hcap
  refine .changed ⟨?_, ?_⟩ ?_
  · rw [hcap]
    exact .receive rfl rfl
  · rw [hcap]
    exact (by decide : PortType.onlyReceive ≠ PortType.none)
  · rw [hcap, hd]
    rfl

theorem urefs_one (e : EntryWord) : urefs e.ieBits = 1 ↔ e.cap.urefs = 1 := urefs_eq _ (by decide)

theorem ipcRightDealloc_outcome (h : e.Ok) (alive : Bool) :
    Outcome alive e (some (e.ipcRightDealloc alive).1) (fun _ => -1) (e.ipcRightDealloc alive).2 := by
  unfold ipcRightDealloc
  simp only [type_deadName, type_sendOnce, type_send, type_sendReceive, urefs_one]
  by_cases hdead : e.cap.type = .onlyDeadName
  · rw [if_pos hdead]
    exact ⟨e, .refl e, deallocDeadName_counts h hdead⟩
  rw [if_neg hdead]
  by_cases honce : e.cap.type = .onlySendOnce
  · rw [if_pos honce]
    have hrights : e.cap.type.sendRights = true := by rw [honce]; rfl
    refine h.outcome_check hrights id ?_ ?_ ?_
      (f := afterCheck (fun e' => checked e.ieBits e' deallocDeadName) (.success, none))
    · exact ⟨e, .refl e, .gone (by simp) (by simp)⟩
    · intro hcompat
      simp only [afterCheck, checked, has_compat, compat_bits, hcompat, if_true]
    · intro b hb htype hcompat
      simp only [afterCheck, checked, has_compat, compat_bits, hcompat]
      exact deallocDeadName_counts hb htype
  rw [if_neg honce]
  by_cases hsend : e.cap.type = .onlySend
  · rw [if_pos hsend]
    have hbit : e.cap.type.send = true := by rw [hsend]; rfl
    have hpos := (h.1.urefs_send hbit).1
    have hrights : e.cap.type.sendRights = true := by rw [hsend]; rfl
    refine h.outcome_check hrights id ?_ ?_ ?_
      (f := afterCheck (fun e' => checked e.ieBits e' deallocDeadName)
        (if e.cap.urefs = 1 then (.success, none)
        else (.success, some { e with ieBits := e.ieBits - 1 })))
    · dsimp only [afterCheck]
      by_cases hone : e.cap.urefs = 1
      · rw [if_pos hone]
        exact ⟨e, .refl e, .gone (by simp) (by simp)⟩
      · rw [if_neg hone]
        exact ⟨e, .refl e, h.drop_counts hbit (n := 1) (by change 1 < _; omega) (by decide)⟩
    · intro hcompat
      simp only [afterCheck, checked, has_compat, compat_bits, hcompat, if_true]
    · intro b hb htype hcompat
      simp only [afterCheck, checked, has_compat, compat_bits, hcompat]
      exact deallocDeadName_counts hb htype
  rw [if_neg hsend]
  by_cases hboth : e.cap.type = .sendReceive
  · rw [if_pos hboth]
    have hbit : e.cap.type.send = true := by rw [hboth]; rfl
    have hpos := (h.1.urefs_send hbit).1
    by_cases hone : e.cap.urefs = 1
    · rw [if_pos hone]
      exact ⟨e, .refl e, Ok.clearSend_counts hboth _ _ (by rw [hone]; rfl)⟩
    · rw [if_neg hone]
      exact ⟨e, .refl e, h.drop_counts hbit (n := 1) (by change 1 < _; omega) (by decide)⟩
  · rw [if_neg hboth]
    exact ⟨e, .refl e, .same h (by simp)⟩

/-- What `ipc_right_delta` does to the count. The amount for a receive right is not for it; what stays
when the receive right goes is a dead name, which counts a request. -/
def deltaChange (d : BitVec 32) (c : Capability) : PortRight → ℤ
  | .receive => if d ≠ 0 ∧ c.request ≠ 0 then 1 else 0
  | .send | .sendOnce | .portSet | .deadName => d.toInt

theorem ipcRightDelta_outcome (h : e.Ok) (alive : Bool) (right : PortRight) (d : BitVec 32) :
    Outcome alive e (some (e.ipcRightDelta alive right d).1) (fun c => deltaChange d c right)
      (e.ipcRightDelta alive right d).2 := by
  have hsame : ∀ kr change, kr ≠ some .success → Outcome alive e kr change (some e) := fun kr change
    hkr =>
    ⟨e, .refl e, .same h fun hc => absurd hc hkr⟩
  have hgone : ∀ change, Outcome alive e (some .success) change none := fun change =>
    ⟨e, .refl e, .gone (by simp) (by simp)⟩
  have hzero : ∀ change : Capability → ℤ, change e.cap = 0 →
      Outcome alive e (some .success) change (some e) := fun change hc =>
        ⟨e, .refl e, .same h fun _ => hc⟩
  cases right with
  | portSet =>
    unfold ipcRightDelta
    dsimp only
    split_ifs with hset hd hd
    · exact hsame _ _ (by simp)
    · exact hzero _ (by rw [hd]; rfl)
    · exact hsame _ _ (by simp)
    · exact hgone _
  | receive =>
    unfold ipcRightDelta
    simp only [has_receive, has_marequest, typeOf_bits, marequest_bits]
    by_cases hrecv : e.cap.type.receive = false
    · rw [if_pos hrecv]
      exact hsame _ _ (by simp)
    rw [if_neg hrecv]
    by_cases hd : d = 0
    · rw [if_pos hd]
      exact hzero _ (if_neg fun hc => hc.1 hd)
    rw [if_neg hd]
    by_cases hd' : d ≠ -1
    · rw [if_pos hd']
      exact hsame _ _ (by simp)
    rw [if_neg hd']
    -- the bits without a msg-accepted request say the same
    obtain ⟨bits, hbits, htype, hcompat⟩ : ∃ bits,
        (if e.cap.marequest = true then e.ieBits &&& ~~~marequest else e.ieBits) = bits ∧
          typeOf bits = e.cap.type ∧ bits.getLsbD 22 = e.cap.compat := by
      by_cases hm : e.cap.marequest = true
      · have hcap := cap_clearMarequest e.ieBits none 0
        exact ⟨_, if_pos hm, congrArg Capability.type hcap, congrArg Capability.compat hcap⟩
      · exact ⟨_, if_neg hm, rfl, rfl⟩
    rw [hbits]
    simp only [has_compat, has_send, htype, hcompat]
    by_cases hc : e.cap.compat = true
    · rw [if_pos hc]
      exact hgone _
    rw [if_neg hc]
    by_cases hsend : e.cap.type.send = true
    · rw [if_pos hsend]
      have hrights : e.cap.type.sendRights = true := by unfold PortType.sendRights; rw [hsend]; rfl
      have hcheck : e.ipcRightCheck false = (true, some ⟨if e.ieRequest ≠ 0 then
          (bits &&& ~~~typeMask ||| deadName) + 1 else bits &&& ~~~typeMask ||| deadName, none, 0⟩) := by
        unfold ipcRightCheck
        simp only [has_send, has_marequest, typeOf_bits, marequest_bits]
        rw [if_neg (by simp), if_pos hsend, hbits, has_compat, hcompat, if_neg hc]
      rcases e.check_cases false h hrights with hfalse | ⟨-, hc'⟩ | ⟨b, -, hsome, -, hb, hcap⟩
      · rw [hcheck] at hfalse
        cases hfalse
      · exact absurd hc' hc
      · rw [hcheck] at hsome
        obtain rfl := some.inj hsome.2
        refine ⟨e, .refl e, .changed hb ?_⟩
        rw [hcap]
        unfold RightState.deadNameOf deltaChange
        dsimp only
        by_cases hrequest : e.cap.request ≠ 0
        · rw [if_pos hrequest, if_pos ⟨hd, hrequest⟩]
          exact Nat.cast_succ _
        · rw [if_neg hrequest, if_neg fun hc => hrequest hc.2, add_zero]
    · rw [if_neg hsend]
      exact hgone _
  | sendOnce =>
    unfold ipcRightDelta
    simp only [has_sendOnce, typeOf_bits]
    by_cases honce : e.cap.type.sendOnce = false
    · rw [if_pos honce]
      exact hsame _ _ (by simp)
    rw [if_neg honce]
    by_cases hd : (BitVec.slt 0 d || BitVec.slt d (-1)) = true
    · rw [if_pos hd]
      exact hsame _ _ (by simp)
    rw [if_neg hd]
    have hrights : e.cap.type.sendRights = true := by
      unfold PortType.sendRights
      rw [show e.cap.type.sendOnce = true by simpa using honce, Bool.or_true]
    refine h.outcome_check hrights id ?_ ?_ ?_
      (f := afterCheck (fun e' => checked e.ieBits e' fun e => (.invalidRight, some e))
        (if d = 0 then (.success, some e) else (.success, none)))
    · dsimp only [afterCheck]
      split_ifs with hz
      · exact hzero _ (by rw [hz]; rfl)
      · exact hgone _
    · intro hcompat
      simp only [afterCheck, checked, has_compat, compat_bits, hcompat, if_true]
    · intro b hb htype hcompat
      simp only [afterCheck, checked, has_compat, compat_bits, hcompat]
      exact .same hb (by simp)
  | deadName =>
    unfold ipcRightDelta
    simp only [has_or, has_send, has_sendOnce, has_deadName, typeOf_bits]
    by_cases hrights : (e.cap.type.send || e.cap.type.sendOnce) = true
    · rw [if_pos hrights]
      refine h.outcome_check hrights id ?_ ?_ ?_
        (f := afterCheck (fun e' => checked e.ieBits e' (deltaDeadName d)) (.invalidRight, some e))
      · exact hsame _ _ (by simp)
      · intro hcompat
        simp only [afterCheck, checked, has_compat, compat_bits, hcompat, if_true]
      · intro b hb htype hcompat
        simp only [afterCheck, checked, has_compat, compat_bits, hcompat]
        exact deltaDeadName_counts hb htype d
    rw [if_neg hrights]
    by_cases hdead : e.cap.type.deadName = false
    · rw [if_pos hdead]
      exact hsame _ _ (by simp)
    · rw [if_neg hdead]
      exact ⟨e, .refl e, deltaDeadName_counts h (h.deadName_type (by simpa using hdead)) d⟩
  | send =>
    unfold ipcRightDelta
    simp only [has_send, has_receive, typeOf_bits]
    by_cases hsend : e.cap.type.send = false
    · rw [if_pos hsend]
      exact hsame _ _ (by simp)
    rw [if_neg hsend]
    by_cases hunder : machPortUrefsUnderflow (urefs e.ieBits) d = true
    · rw [if_pos hunder]
      exact hsame _ _ (by simp)
    rw [if_neg hunder]
    by_cases hover : machPortUrefsOverflow (urefs e.ieBits + 1) d = true
    · rw [if_pos hover]
      exact hsame _ _ (by simp)
    rw [if_neg hover]
    have hsend : e.cap.type.send = true := by simpa using hsend
    have hrights : e.cap.type.sendRights = true := by unfold PortType.sendRights; rw [hsend]; rfl
    refine h.outcome_check hrights id ?_ ?_ ?_
      (f := afterCheck (fun e' => checked e.ieBits e' fun e => (.invalidRight, some e))
        (if urefs e.ieBits + d = 0 then
          if e.cap.type.receive = true then
            (.success, some { e with ieBits := e.ieBits &&& ~~~(urefsMask ||| send) })
          else (.success, none)
        else (.success, some { e with ieBits := e.ieBits + d })))
    · obtain ⟨hpos, hroom⟩ := h.1.urefs_send hsend
      have hmax : urefsMax = 2 ^ 16 - 1 := rfl
      have hone : (urefs e.ieBits + 1).toNat = e.cap.urefs + 1 := by
        rw [BitVec.toNat_add, toNat_urefs, count_bits, show (1 : BitVec 32).toNat = 1 by rfl]
        omega
      rw [underflow_iff, count_bits] at hunder
      rw [overflow_iff (by rw [hone]; omega), hone] at hover
      dsimp only [afterCheck]
      have hsum := sum_zero_iff e.ieBits d (by rw [count_bits]; omega)
      rw [count_bits] at hsum
      have htype := h.send_type hsend
      by_cases hz : (e.cap.urefs : ℤ) + d.toInt = 0
      · rw [if_pos (hsum.mpr hz)]
        rcases htype with htype | htype
        · rw [htype, if_neg (by decide)]
          exact hgone _
        · rw [htype, if_pos (show PortType.sendReceive.receive = true from rfl)]
          exact ⟨e, .refl e, Ok.clearSend_counts htype _ _ hz⟩
      · rw [if_neg fun hc => hz (hsum.mp hc)]
        have hcap := cap_add e.ieBits e.ieObject e.ieRequest (d := d) (by rw [count_bits]; omega)
          (by rw [count_bits]; push_cast at hover; omega)
        refine ⟨e, .refl e, .changed (Ok.setSend htype (n := (e.cap.urefs + d.toInt).toNat) (by omega)
          (by push_cast at hover; omega) hcap) ?_⟩
        rw [hcap]
        change (((e.cap.urefs : ℤ) + d.toInt).toNat : ℤ) = _
        exact Int.toNat_of_nonneg (by omega)
    · intro hcompat
      simp only [afterCheck, checked, has_compat, compat_bits, hcompat, if_true]
    · intro b hb htype hcompat
      simp only [afterCheck, checked, has_compat, compat_bits, hcompat]
      exact .same hb (by simp)

theorem kept_of_ne (h : e.cap.type ≠ .none) : kept (some e) = some e := by
  unfold kept
  rw [Option.filter_some, if_pos]
  exact decide_eq_true fun hc => h ((type_none e).mp hc)

theorem kept_of_none (h : e.cap.type = .none) : kept (some e) = none := by
  unfold kept
  rw [Option.filter_some, if_neg]
  simpa using (type_none e).mpr h

theorem moveDead_counts (h : b.Ok) (htype : b.cap.type = .onlyDeadName) (deadok : Bool) :
    Counts b (some (b.moveDead deadok).1.kr) (-1) (kept (b.moveDead deadok).2) := by
  have hpos := (h.deadName htype).1
  have hlt : b.cap.urefs < 2 ^ 16 := count_lt _
  have hmax : urefsMax = 2 ^ 16 - 1 := rfl
  unfold moveDead
  simp only [urefs_one]
  split_ifs with hok hone
  · rw [kept_of_ne h.2]
    exact .same h (by simp)
  · rw [kept_of_none]
    · exact .gone (by simp) (by simp)
    · have hcap := cap_clearDeadName b.ieBits b.ieObject b.ieRequest
      rw [hcap, typeOf_bits, htype]
      rfl
  · have hcap := cap_dec b.ieBits b.ieObject b.ieRequest (n := 1) hpos
    have hok : (⟨b.ieBits - 1, b.ieObject, b.ieRequest⟩ : EntryWord).Ok :=
      h.setDeadName htype (n := b.cap.urefs - 1) (by omega) (by omega) hcap
    rw [kept_of_ne hok.2]
    refine .changed hok ?_
    rw [hcap]
    change ((b.cap.urefs - 1 : ℕ) : ℤ) = _
    omega

theorem copyDead_counts (h : b.Ok) (deadok : Bool) :
    Counts b (some (b.copyDead deadok).1.kr) 0 (kept (b.copyDead deadok).2) := by
  unfold copyDead
  split_ifs
  all_goals
    rw [kept_of_ne h.2]
    exact .same h fun _ => rfl

/-- The copyins of send and send-once rights, whatever is done with the entry afterwards. -/
theorem copyinSends_outcome (h : e.Ok) (halive : alive = false → alive' = false)
    {right : BitVec 32} {change : ℤ}
    {dead : EntryWord → CopiedIn × Option EntryWord} {live : CopiedIn × Option EntryWord}
    (f : CopiedIn × Option EntryWord → KernReturn × Option EntryWord)
    (hinvalid : f (⟨.invalidRight, none, false⟩, some e) = (.invalidRight, some e))
    (hgone : f (⟨.invalidName, none, false⟩, none) = (.invalidName, none))
    (hdead : ∀ b, b.Ok → b.cap.type = .onlyDeadName →
      Counts b (some (f (dead b)).1) change (f (dead b)).2) (hlive : has e.ieBits right = true →
      Outcome alive' e (some (f live).1) (fun _ => change) (f live).2) :
    Outcome alive' e (some (f (e.copyinSends alive right dead live)).1) (fun _ => change)
      (f (e.copyinSends alive right dead live)).2 := by
  unfold copyinSends
  simp only [has_deadName, has_or, has_send, has_sendOnce, has_compat, typeOf_bits, compat_bits]
  by_cases hname : e.cap.type.deadName = true
  · rw [if_pos hname]
    exact ⟨e, .refl e, hdead e h (h.deadName_type hname)⟩
  rw [if_neg hname]
  by_cases hrights : (e.cap.type.send || e.cap.type.sendOnce) = false
  · rw [if_pos hrights, hinvalid]
    exact ⟨e, .refl e, .same h (by simp)⟩
  rw [if_neg hrights]
  have hrights : e.cap.type.sendRights = true := by
    unfold PortType.sendRights
    revert hrights
    cases e.cap.type.send <;> cases e.cap.type.sendOnce <;> simp
  refine h.outcome_check hrights halive ?_ ?_ ?_ (f := fun r => f (afterCheck
    (fun e' => if e.cap.compat = true then (⟨.invalidName, none, false⟩, e') else ifKept dead e')
    (if has e.ieBits right = false then (⟨.invalidRight, none, false⟩, some e) else live) r))
  · dsimp only [afterCheck]
    by_cases hright : has e.ieBits right = false
    · rw [if_pos hright, hinvalid]
      exact ⟨e, .refl e, .same h (by simp)⟩
    · rw [if_neg hright]
      exact hlive (by simpa using hright)
  · intro hcompat
    dsimp only [afterCheck]
    rw [if_pos hcompat, hgone]
  · intro b hb htype hcompat
    dsimp only [afterCheck, ifKept]
    rw [if_neg (by rw [hcompat]; simp)]
    exact hdead b hb htype

/-- What a copyin does to the count. -/
def copyinChange : MsgTypeName → ℤ
  | .moveSend | .moveSendOnce => -1
  | .copySend | .makeSend | .makeSendOnce | .moveReceive => 0

theorem copyin_outcome (h : e.Ok) (alive : Bool) (msgtName : MsgTypeName) (deadok : Bool) :
    Outcome alive e (some (e.copyin alive msgtName deadok).1) (fun _ => copyinChange msgtName)
      (e.copyin alive msgtName deadok).2 := by
  have hmake : ∀ object : Option ℕ, Outcome alive e
      (some (if has e.ieBits receive = false then ((⟨.invalidRight, none, false⟩, some e) :
        CopiedIn × Option EntryWord) else (⟨.success, object, false⟩, some e)).1.kr) (fun _ => 0)
      (kept (if has e.ieBits receive = false then ((⟨.invalidRight, none, false⟩, some e) :
        CopiedIn × Option EntryWord) else (⟨.success, object, false⟩, some e)).2) := by
    intro object
    split_ifs
    all_goals
      rw [kept_of_ne h.2]
      exact ⟨e, .refl e, .same h fun _ => rfl⟩
  cases msgtName with
  | makeSend => exact hmake e.ieObject
  | makeSendOnce => exact hmake e.ieObject
  | moveReceive =>
    unfold copyin ipcRightCopyin
    simp only [has_receive, has_send, typeOf_bits]
    by_cases hrecv : e.cap.type.receive = false
    · rw [if_pos hrecv, kept_of_ne h.2]
      exact ⟨e, .refl e, .same h fun _ => rfl⟩
    rw [if_neg hrecv]
    have hcap := cap_clearReceive e.ieBits
    rcases h.receive_type (by simpa using hrecv) with ⟨htype, -⟩ | htype
    · rw [htype, if_neg (by decide), kept_of_none]
      · exact ⟨e, .refl e, .gone (by simp) (by simp)⟩
      · rw [hcap, typeOf_bits, htype]
        rfl
    · obtain ⟨hpos, hroom⟩ := h.1.urefs_send (by rw [htype]; rfl)
      have hsend : ({ typeOf e.ieBits with receive := false } : PortType) = .onlySend := by
        rw [typeOf_bits, htype]
        rfl
      have hok : (⟨e.ieBits &&& ~~~receive, e.ieObject, e.ieRequest⟩ : EntryWord).Ok := by
        refine ⟨?_, ?_⟩
        · rw [hcap, hsend]
          exact .send (.inl rfl) hpos hroom
        · rw [hcap, hsend]
          exact (by decide : PortType.onlySend ≠ PortType.none)
      rw [htype, if_pos (show PortType.sendReceive.send = true from rfl), kept_of_ne hok.2]
      refine ⟨e, .refl e, .changed hok ?_⟩
      rw [hcap]
      exact (add_zero _).symm
  | copySend =>
    refine copyinSends_outcome h id (fun r => (r.1.kr, kept r.2)) (by rw [kept_of_ne h.2]) rfl
      (fun b hb _ => copyDead_counts hb deadok) fun _ => ?_
    dsimp only
    rw [kept_of_ne h.2]
    exact ⟨e, .refl e, .same h fun _ => rfl⟩
  | moveSend =>
    refine copyinSends_outcome h id (fun r => (r.1.kr, kept r.2)) (by rw [kept_of_ne h.2]) rfl
      (fun b hb htype => moveDead_counts hb htype deadok) fun hsend => ⟨e, .refl e, ?_⟩
    rw [has_send, typeOf_bits] at hsend
    simp only [urefs_one, has_receive, typeOf_bits]
    by_cases hone : e.cap.urefs = 1
    · rw [if_pos hone]
      rcases h.send_type hsend with htype | htype
      · rw [htype, if_neg (by decide), kept_of_none]
        · exact .gone (by simp) (by simp)
        · rw [cap_clearSend, typeOf_bits, htype]
          rfl
      · rw [htype, if_pos (show PortType.sendReceive.receive = true from rfl)]
        have hcounts := Ok.clearSend_counts htype e.ieObject e.ieRequest (d := -1)
          (by rw [hone]; rfl)
        rw [kept_of_ne (hcounts.ok _ rfl).2]
        exact hcounts
    · rw [if_neg hone]
      obtain ⟨hpos, -⟩ := h.1.urefs_send hsend
      have hcounts := h.drop_counts hsend (n := 1) (by change 1 < _; omega) (by decide)
      rw [kept_of_ne (hcounts.ok _ rfl).2]
      exact hcounts
  | moveSendOnce =>
    refine copyinSends_outcome h id (fun r => (r.1.kr, kept r.2)) (by rw [kept_of_ne h.2]) rfl
      (fun b hb htype => moveDead_counts hb htype deadok) fun honce => ⟨e, .refl e, ?_⟩
    rw [has_sendOnce, typeOf_bits] at honce
    dsimp only
    rw [kept_of_none]
    · exact .gone (by simp) (by simp)
    · rw [cap_clearSendOnce, typeOf_bits, h.sendOnce_type honce]
      rfl

theorem copyinTwo_outcome (h : e.Ok) (alive : Bool) :
    Outcome alive e (some (e.copyinTwo alive).1) (fun _ => -2) (e.copyinTwo alive).2 := by
  unfold copyinTwo ipcRightCopyinTwo
  simp only [has_send, has_receive, has_compat, typeOf_bits, compat_bits]
  by_cases hsend : e.cap.type.send = false
  · rw [if_pos hsend, kept_of_ne h.2]
    exact ⟨e, .refl e, .same h (by simp)⟩
  rw [if_neg hsend]
  by_cases hfew : BitVec.ult (urefs e.ieBits) 2 = true
  · rw [if_pos hfew, kept_of_ne h.2]
    exact ⟨e, .refl e, .same h (by simp)⟩
  rw [if_neg hfew]
  have hsend : e.cap.type.send = true := by simpa using hsend
  have hrights : e.cap.type.sendRights = true := by unfold PortType.sendRights; rw [hsend]; rfl
  have htwo : 2 ≤ e.cap.urefs := by
    have hlt : ¬ (urefs e.ieBits).toNat < (2 : BitVec 32).toNat := fun hc => hfew (decide_eq_true hc)
    rw [toNat_urefs, count_bits] at hlt
    exact not_lt.mp hlt
  rcases e.check_cases alive h hrights with hcheck | ⟨hcheck, hcompat⟩ |
    ⟨b, hcheck, hsome, hcompat, hb, -⟩
  · rw [hcheck]
    dsimp only
    by_cases hlast : urefs e.ieBits = 2
    · have hurefs : e.cap.urefs = 2 := (urefs_eq _ (by decide)).mp hlast
      rw [if_pos hlast]
      rcases h.send_type hsend with htype | htype
      · rw [htype, if_neg (by decide), kept_of_none]
        · exact ⟨e, .refl e, .gone (by simp) (by simp)⟩
        · rw [cap_clearSend, typeOf_bits, htype]
          rfl
      · rw [htype, if_pos (show PortType.sendReceive.receive = true from rfl)]
        have hcounts := Ok.clearSend_counts htype e.ieObject e.ieRequest (d := -2)
          (by rw [hurefs]; rfl)
        rw [kept_of_ne (hcounts.ok _ rfl).2]
        exact ⟨e, .refl e, hcounts⟩
    · have hurefs : e.cap.urefs ≠ 2 := fun hc => hlast ((urefs_eq _ (by decide)).mpr hc)
      rw [if_neg hlast]
      have hcounts := h.drop_counts hsend (n := 2) (by change 2 < _; omega) (by decide)
      rw [kept_of_ne (hcounts.ok _ rfl).2]
      exact ⟨e, .refl e, hcounts⟩
  · rw [hcheck]
    dsimp only
    rw [if_pos hcompat]
    exact ⟨e, .refl e, .gone (by simp) (by simp)⟩
  · rw [hcheck]
    dsimp only
    rw [if_neg (by rw [hcompat]; simp), kept_of_ne hb.2]
    exact ⟨b, .inr ⟨hrights, hsome⟩, .same hb (by simp)⟩

theorem undoMade_counts (bits : BitVec 32) {n : BitVec 32} (hn : n = 1 ∨ n = 2) (b : EntryWord)
    (hurefs : n.toNat = b.cap.urefs) :
    Counts b (some .success) 0 (some ⟨bits &&& ~~~rightMask ||| deadName ||| n, none, 0⟩) := by
  have hcap := cap_undo bits none 0 hn
  have hrange : 0 < n.toNat ∧ (n.toNat : ℤ) ≤ urefsMax := by
    rcases hn with rfl | rfl <;> decide
  refine .changed ⟨?_, ?_⟩ ?_
  · rw [hcap]
    exact .deadName rfl hrange.1 hrange.2 rfl rfl rfl rfl
  · rw [hcap]
    exact (by decide : PortType.onlyDeadName ≠ PortType.none)
  · rw [hcap, ← hurefs, add_zero]

theorem dncancel_eq (e : EntryWord) :
    e.dncancel = (decide (e.ieRequest ≠ 0) && !e.cap.compat, ⟨e.ieBits, e.ieObject, 0⟩) := by
  obtain ⟨bits, object, request⟩ := e
  unfold dncancel
  rw [has_compat, compat_bits]
  by_cases hzero : request = 0
  · rw [if_pos hzero, hzero]
    simp
  · rw [if_neg hzero]
    simp [hzero]

theorem undo_last_outcome (h : e.Ok) (hone : e.cap.urefs = 1) (hrights : e.cap.type.sendRights = true)
    (hnone : type bits = 0) (msgtName : MsgTypeName) : Outcome false e (some .success) (fun _ => 0)
      (ipcRightCopyinUndo ⟨bits, none, 0⟩ msgtName e.dncancel.1) := by
  rw [dncancel_eq]
  unfold ipcRightCopyinUndo
  dsimp only
  by_cases hrequest : e.ieRequest = 0
  · rw [if_neg (by simp [hrequest]), if_pos hnone]
    exact ⟨e, .refl e, undoMade_counts bits (.inl rfl) e hone.symm⟩
  rcases e.check_cases false h hrights with hcheck | ⟨-, hcompat⟩ | ⟨b, -, hsome, hcompat, -, hcap⟩
  · rw [Prod.ext_iff, e.check_false] at hcheck
    exact absurd hcheck.1 (by simp)
  · rw [if_neg (by simp [hcompat]), if_pos hnone]
    exact ⟨e, .refl e, undoMade_counts bits (.inl rfl) e hone.symm⟩
  · rw [if_pos (by simp [hcompat, hrequest])]
    -- the dead name counts the request that the copyin took
    have hurefs : b.cap.urefs = e.cap.urefs + 1 := by
      rw [hcap]
      exact if_pos hrequest
    exact ⟨b, .inr ⟨hrights, hsome⟩, undoMade_counts bits (.inr rfl) b (by rw [hurefs, hone]; rfl)⟩

theorem check_outcome (h : e.Ok) (hrights : e.cap.type.sendRights = true) (alive : Bool) :
    Outcome alive e (some .success) (fun _ => 0) (e.ipcRightCheck alive).2 := by
  rcases e.check_cases alive h hrights with hcheck | ⟨hcheck, -⟩ | ⟨b, hcheck, hsome, -, hb, -⟩
  · rw [hcheck]
    exact ⟨e, .refl e, .same h fun _ => rfl⟩
  · rw [hcheck]
    exact ⟨e, .refl e, .gone (by simp) (by simp)⟩
  · rw [hcheck]
    exact ⟨b, .inr ⟨hrights, hsome⟩, .same hb fun _ => rfl⟩

theorem undo_rest (h : e.Ok) (htype : typeOf bits = e.cap.type)
    (hbits : (if msgtName ≠ .copySend then bits + 1 else bits) = e.ieBits) :
    ipcRightCopyinUndo ⟨bits, e.ieObject, e.ieRequest⟩ msgtName false =
      if e.cap.type = .onlyDeadName then some e else (e.ipcRightCheck false).2 := by
  have hif : (if msgtName ≠ .copySend then (⟨bits + 1, e.ieObject, e.ieRequest⟩ : EntryWord)
      else ⟨bits, e.ieObject, e.ieRequest⟩) = e := by
    split_ifs at hbits ⊢ <;> rw [hbits]
  have hnone : type bits ≠ 0 := by
    rw [ne_eq, IeBits.type_none, htype]
    exact h.2
  have hname : type bits = deadName ↔ e.cap.type = .onlyDeadName := by
    rw [IeBits.type_deadName, htype]
  unfold ipcRightCopyinUndo
  rw [if_neg (by simp)]
  dsimp only
  rw [if_neg hnone]
  by_cases hdead : e.cap.type = .onlyDeadName
  · rw [if_pos (hname.mpr hdead), if_pos hdead, ← apply_ite some, hif]
  · rw [if_neg fun hc => hdead (hname.mp hc), if_neg hdead, hif]

theorem copyinUndone_outcome (h : e.Ok) (alive : Bool)
    (hsend : msgtName = .copySend ∨ msgtName = .moveSend ∨ msgtName = .moveSendOnce)
    (hrecv : e.cap.type.receive = false) (deadok : Bool) :
    Outcome false e (some (e.copyinUndone alive msgtName deadok).1) (fun _ => 0)
      (e.copyinUndone alive msgtName deadok).2 := by
  let f (r : CopiedIn × Option EntryWord) : KernReturn × Option EntryWord :=
    (r.1.kr, if r.1.kr = .success then r.2.bind fun e => e.ipcRightCopyinUndo msgtName r.1.soright
      else r.2)
  have hrest : ∀ {bits : BitVec 32} (object : Option ℕ), e.cap.type.sendRights = true →
      typeOf bits = e.cap.type → (if msgtName ≠ .copySend then bits + 1 else bits) = e.ieBits →
      Outcome false e (some (f (⟨.success, object, false⟩, some ⟨bits, e.ieObject, e.ieRequest⟩)).1)
        (fun _ => 0) (f (⟨.success, object, false⟩, some ⟨bits, e.ieObject, e.ieRequest⟩)).2 := by
    intro bits object hrights htype hbits
    dsimp only [f]
    rw [if_pos rfl, bind_some, undo_rest h htype hbits, if_neg fun hc => by
      rw [hc] at hrights
      cases hrights]
    exact check_outcome h hrights false
  have hdead : ∀ {b : EntryWord} {bits : BitVec 32}, b.Ok → b.cap.type = .onlyDeadName →
      typeOf bits = b.cap.type → (if msgtName ≠ .copySend then bits + 1 else bits) = b.ieBits →
      Counts b (some (f (⟨.success, none, false⟩, some ⟨bits, b.ieObject, b.ieRequest⟩)).1) 0
        (f (⟨.success, none, false⟩, some ⟨bits, b.ieObject, b.ieRequest⟩)).2 := by
    intro b bits hb hb' htype hbits
    dsimp only [f]
    rw [if_pos rfl, bind_some, undo_rest hb htype hbits, if_pos hb']
    exact .same hb fun _ => rfl
  have hmove : msgtName ≠ .copySend → ∀ b, b.Ok → b.cap.type = .onlyDeadName →
      Counts b (some (f (b.moveDead deadok)).1) 0 (f (b.moveDead deadok)).2 := by
    intro hm b hb htype
    obtain ⟨hpos, -, -, hrequest, hobject⟩ := hb.deadName htype
    unfold moveDead
    simp only [urefs_one]
    split_ifs with hok hone
    · exact .same hb (by simp [f])
    · have hcap := cap_clearDeadName b.ieBits b.ieObject b.ieRequest
      have hnone : type (b.ieBits &&& ~~~deadName) = 0 := by
        rw [IeBits.type_none]
        refine (congrArg Capability.type hcap).trans ?_
        rw [typeOf_bits, htype]
        rfl
      dsimp only [f]
      rw [if_pos rfl, bind_some]
      unfold ipcRightCopyinUndo
      dsimp only
      rw [if_neg (by simp), if_pos hnone, show b.ieObject = none from hobject,
        show b.ieRequest = 0 from hrequest]
      exact undoMade_counts _ (.inl rfl) b hone.symm
    · have hcap := cap_dec b.ieBits b.ieObject b.ieRequest (n := 1) hpos
      exact hdead hb htype (congrArg Capability.type hcap) (by rw [if_pos hm, BitVec.sub_add_cancel])
  rcases hsend with rfl | rfl | rfl
  · refine copyinSends_outcome h (fun _ => rfl) f rfl rfl (fun b hb htype => ?_) fun hright => ?_
    · unfold copyDead
      split_ifs
      · exact .same hb (by simp [f])
      · exact hdead hb htype rfl (if_neg (by simp))
    · rw [has_send, typeOf_bits] at hright
      exact hrest _ (by unfold PortType.sendRights; rw [hright]; rfl) rfl (if_neg (by simp))
  · refine copyinSends_outcome h (fun _ => rfl) f rfl rfl (hmove (by simp)) fun hright => ?_
    rw [has_send, typeOf_bits] at hright
    have hrights : e.cap.type.sendRights = true := by unfold PortType.sendRights; rw [hright]; rfl
    obtain ⟨hpos, -⟩ := h.1.urefs_send hright
    simp only [urefs_one, has_receive, typeOf_bits]
    rw [hrecv]
    by_cases hone : e.cap.urefs = 1
    · have hcap := cap_clearSend e.ieBits none 0
      have hnone : type (e.ieBits &&& ~~~(urefsMask ||| send)) = 0 := by
        rw [IeBits.type_none]
        refine (congrArg Capability.type hcap).trans ?_
        rcases h.send_type hright with htype | htype
        · rw [typeOf_bits, htype]
          rfl
        · rw [htype] at hrecv
          cases hrecv
      rw [if_pos hone, if_neg (by simp)]
      dsimp only [f]
      rw [if_pos rfl, bind_some, show e.dncancel.2.ieRequest = 0 by rw [dncancel_eq]]
      exact undo_last_outcome h hone hrights hnone _
    · have hcap := cap_dec e.ieBits e.ieObject e.ieRequest (n := 1) hpos
      rw [if_neg hone]
      exact hrest _ hrights (congrArg Capability.type hcap)
        (by rw [if_pos (by simp), BitVec.sub_add_cancel])
  · refine copyinSends_outcome h (fun _ => rfl) f rfl rfl (hmove (by simp)) fun hright => ?_
    rw [has_sendOnce, typeOf_bits] at hright
    have htype := h.sendOnce_type hright
    have hrights : e.cap.type.sendRights = true := by rw [htype]; rfl
    have hcap := cap_clearSendOnce e.ieBits none 0
    have hnone : type (e.ieBits &&& ~~~sendOnce) = 0 := by
      rw [IeBits.type_none]
      refine (congrArg Capability.type hcap).trans ?_
      rw [typeOf_bits, htype]
      rfl
    dsimp only [f]
    rw [if_pos rfl, bind_some, show e.dncancel.2.ieRequest = 0 by rw [dncancel_eq]]
    exact undo_last_outcome h (h.1.urefs_sendOnce htype).1 hrights hnone _

/-! ## Rights that arrive -/

theorem Ok.fields (h : e.Ok) (htype : e'.cap.type = e.cap.type)
    (hurefs : e'.cap.urefs = e.cap.urefs)
    (hlive : e.cap.type.send = true ∨ e.cap.type.receive = true ∨
      e.cap.type.sendOnce = true ∧ e'.cap.marequest = e.cap.marequest) : e'.Ok := by
  refine ⟨?_, by rw [htype]; exact h.2⟩
  cases h.1 with
  | none hnone => exact absurd hnone h.2
  | send ht hpos hroom =>
    exact .send (by rw [htype]; exact ht) (by rw [hurefs]; exact hpos) (by rw [hurefs]; exact hroom)
  | receive ht hzero => exact .receive (by rw [htype]; exact ht) (by rw [hurefs]; exact hzero)
  | sendOnce ht hone hm =>
    rw [ht] at hlive
    rcases hlive with hc | hc | ⟨-, hm'⟩
    · cases hc
    · cases hc
    · exact .sendOnce (by rw [htype]; exact ht) (by rw [hurefs]; exact hone) (by rw [hm']; exact hm)
  | portSet ht | deadName ht =>
    rw [ht] at hlive
    rcases hlive with hc | hc | ⟨hc, -⟩ <;> cases hc

theorem Ok.fields_counts (h : e.Ok) (hkr : kr ≠ some .urefsOverflow)
    (hkr' : kr ≠ some .invalidValue) (hchange : kr = some .success → change = 0)
    (htype : e'.cap.type = e.cap.type) (hurefs : e'.cap.urefs = e.cap.urefs)
    (hlive : e.cap.type.send = true ∨ e.cap.type.receive = true ∨
      e.cap.type.sendOnce = true ∧ e'.cap.marequest = e.cap.marequest) :
    Counts e kr change (some e') := by
  refine ⟨fun _ he => ?_, fun _ he => ?_, fun hc => hc.elim (absurd · hkr) (absurd · hkr')⟩
  · obtain rfl := some.inj he
    exact h.fields htype hurefs hlive
  · obtain rfl := some.inj he
    rw [hurefs]
    split_ifs with hs
    · rw [hchange hs, add_zero]
    · rw [add_zero]

theorem cap_copyoutSend (bits : BitVec 32) (object : Option ℕ) (request : ℕ)
    (h : count bits < 2 ^ 16 - 1) :
    (⟨(bits ||| send) + 1, object, request⟩ : EntryWord).cap =
      { (⟨bits, object, request⟩ : EntryWord).cap with
        type := { typeOf bits with send := true }, urefs := count bits + 1 } := by
  have hcap := cap_setSend bits object request
  have hcount : count (bits ||| send) = count bits := congrArg Capability.urefs hcap
  rw [cap_inc _ _ _ (by rw [hcount]; exact h), hcap, hcount]

/-- What a copyout does to the count: a send right is counted as long as there is room for the
reference of a dead name. -/
def copyoutChange (c : Capability) : PortRight → ℤ
  | .send => if c.type.send = true ∧ (c.urefs : ℤ) + 1 = urefsMax then 0 else 1
  | .receive | .sendOnce | .portSet | .deadName => 0

theorem urefs_pegged (e : EntryWord) :
    urefs e.ieBits + 1 = machPortUrefsMax ↔ (e.cap.urefs : ℤ) + 1 = urefsMax := by
  have hmax : urefsMax = 2 ^ 16 - 1 := rfl
  have hlt : e.cap.urefs < 2 ^ 16 := count_lt _
  rw [← BitVec.toNat_inj, BitVec.toNat_add, toNat_urefs, count_bits,
    show machPortUrefsMax.toNat = 2 ^ 16 - 1 by decide, show (1 : BitVec 32).toNat = 1 by rfl]
  omega

theorem ipcRightCopyout_counts (h : e.Ok) (overflow : Bool)
    (hop : right = .send ∧ (e.cap.type.send = true ∨ e.cap.type.receive = true) ∨
      right = .receive ∧ e.cap.type = .onlySend) :
    Counts e (some (e.ipcRightCopyout right overflow).1) (copyoutChange e.cap right)
      (some (e.ipcRightCopyout right overflow).2) := by
  have hmax : urefsMax = 2 ^ 16 - 1 := rfl
  rcases hop with ⟨rfl, htypes⟩ | ⟨rfl, htype⟩
  · unfold ipcRightCopyout copyoutChange
    simp only [has_send, typeOf_bits, urefs_pegged]
    by_cases hpeg : e.cap.type.send = true ∧ (e.cap.urefs : ℤ) + 1 = urefsMax
    · rw [if_pos hpeg, if_pos hpeg]
      split_ifs
      · exact .same h fun _ => rfl
      · exact .same h (by simp)
    · rw [if_neg hpeg, if_neg hpeg]
      -- there was a send right with room for another one, or a receive right only
      have hroom : (e.cap.urefs : ℤ) + 1 < urefsMax ∧ (({ e.cap.type with send := true } : PortType) =
          .onlySend ∨ ({ e.cap.type with send := true } : PortType) = .sendReceive) := by
        by_cases hsend : e.cap.type.send = true
        · have hlt := (h.1.urefs_send hsend).2
          refine ⟨?_, ?_⟩
          · have hne : (e.cap.urefs : ℤ) + 1 ≠ urefsMax := fun hc => hpeg ⟨hsend, hc⟩
            omega
          · rcases h.send_type hsend with ht | ht
            · exact .inl (by rw [ht]; rfl)
            · exact .inr (by rw [ht]; rfl)
        · rcases h.receive_type (htypes.resolve_left hsend) with ⟨ht, hzero⟩ | ht
          · refine ⟨by rw [hzero]; decide, .inr (by rw [ht]; rfl)⟩
          · rw [ht] at hsend
            exact absurd rfl hsend
      have hcap := cap_copyoutSend e.ieBits e.ieObject e.ieRequest (by rw [count_bits]; omega)
      refine .changed ⟨?_, ?_⟩ ?_
      · rw [hcap]
        exact .send hroom.2 (Nat.succ_pos _) (by push_cast; exact hroom.1)
      · rw [hcap]
        rcases hroom.2 with ht | ht <;> rw [typeOf_bits, ht] <;> simp [PortType.onlySend,
          PortType.sendReceive, PortType.none]
      · rw [hcap]
        exact Nat.cast_succ _
  · have hcap := cap_setReceive e.ieBits e.ieObject e.ieRequest
    obtain ⟨hpos, hroom⟩ := h.1.urefs_send (by rw [htype]; rfl)
    have hboth : ({ typeOf e.ieBits with receive := true } : PortType) = .sendReceive := by
      rw [typeOf_bits, htype]
      rfl
    rw [hboth] at hcap
    unfold ipcRightCopyout copyoutChange
    dsimp only
    refine .changed ⟨?_, ?_⟩ ?_
    · rw [hcap]
      exact .send (.inr rfl) hpos hroom
    · rw [hcap]
      exact (by decide : PortType.sendReceive ≠ PortType.none)
    · rw [hcap]
      exact (add_zero _).symm

theorem copyoutQuick_counts (h : e.Ok) (htype : e.cap.type = .onlySend) :
    Counts e (some .success) (copyoutChange e.cap .send) (some e.copyoutQuick) := by
  have hmax : urefsMax = 2 ^ 16 - 1 := rfl
  have hsend : e.cap.type.send = true := by rw [htype]; rfl
  obtain ⟨hpos, hroom⟩ := h.1.urefs_send hsend
  have hcap := cap_inc e.ieBits e.ieObject e.ieRequest (by rw [count_bits]; omega)
  have hurefs : (urefs (e.ieBits + 1)).toNat = e.cap.urefs + 1 :=
    (toNat_urefs _).trans (congrArg Capability.urefs hcap)
  have hquick : BitVec.ult (urefs (e.ieBits + 1)) machPortUrefsMax = true ↔
      (e.cap.urefs : ℤ) + 1 ≠ urefsMax := by
    rw [BitVec.ult, decide_eq_true_eq, hurefs, show machPortUrefsMax.toNat = 2 ^ 16 - 1 by decide]
    omega
  unfold copyoutQuick copyoutChange
  dsimp only
  by_cases hpeg : (e.cap.urefs : ℤ) + 1 = urefsMax
  · rw [if_neg fun hc => hquick.mp hc hpeg, if_pos ⟨hsend, hpeg⟩]
    exact .same h fun _ => rfl
  · rw [if_pos (hquick.mpr hpeg), if_neg fun hc => hpeg hc.2]
    refine .changed (Ok.setSend (.inl htype) (n := e.cap.urefs + 1) (by omega) ?_ hcap) ?_
    · push_cast
      omega
    · rw [hcap]
      exact Nat.cast_succ _

/-- What a dead-name request does to the count: a dead name is notified of at once. -/
def dnrequestChange (immediate : Bool) (c : Capability) : Notify → ℤ
  | .null => 0
  | .notify _ => if c.type.deadName = true ∧ immediate = true then 1 else 0

theorem dncancel_cap (e : EntryWord) : e.dncancel.2.cap = { e.cap with request := 0 } := by
  rw [dncancel_eq]
  rfl

theorem dnrequest_immediately (h : b.Ok) (immediate : Bool) (notify : Notify)
    {r : Option KernReturn × Option EntryWord}
    (hr : r = match notify with
      | .notify _ =>
        if has b.ieBits deadName = true ∧ immediate = true then
          if machPortUrefsOverflow (urefs b.ieBits) 1 = true then (some .urefsOverflow, some b)
          else (some .success, some { b with ieBits := b.ieBits + 1 })
        else if has b.ieBits (send ||| receive ||| sendOnce ||| deadName) = true then
          (some .invalidArgument, some b)
        else (some .invalidRight, some b)
      | .null =>
        if has b.ieBits (send ||| receive ||| sendOnce ||| deadName) = true then
          (some .invalidArgument, some b)
        else (some .invalidRight, some b)) :
    Counts b r.1 (dnrequestChange immediate b.cap notify) r.2 := by
  rw [hr]
  have hmax : urefsMax = 2 ^ 16 - 1 := rfl
  have hlt : b.cap.urefs < 2 ^ 16 := count_lt _
  cases notify with
  | null =>
    dsimp only
    split_ifs <;> exact .same h (by simp)
  | notify slot =>
    dsimp only
    by_cases hname : has b.ieBits deadName = true ∧ immediate = true
    · rw [if_pos hname]
      rw [has_deadName, typeOf_bits] at hname
      have htype := h.deadName_type hname.1
      split_ifs with hover
      · exact .same h (by simp)
      · rw [overflow_iff (by rw [toNat_urefs, count_bits]; omega), toNat_urefs, count_bits,
          show (1 : BitVec 32).toInt = 1 by decide] at hover
        have hcap := cap_inc b.ieBits b.ieObject b.ieRequest (by rw [count_bits]; omega)
        refine .changed (h.setDeadName htype (n := b.cap.urefs + 1) (by omega) (by push_cast; omega)
          hcap) ?_
        unfold dnrequestChange
        dsimp only
        rw [hcap, if_pos hname]
        exact Nat.cast_succ _
    · rw [if_neg hname]
      split_ifs <;> exact .same h (by simp)

theorem ipcRightDnrequest_outcome (h : e.Ok) {alive : Bool} (immediate : Bool) (notify : Notify)
    (hop : alive = true ∨ e.cap.type.receive = false) :
    Outcome alive e (e.ipcRightDnrequest alive immediate notify).1
      (fun c => dnrequestChange immediate c notify) (e.ipcRightDnrequest alive immediate notify).2 := by
  unfold ipcRightDnrequest
  dsimp only
  by_cases hport : has e.ieBits (send ||| receive ||| sendOnce) = true
  swap
  · rw [if_neg hport]
    exact ⟨e, .refl e, dnrequest_immediately h immediate notify rfl⟩
  rw [if_pos hport]
  rw [has_or, has_or, has_send, has_receive, has_sendOnce, typeOf_bits] at hport
  have hlive : e.cap.type.send = true ∨ e.cap.type.receive = true ∨ e.cap.type.sendOnce = true := by
    revert hport
    cases e.cap.type.send <;> cases e.cap.type.receive <;> cases e.cap.type.sendOnce <;> simp
  have hcheck : e.ipcRightCheck alive = (false, some e) ∨
      (e.ipcRightCheck alive = (true, none) ∧ e.cap.compat = true) ∨
      ∃ b, e.ipcRightCheck alive = (true, some b) ∧ e.cap.type.sendRights = true ∧
        (alive = false ∧ (e.ipcRightCheck false).2 = some b) ∧ e.cap.compat = false ∧ b.Ok := by
    rcases hop with rfl | hrecv
    · exact .inl rfl
    · have hrights : e.cap.type.sendRights = true := by
        rw [hrecv] at hlive
        unfold PortType.sendRights
        rcases hlive with hc | hc | hc
        · rw [hc]
          rfl
        · cases hc
        · rw [hc, Bool.or_true]
      rcases e.check_cases alive h hrights with hc | hc | ⟨b, hc, hsome, hcompat, hb, -⟩
      · exact .inl hc
      · exact .inr (.inl hc)
      · exact .inr (.inr ⟨b, hc, hrights, hsome, hcompat, hb⟩)
  rcases hcheck with hcheck | ⟨hcheck, hcompat⟩ | ⟨b, hcheck, hrights, hsome, hcompat, hb⟩
  · rw [hcheck]
    have hname : e.cap.type.deadName = false := by
      by_contra hc
      have htype := h.deadName_type (by simpa using hc)
      rw [htype] at hlive
      rcases hlive with hc | hc | hc <;> cases hc
    have hsame : ∀ {kr : Option KernReturn} {e' : EntryWord}, kr ≠ some .urefsOverflow →
        kr ≠ some .invalidValue → e'.cap.type = e.cap.type → e'.cap.urefs = e.cap.urefs →
        e'.cap.marequest = e.cap.marequest →
        Counts e kr (dnrequestChange immediate e.cap notify) (some e') := by
      intro kr e' hkr hkr' htype hurefs hm
      refine h.fields_counts hkr hkr' (fun _ => ?_) htype hurefs
        (hlive.imp_right fun hc => hc.imp_right fun hc => ⟨hc, hm⟩)
      cases notify with
      | null => rfl
      | notify slot => exact if_neg fun hc => by rw [hname] at hc; exact absurd hc.1 (by simp)
    cases notify with
    | null =>
      dsimp only
      split_ifs
      · exact ⟨e, .refl e, hsame (by simp) (by simp) rfl rfl rfl⟩
      · exact ⟨e, .refl e, hsame (by simp) (by simp) (by rw [dncancel_cap]) (by rw [dncancel_cap])
          (by rw [dncancel_cap])⟩
    | notify slot =>
      cases slot with
      | none => exact ⟨e, .refl e, hsame (by simp) (by simp) (by rw [dncancel_cap])
          (by rw [dncancel_cap]) (by rw [dncancel_cap])⟩
      | some request =>
        dsimp only
        have hcap := cap_clearCompat e.ieBits e.dncancel.2.ieObject request
        exact ⟨e, .refl e, hsame (by simp) (by simp) (congrArg Capability.type hcap :)
          (congrArg Capability.urefs hcap :) (congrArg Capability.marequest hcap :)⟩
  · rw [hcheck]
    dsimp only
    rw [has_compat, compat_bits, if_pos hcompat]
    exact ⟨e, .refl e, .gone (by simp) (by simp)⟩
  · rw [hcheck]
    dsimp only
    rw [has_compat, compat_bits, if_neg (by rw [hcompat]; simp)]
    exact ⟨b, .inr ⟨hrights, hsome⟩, dnrequest_immediately hb immediate notify rfl⟩

theorem renamed_counts (h : b.Ok) (gen : BitVec 32) :
    Counts b (some .success) 0
      (some { b with ieBits := (fresh gen).ieBits ||| (b.ieBits &&& rightMask) }) := by
  have hcap := cap_rename b.ieBits b.ieObject b.ieRequest gen
  refine .changed ⟨?_, ?_⟩ ?_
  · rw [hcap]
    exact h.1
  · rw [hcap]
    exact h.2
  · rw [hcap]
    exact (add_zero _).symm

theorem ipcRightRename_outcome (h : e.Ok) {alive : Bool} (gen : BitVec 32)
    (hop : alive = true ∨ e.cap.type.receive = false) :
    Outcome alive e (some (e.ipcRightRename alive gen).1) (fun _ => 0)
      (e.ipcRightRename alive gen).2 := by
  unfold ipcRightRename
  dsimp only
  by_cases hrequest : e.ieRequest ≠ 0
  swap
  · rw [if_neg hrequest]
    exact ⟨e, .refl e, renamed_counts h gen⟩
  rw [if_pos hrequest]
  rcases hop with rfl | hrecv
  · exact ⟨e, .refl e, renamed_counts h gen⟩
  have hrights : e.cap.type.sendRights = true := by
    cases h.1 with
    | none ht => exact absurd ht h.2
    | send ht => rcases ht with ht | ht <;> rw [ht] <;> rfl
    | receive ht =>
      rw [ht] at hrecv
      cases hrecv
    | sendOnce ht => rw [ht]; rfl
    | portSet _ _ _ hzero => exact absurd hzero hrequest
    | deadName _ _ _ _ _ hzero => exact absurd hzero hrequest
  refine h.outcome_check hrights id ?_ ?_ ?_
    (f := afterCheck (fun e' => checked e.ieBits e' fun e => (.success,
        some { e with ieBits := (fresh gen).ieBits ||| (e.ieBits &&& rightMask) }))
      (.success, some { e with ieBits := (fresh gen).ieBits ||| (e.ieBits &&& rightMask) }))
  · exact ⟨e, .refl e, renamed_counts h gen⟩
  · intro hcompat
    simp only [afterCheck, checked, has_compat, compat_bits, hcompat, if_true]
  · intro b hb htype hcompat
    simp only [afterCheck, checked, has_compat, compat_bits, hcompat]
    exact renamed_counts hb gen

theorem marequest_counts (h : e.Ok) (hop : e.cap.type.send = true ∨ e.cap.type.receive = true) :
    Counts e (some .success) 0 (some { e with ieBits := e.ieBits ||| marequest }) ∧
      Counts e (some .success) 0 (some { e with ieBits := e.ieBits &&& ~~~marequest }) := by
  have hset := cap_setMarequest e.ieBits e.ieObject e.ieRequest
  have hclear := cap_clearMarequest e.ieBits e.ieObject e.ieRequest
  exact ⟨h.fields_counts (by simp) (by simp) (fun _ => rfl) (congrArg Capability.type hset :)
      (congrArg Capability.urefs hset :) (hop.imp_right .inl),
    h.fields_counts (by simp) (by simp) (fun _ => rfl) (congrArg Capability.type hclear :)
      (congrArg Capability.urefs hclear :) (hop.imp_right .inl)⟩

/-! ## New entries -/

theorem cap_fresh_or (gen m : BitVec 32) (object : Option ℕ) (request : ℕ) :
    (⟨(fresh gen).ieBits ||| m, object, request⟩ : EntryWord).cap =
      (⟨m, object, request⟩ : EntryWord).cap := by
  simp only [cap, Capability.mk.injEq, and_true]
  refine ⟨?_, count_or_of_zero m (count_fresh gen), ?_, ?_⟩
  all_goals simp [typeOf, fresh, rightMask]

theorem ok_of_word {object : Option ℕ} {request n : ℕ} {t : PortType}
    (hm : typeOf m = t ∧ count m = n) (ht : t ≠ .none)
    (h : Capability.Valid ⟨t, n, m.getLsbD 21, m.getLsbD 22, object, request⟩) :
    (⟨m, object, request⟩ : EntryWord).Ok := by
  obtain ⟨rfl, rfl⟩ := hm
  exact ⟨h, ht⟩

theorem copyout_fresh_ok (gen : BitVec 32) (hm : m = 0 ∨ m = compat)
    (object : Option ℕ) (request : ℕ) (overflow : Bool)
    (hright : right = .send ∨ right = .receive ∨ right = .sendOnce) :
    ((⟨(fresh gen).ieBits ||| m, object, request⟩ : EntryWord).ipcRightCopyout right overflow).2.Ok := by
  have hplain := cap_fresh_or gen m object request
  have hm' : typeOf m = .none ∧ count m = 0 := by
    rcases hm with rfl | rfl <;> decide
  rcases hright with rfl | rfl | rfl
  · have hcount : count ((fresh gen).ieBits ||| m) = 0 :=
      (congrArg Capability.urefs hplain).trans hm'.2
    have htype : typeOf ((fresh gen).ieBits ||| m) = .none :=
      (congrArg Capability.type hplain).trans hm'.1
    have hcap := cap_copyoutSend ((fresh gen).ieBits ||| m) object request (by rw [hcount]; decide)
    rw [hcount, htype] at hcap
    unfold ipcRightCopyout
    dsimp only
    rw [has_send, htype, if_neg (by simp [PortType.none])]
    refine ⟨?_, ?_⟩
    · rw [hcap]
      exact .send (.inl rfl) one_pos (by change ((1 : ℕ) : ℤ) < urefsMax; decide)
    · rw [hcap]
      exact (by decide : PortType.onlySend ≠ PortType.none)
  · unfold ipcRightCopyout
    dsimp only
    rw [Ok, BitVec.or_assoc, cap_fresh_or]
    exact ok_of_word (t := .onlyReceive) (n := 0) (by rcases hm with rfl | rfl <;> decide) (by decide)
      (.receive rfl rfl)
  · unfold ipcRightCopyout
    dsimp only
    rw [Ok, BitVec.or_assoc, cap_fresh_or]
    exact ok_of_word (t := .onlySendOnce) (n := 1) (by rcases hm with rfl | rfl <;> decide) (by decide)
      (.sendOnce rfl rfl (by rcases hm with rfl | rfl <;> rfl))

theorem Made.ok (h : Made e) : e.Ok := by
  cases h with
  | copyout gen port right overflow hright =>
    have hzero := copyout_fresh_ok gen (.inl rfl) (some port) 0 overflow hright
    rwa [show (fresh gen).ieBits ||| 0 = (fresh gen).ieBits from BitVec.or_zero] at hzero
  | copyoutCompat gen port request right hright =>
    exact copyout_fresh_ok gen (.inr rfl) (some port) request true hright
  | alloc gen object type htype =>
    rw [Ok, cap_fresh_or]
    rcases htype with rfl | rfl
    · exact ok_of_word (t := .onlyReceive) (n := 0) (by decide) (by decide) (.receive rfl rfl)
    · exact ok_of_word (t := .onlyPortSet) (n := 0) (by decide) (by decide)
        (.portSet rfl rfl rfl rfl)
  | allocCompat gen port =>
    rw [Ok, cap_fresh_or]
    exact ok_of_word (t := .onlyReceive) (n := 0) (by decide) (by decide) (.receive rfl rfl)
  | allocDead gen =>
    rw [Ok, cap_fresh_or]
    exact ok_of_word (t := .onlyDeadName) (n := 1) (by decide) (by decide)
      (.deadName rfl one_pos (by decide) rfl rfl rfl rfl)

end EntryWord

/-! ## Runs -/

namespace UrefOp
open EntryWord
variable {e : EntryWord}

/-- Whether the port is alive; it is dead when a copyin is undone. -/
def alive : UrefOp → Bool
  | dealloc alive | delta alive _ _ | copyin alive _ _ | copyinTwo alive | dnrequest alive _ _
  | check alive | rename alive _ => alive
  | copyinUndone _ _ _ => false
  | copyout _ _ | copyoutQuick | marequest | marequestDestroy => true

/-- What the operation does to the count when it succeeds and the entry stays. -/
def change (c : Capability) : UrefOp → ℤ
  | copyout right _ => copyoutChange c right
  | copyoutQuick => copyoutChange c .send
  | dealloc _ => -1
  | delta _ right d => deltaChange d c right
  | copyin _ msgtName _ => copyinChange msgtName
  | copyinTwo _ => -2
  | dnrequest _ immediate notify => dnrequestChange immediate c notify
  | copyinUndone _ _ _ | check _ | rename _ _ | marequest | marequestDestroy => 0

theorem run_outcome (h : e.Ok) {op : UrefOp} (hop : op.Enabled e) :
    Outcome op.alive e (op.run e).1 op.change (op.run e).2 := by
  cases op with
  | copyout right overflow =>
    refine ⟨e, .refl e, ipcRightCopyout_counts h overflow ?_⟩
    have hop : right = .send ∧ has e.ieBits (send ||| receive) = true ∨
      right = .receive ∧ type e.ieBits = send := hop
    rwa [has_or, has_send, has_receive, Bool.or_eq_true, type_send] at hop
  | copyoutQuick => exact ⟨e, .refl e, copyoutQuick_counts h ((type_send e).mp hop)⟩
  | dealloc alive => exact ipcRightDealloc_outcome h alive
  | delta alive right d => exact ipcRightDelta_outcome h alive right d
  | copyin alive msgtName deadok => exact copyin_outcome h alive msgtName deadok
  | copyinUndone alive msgtName deadok =>
    exact copyinUndone_outcome h alive hop.1 ((has_receive _).symm.trans hop.2) deadok
  | copyinTwo alive => exact copyinTwo_outcome h alive
  | dnrequest alive immediate notify =>
    exact ipcRightDnrequest_outcome h immediate notify (hop.imp_right (has_receive _).symm.trans)
  | check alive =>
    have hop : has e.ieBits (send ||| sendOnce) = true := hop
    rw [has_or, has_send, has_sendOnce] at hop
    exact check_outcome h hop alive
  | rename alive gen => exact ipcRightRename_outcome h gen (hop.imp_right (has_receive _).symm.trans)
  | marequest =>
    have hop : has e.ieBits (send ||| receive) = true := hop
    rw [has_or, has_send, has_receive, Bool.or_eq_true] at hop
    exact ⟨e, .refl e, (marequest_counts h hop).1⟩
  | marequestDestroy =>
    have hop : has e.ieBits (send ||| receive) = true := hop
    rw [has_or, has_send, has_receive, Bool.or_eq_true] at hop
    exact ⟨e, .refl e, (marequest_counts h hop).2⟩

end UrefOp

namespace EntryWord
variable {e : EntryWord}

theorem Reachable.ok (h : e.Reachable) : e.Ok := by
  induction h with
  | made h => exact h.ok
  | step op _ hop he ih =>
    obtain ⟨b, -, hcounts⟩ := op.run_outcome ih hop
    exact hcounts.ok _ he

/-- The bounds of a user-reference count by the type of the entry. -/
def UrefsOk (e : EntryWord) : Prop :=
  (has e.ieBits send = true → 0 < count e.ieBits ∧ count e.ieBits < machPortUrefsMax.toNat) ∧
    (type e.ieBits = sendOnce → count e.ieBits = 1) ∧
    (type e.ieBits = deadName → 0 < count e.ieBits ∧ count e.ieBits ≤ machPortUrefsMax.toNat) ∧
    (type e.ieBits = receive ∨ type e.ieBits = portSet → count e.ieBits = 0) ∧
    (has e.ieBits send = true ∨ type e.ieBits = sendOnce ∨ type e.ieBits = deadName ∨
      type e.ieBits = receive ∨ type e.ieBits = portSet)

theorem type_receive (e : EntryWord) : type e.ieBits = receive ↔ e.cap.type = .onlyReceive := by
  rw [show receive = ofType .onlyReceive by decide, e.type_iff]

theorem type_portSet (e : EntryWord) : type e.ieBits = portSet ↔ e.cap.type = .onlyPortSet := by
  rw [show portSet = ofType .onlyPortSet by decide, e.type_iff]

theorem Ok.urefsOk (h : e.Ok) : e.UrefsOk := by
  have hmax : (machPortUrefsMax.toNat : ℤ) = urefsMax := by decide
  unfold UrefsOk
  rw [has_send, type_sendOnce, type_deadName, type_receive, type_portSet, count_bits, typeOf_bits]
  refine ⟨fun hsend => ?_, fun hone => (h.1.urefs_sendOnce hone).1, fun hdead => ?_,
    fun hzero => ?_, ?_⟩
  · obtain ⟨hpos, hroom⟩ := h.1.urefs_send hsend
    exact ⟨hpos, by omega⟩
  · have hlt : e.cap.urefs < 2 ^ 16 := count_lt _
    have hmax' : machPortUrefsMax.toNat = 2 ^ 16 - 1 := by decide
    exact ⟨(h.deadName hdead).1, by omega⟩
  · cases h.1 with
    | receive _ hz | portSet _ hz => exact hz
    | none ht => exact absurd ht h.2
    | send ht =>
      rcases hzero with hc | hc <;> rcases ht with ht | ht <;> rw [ht] at hc <;> cases hc
    | sendOnce ht | deadName ht => rcases hzero with hc | hc <;> rw [ht] at hc <;> cases hc
  · cases h.1 with
    | none ht => exact absurd ht h.2
    | send ht => rcases ht with ht | ht <;> rw [ht] <;> exact .inl rfl
    | receive ht => exact .inr (.inr (.inr (.inl ht)))
    | sendOnce ht => exact .inr (.inl ht)
    | portSet ht => exact .inr (.inr (.inr (.inr ht)))
    | deadName ht => exact .inr (.inr (.inl ht))

/-- Every entry keeps its bounds, every operation counts exactly, and what finds its amount wrong leaves
the entry as it is, or as the dead name that the check of the port made of it. -/
theorem urefs_bounded (h : e.Reachable) :
    e.UrefsOk ∧
      (∀ op : UrefOp, op.Enabled e → ∃ b, Base op.alive e b ∧
        (∀ e', (op.run e).2 = some e' → (e'.cap.urefs : ℤ) =
          b.cap.urefs + if (op.run e).1 = some .success then op.change b.cap else 0) ∧
        ((op.run e).1 = some .urefsOverflow ∨ (op.run e).1 = some .invalidValue →
          (op.run e).2 = some b)) ∧
      ∀ d : BitVec 32,
        (machPortUrefsUnderflow (urefs e.ieBits) d = true ↔ (count e.ieBits : ℤ) + d.toInt < 0) ∧
        (machPortUrefsOverflow (urefs e.ieBits) d = true ↔
          (machPortUrefsMax.toNat : ℤ) < count e.ieBits + d.toInt) ∧
        (has e.ieBits send = true → (machPortUrefsOverflow (urefs e.ieBits + 1) d = true ↔
          (machPortUrefsMax.toNat : ℤ) < count e.ieBits + 1 + d.toInt)) ∧
        (0 ≤ (count e.ieBits : ℤ) + d.toInt → (count e.ieBits : ℤ) + d.toInt ≤ machPortUrefsMax.toNat →
          ((e.ieBits + d).toNat : ℤ) = e.ieBits.toNat + d.toInt) := by
  have hmax : (machPortUrefsMax.toNat : ℤ) = 2 ^ 16 - 1 := by decide
  have hlt := count_lt e.ieBits
  refine ⟨h.ok.urefsOk, fun op hop => ?_, fun d => ⟨underflow_iff _ d, ?_, fun hsend => ?_,
    fun hlow hhigh => ?_⟩⟩
  · obtain ⟨b, hbase, hcounts⟩ := op.run_outcome h.ok hop
    exact ⟨b, hbase, hcounts.exact, hcounts.unchanged⟩
  · rw [overflow_iff (by rw [toNat_urefs]; omega), toNat_urefs]
    omega
  · have hroom := (h.ok.urefsOk.1 hsend).2
    have hone : (urefs e.ieBits + 1).toNat = count e.ieBits + 1 := by
      rw [BitVec.toNat_add, toNat_urefs, show (1 : BitVec 32).toNat = 1 by rfl]
      omega
    rw [overflow_iff (by rw [hone]; omega), hone]
    push_cast
    omega
  · obtain ⟨hcount, hdiv⟩ := add_eq e.ieBits d hlow (by omega)
    unfold count at hcount
    omega

theorem reachable_send : (⟨0x10001, some 1, 0⟩ : EntryWord).Reachable :=
  .made (Made.copyout 0 1 .send true (.inl rfl))

theorem urefs_bounded_send :
    (⟨0x10001, some 1, 0⟩ : EntryWord).Reachable ∧ (⟨0x10001, some 1, 0⟩ : EntryWord).UrefsOk :=
  ⟨reachable_send, (urefs_bounded reachable_send).1⟩

/-- A dead name is asked for more than it can give up, where a send right was before the check; and an
entry with a receive right counts nothing. -/
theorem delta_converts : (⟨0x10001, some 1, 0⟩ : EntryWord).Reachable ∧
      (UrefOp.delta false .deadName (-5)).Enabled ⟨0x10001, some 1, 0⟩ ∧
      (UrefOp.delta false .deadName (-5)).run ⟨0x10001, some 1, 0⟩ =
        (some .invalidValue, some ⟨0x100001, none, 0⟩) ∧
      (⟨0x20000, some 1, 0⟩ : EntryWord).Reachable ∧
      count (⟨0x20000, some 1, 0⟩ : EntryWord).ieBits = 0 :=
  ⟨reachable_send, trivial, by decide, .made (Made.alloc 0 1 receive (.inl rfl)), rfl⟩

end EntryWord

end MachKernel.Ipc
