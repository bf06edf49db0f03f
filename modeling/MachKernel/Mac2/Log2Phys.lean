import Mathlib.Data.BitVec
import Mathlib.Data.Nat.Bitwise
import Mathlib.Tactic

/-! The walk through the translation tree that is there at boot time (`mac2/pmmu_log2phys.c`). -/

namespace MachKernel.Mac2.Log2Phys
open Option List

/-- `bfextu` of a register: the offset and the width count modulo 32, a width of 0 is 32, and a field
goes round the end of the register. -/
def extractField (v : BitVec 32) (o w : ℕ) : BitVec 32 :=
  v.rotateLeft o >>> (32 - if w % 32 = 0 then 32 else w % 32)

/-- `DT_INVALID` and so on. -/
inductive Dt
  | invalid
  | page
  | tbl4
  | tbl8
deriving DecidableEq

/-- A `desc_t` with what tells how long it is. -/
inductive Desc
  | short (d4Byte : BitVec 32)
  | long (d8Byte0 d8Byte1 : BitVec 32)
deriving DecidableEq

namespace Desc

def dt (d : Desc) : Dt :=
  let bits : BitVec 2 := match d with
    | short w => w.setWidth 2
    | long w _ => w.setWidth 2
  match bits with
  | 0 => .invalid
  | 1 => .page
  | 2 => .tbl4
  | 3 => .tbl8

/-- The long word with the address. -/
def adr : Desc → BitVec 32
  | short w => w
  | long _ w => w

/-- `tbl_adr << TBL_SHIFT`. -/
def tblAdr (d : Desc) : BitVec 32 := (d.adr >>> 4) <<< 4

/-- `pg_adr << PG_SHIFT`. -/
def pgAdr (d : Desc) : BitVec 32 := (d.adr >>> 8) <<< 8

/-- For a table, whether its descriptors are long. -/
def table (d : Desc) : Option Bool :=
  match d.dt with
  | .invalid | .page => none
  | .tbl4 => some false
  | .tbl8 => some true

end Desc

/-- What the walk reads: the long words by their logical address, and the registers. The initial shift
is 0 and there is no lookup by function codes. -/
structure Boot where
  bootGlobPtr : BitVec 32
  phys2Log : BitVec 32
  mem : BitVec 32 → BitVec 32
  -- `RP`
  rp0 : BitVec 32
  rp1 : BitVec 32
  -- `TC`
  ps : BitVec 4
  tia : BitVec 4
  tib : BitVec 4
  tic : BitVec 4
  tid : BitVec 4

/-- How a walk ends: with an address, or with the width of a level that there is none for. -/
inductive Ended
  | phys (a : BitVec 32)
  | noWidth
deriving DecidableEq

namespace Boot
variable (b : Boot)

def widths : List ℕ := [b.tia.toNat, b.tib.toNat, b.tic.toNat, b.tid.toNat]

def pagesize : BitVec 32 := 1 <<< b.ps.toNat

def fetchDesc (tblIsLong : Bool) (t i : BitVec 32) : Desc :=
  if tblIsLong = true then
    let p := t + b.phys2Log + i * 8
    .long (b.mem p) (b.mem (p + 4))
  else
    let p := t + b.phys2Log + i * 4
    .short (b.mem p)

/-- `do_level`, with fuel for its calls and its jumps back. -/
def doLevel (va : BitVec 32) : ℕ → ℕ → Desc → ℕ → Option Ended
  | 0, _, _, _ => none
  | fuel + 1, level, dp, bitOffset =>
    match dp.table with
    | none =>
      match dp.dt with
      | .page =>
        let phys := dp.pgAdr &&& ~~~(b.pagesize - 1)
        some (.phys (phys + extractField va bitOffset (32 - bitOffset)))
      | _ => some (.phys 0)
    | some tblIsLong =>
      match b.widths[level]? with
      | none => some .noWidth
      | some w =>
        let desc := b.fetchDesc tblIsLong dp.tblAdr (extractField va bitOffset w)
        if w ≠ 0 then doLevel va fuel (level + 1) desc (bitOffset + w)
        else doLevel va fuel level desc bitOffset

def root : Desc := .long b.rp0 b.rp1

def log2Phys (fuel : ℕ) (va : BitVec 32) : Option Ended :=
  if b.bootGlobPtr = 0xffffffff then some (.phys va) else b.doLevel va fuel 0 b.root 0

end Boot

/-! ## The PMMU -/

/-- What the PMMU makes of an address. -/
inductive Search
  | address (a : BitVec 32)
  | invalid
  | limit
deriving DecidableEq

/-- Whether an index is within the limit of a long table descriptor. -/
def Desc.allows (i : ℕ) : Desc → Bool
  | short _ => true
  | long w _ =>
    let limit := (w >>> 16).toNat % 2 ^ 15
    if w.msb = true then limit ≤ i else i ≤ limit

namespace Boot
variable (b : Boot)

/-- The widths of the indices in use. -/
def used : List ℕ := b.widths.takeWhile (· ≠ 0)

/-- What the PMMU accepts in the TC register. -/
def Accepted : Prop := 8 ≤ b.ps.toNat ∧ b.used.sum + b.ps.toNat = 32

instance : Decidable b.Accepted := inferInstanceAs (Decidable (_ ∧ _))

/-- The descriptor at a physical address. -/
def descAt (isLong : Bool) (a : BitVec 32) : Desc :=
  if isLong = true then .long (b.mem (a + b.phys2Log)) (b.mem (a + 4 + b.phys2Log))
  else .short (b.mem (a + b.phys2Log))

/-- Entry `i` of a table. -/
def entry (isLong : Bool) (t : BitVec 32) (i : ℕ) : Desc :=
  b.descAt isLong (t + BitVec.ofNat 32 (i * if isLong = true then 8 else 4))

/-- The page of a page descriptor, and what is left of the address after `off` bits. -/
def pageAddress (va : BitVec 32) (off : ℕ) (d : Desc) : BitVec 32 :=
  (d.pgAdr &&& ~~~(b.pagesize - 1)) + BitVec.ofNat 32 (va.toNat % 2 ^ (32 - off))

/-- The next `w` bits of the address after `off` bits. -/
def index (va : BitVec 32) (off w : ℕ) : ℕ := va.toNat / 2 ^ (32 - off - w) % 2 ^ w

/-- The table search of the PMMU. A table descriptor below the last index is an indirect one, and is
followed once. -/
def pmmu (va : BitVec 32) (ws : List ℕ) (d : Desc) (off : ℕ) : Search :=
  match d.table with
  | none => if d.dt = .page then .address (b.pageAddress va off d) else .invalid
  | some isLong =>
    match ws with
    | w :: ws =>
      let i := index va off w
      if d.allows i = true then pmmu va ws (b.entry isLong d.tblAdr i) (off + w) else .limit
    | [] =>
      let d := b.entry isLong d.tblAdr 0
      if d.dt = .page then .address (b.pageAddress va off d) else .invalid

/-- The walk ends, reads no width that does not exist, and gives the address of the PMMU, or 0 where a
descriptor is invalid. -/
def Right (va : BitVec 32) : Prop :=
  ∃ fuel a, b.log2Phys fuel va = some (.phys a) ∧ match b.pmmu va b.used b.root 0 with
    | .address a' => a = a'
    | .invalid => a = 0
    | .limit => True

end Boot

/-! ## Fields of the address -/

theorem extractField_toNat (va : BitVec 32) {o w : ℕ} (hw : 0 < w) (ho : o < 32) (hfit : o + w ≤ 32) :
    (extractField va o w).toNat = va.toNat / 2 ^ (32 - o - w) % 2 ^ w := by
  have hwidth : (if w % 32 = 0 then 32 else w % 32) = w := by
    split_ifs <;> omega
  rw [extractField, hwidth]
  apply Nat.eq_of_testBit_eq
  intro i
  rw [BitVec.testBit_toNat, BitVec.getLsbD_ushiftRight, BitVec.getLsbD_rotateLeft,
    Nat.testBit_mod_two_pow, Nat.testBit_div_two_pow, BitVec.testBit_toNat, Nat.mod_eq_of_lt ho]
  by_cases hi : i < w
  · rw [cond_eq_ite, if_neg (by simp; omega), decide_eq_true hi, decide_eq_true (by omega),
      show 32 - w + i - o = i + (32 - o - w) by omega]
  · rw [cond_eq_ite, if_neg (by simp; omega), decide_eq_false hi, decide_eq_false (by omega),
      Bool.false_and, Bool.false_and]

namespace Boot
variable {b : Boot} {va : BitVec 32} {d : Desc} {off level : ℕ} {e : Ended}

theorem extractField_index {w : ℕ} (hw : 0 < w) (ho : off < 32) (hfit : off + w ≤ 32) :
    extractField va off w = BitVec.ofNat 32 (index va off w) := by
  have hlt : index va off w < 2 ^ 32 :=
    lt_of_le_of_lt ((Nat.mod_le _ _).trans (Nat.div_le_self _ _)) va.isLt
  rw [← BitVec.toNat_inj, extractField_toNat va hw ho hfit, BitVec.toNat_ofNat, Nat.mod_eq_of_lt hlt,
    index]

theorem extractField_offset (ho : off < 32) :
    extractField va off (32 - off) = BitVec.ofNat 32 (va.toNat % 2 ^ (32 - off)) := by
  rw [extractField_index (by omega) ho (by omega), index, Nat.sub_self, pow_zero, Nat.div_one]

theorem extractField_zero : extractField va off 0 = va.rotateLeft off := BitVec.ushiftRight_zero _

theorem fetchDesc_eq (isLong : Bool) (t : BitVec 32) (i : ℕ) :
    b.fetchDesc isLong t (BitVec.ofNat 32 i) = b.entry isLong t i := by
  have hswap : ∀ x y z : BitVec 32, x + y + z = x + z + y := fun x y z => by
    rw [BitVec.add_assoc, BitVec.add_comm y, ← BitVec.add_assoc]
  unfold fetchDesc entry descAt
  rw [BitVec.ofNat_mul]
  cases isLong
  · rw [if_neg (by simp), if_neg (by simp), if_neg (by simp), hswap t]
    rfl
  · rw [if_pos rfl, if_pos rfl, if_pos rfl, hswap t, hswap _ 4]
    rfl

/-! ## How a walk ends -/

/-- The walk from a descriptor ends. -/
def Ends (b : Boot) (va : BitVec 32) (level : ℕ) (d : Desc) (off : ℕ) (e : Ended) : Prop :=
  ∃ fuel, b.doLevel va fuel level d off = some e

/-- What a descriptor that is not for a table gives; the PMMU takes one for a table that an indirect
descriptor points to as invalid. -/
def value (b : Boot) (va : BitVec 32) (off : ℕ) (d : Desc) : BitVec 32 :=
  if d.dt = .page then b.pageAddress va off d else 0

theorem ends_leaf (hd : d.table = none) (ho : off < 32) :
    b.Ends va level d off e ↔ e = .phys (b.value va off d) := by
  have hstep : ∀ fuel, b.doLevel va (fuel + 1) level d off = some (.phys (b.value va off d)) := by
    intro fuel
    rw [doLevel, hd]
    unfold value pageAddress
    cases hdt : d.dt with
    | page => rw [if_pos rfl, ← extractField_offset ho]
    | invalid | tbl4 | tbl8 => rfl
  refine ⟨fun ⟨fuel, h⟩ => ?_, fun h => ⟨1, by rw [h]; exact hstep 0⟩⟩
  cases fuel with
  | zero => cases h
  | succ fuel => exact (some.inj ((hstep fuel).symm.trans h)).symm

theorem ends_next {level' off' : ℕ} {d' : Desc}
    (h : ∀ fuel, b.doLevel va (fuel + 1) level d off = b.doLevel va fuel level' d' off') :
    b.Ends va level d off e ↔ b.Ends va level' d' off' e := by
  refine ⟨fun ⟨fuel, hf⟩ => ?_, fun ⟨fuel, hf⟩ => ⟨fuel + 1, (h fuel).trans hf⟩⟩
  cases fuel with
  | zero => cases hf
  | succ fuel => exact ⟨fuel, (h fuel).symm.trans hf⟩

theorem ends_table {isLong : Bool} {w : ℕ} (hd : d.table = some isLong)
    (hw : b.widths[level]? = some w) (hpos : 0 < w) (ho : off < 32) (hfit : off + w ≤ 32) :
    b.Ends va level d off e ↔
      b.Ends va (level + 1) (b.entry isLong d.tblAdr (index va off w)) (off + w) e := by
  refine ends_next fun fuel => ?_
  rw [doLevel, hd]
  dsimp only
  rw [hw]
  dsimp only
  rw [if_pos hpos.ne', extractField_index hpos ho hfit, fetchDesc_eq]

theorem ends_again {isLong : Bool} (hd : d.table = some isLong) (hw : b.widths[level]? = some 0) :
    b.Ends va level d off e ↔
      b.Ends va level (b.fetchDesc isLong d.tblAdr (va.rotateLeft off)) off e := by
  refine ends_next fun fuel => ?_
  rw [doLevel, hd]
  dsimp only
  rw [hw]
  dsimp only
  rw [if_neg (by simp), extractField_zero]

theorem ends_noWidth {isLong : Bool} (hd : d.table = some isLong) (hw : b.widths[level]? = none) :
    b.Ends va level d off e ↔ e = .noWidth := by
  have hstep : ∀ fuel, b.doLevel va (fuel + 1) level d off = some .noWidth := by
    intro fuel
    rw [doLevel, hd]
    dsimp only
    rw [hw]
  refine ⟨fun ⟨fuel, h⟩ => ?_, fun h => ⟨1, by rw [h]; exact hstep 0⟩⟩
  cases fuel with
  | zero => cases h
  | succ fuel => exact (some.inj ((hstep fuel).symm.trans h)).symm

/-! ## Indirect descriptors -/

/-- The descriptors that the index `r` picks lead from a table to one that is not for a table. -/
inductive Leads (b : Boot) (r : BitVec 32) : Bool → BitVec 32 → Desc → Prop
  | stop {isLong : Bool} {t : BitVec 32} (h : (b.fetchDesc isLong t r).table = none) :
    Leads b r isLong t (b.fetchDesc isLong t r)
  | again {isLong isLong' : Bool} {t : BitVec 32} {d : Desc}
    (h : (b.fetchDesc isLong t r).table = some isLong')
    (rest : Leads b r isLong' (b.fetchDesc isLong t r).tblAdr d) : Leads b r isLong t d

theorem ends_indirect (hw : b.widths[level]? = some 0) (ho : off < 32) {isLong : Bool}
    (hd : d.table = some isLong) : b.Ends va level d off e ↔
      ∃ d', b.Leads (va.rotateLeft off) isLong d.tblAdr d' ∧ e = .phys (b.value va off d') := by
  constructor
  · rintro ⟨fuel, hfuel⟩
    induction fuel generalizing d isLong with
    | zero => cases hfuel
    | succ fuel ih =>
      have hnext : b.doLevel va fuel level (b.fetchDesc isLong d.tblAdr (va.rotateLeft off)) off =
          some e := by
        rw [← hfuel, doLevel, hd]
        dsimp only
        rw [hw]
        dsimp only
        rw [if_neg (by simp), extractField_zero]
      cases htable : (b.fetchDesc isLong d.tblAdr (va.rotateLeft off)).table with
      | none => exact ⟨_, .stop htable, (ends_leaf htable ho).mp ⟨fuel, hnext⟩⟩
      | some isLong' =>
        obtain ⟨d', hleads, he⟩ := ih htable hnext
        exact ⟨d', .again htable hleads, he⟩
  · rintro ⟨d', hleads, he⟩
    generalize ht : d.tblAdr = t at hleads
    induction hleads generalizing d with
    | stop h =>
      rw [ends_again hd hw, ht, ends_leaf h ho]
      exact he
    | again h _ ih =>
      rw [ends_again hd hw, ht]
      exact ih h he rfl

/-! ## The table search -/

/-- Where the indices lead, whatever the limits: to a descriptor that is not for a table, or to an
indirect one. -/
def search (b : Boot) (va : BitVec 32) (ws : List ℕ) (d : Desc) (off : ℕ) : Desc × ℕ :=
  match d.table with
  | none => (d, off)
  | some isLong =>
    match ws with
    | [] => (d, off)
    | w :: ws => search b va ws (b.entry isLong d.tblAdr (index va off w)) (off + w)

theorem width_used {w : ℕ} {ws : List ℕ} (hws : (b.widths.drop level).takeWhile (· ≠ 0) = w :: ws) :
    b.widths[level]? = some w ∧ 0 < w ∧ (b.widths.drop (level + 1)).takeWhile (· ≠ 0) = ws := by
  cases hdrop : b.widths.drop level with
  | nil =>
    rw [hdrop] at hws
    cases hws
  | cons w' rest =>
    have hget : b.widths[level]? = some w' := by
      rw [← head?_drop, hdrop]
      rfl
    have hrest : b.widths.drop (level + 1) = rest := by
      rw [← tail_drop, hdrop]
      rfl
    rw [hdrop, takeWhile_cons] at hws
    split_ifs at hws with hpos
    · obtain ⟨rfl, htail⟩ := List.cons.inj hws
      exact ⟨hget, Nat.pos_of_ne_zero (by simpa using hpos), by rw [hrest]; exact htail⟩

theorem width_zero (hnil : (b.widths.drop level).takeWhile (· ≠ 0) = []) (hlevel : level < 4) :
    b.widths[level]? = some 0 := by
  have hlt : level < b.widths.length := hlevel
  rw [drop_eq_getElem_cons hlt, takeWhile_cons] at hnil
  split_ifs at hnil with hzero
  rw [getElem?_eq_getElem hlt]
  simpa using hzero

theorem ends_search (va : BitVec 32) (d : Desc) (off : ℕ) {ws : List ℕ}
    (hws : (b.widths.drop level).takeWhile (· ≠ 0) = ws) (hfit : off + ws.sum < 32) :
    (b.search va ws d off).2 < 32 ∧ ∃ level',
      ((b.search va ws d off).1.table ≠ none → level' = level + ws.length ∧
        (b.widths.drop level').takeWhile (· ≠ 0) = []) ∧ ∀ e, b.Ends va level d off e ↔
        b.Ends va level' (b.search va ws d off).1 (b.search va ws d off).2 e := by
  induction ws generalizing level d off with
  | nil =>
    have hsearch : b.search va [] d off = (d, off) := by
      unfold search
      cases d.table <;> rfl
    rw [hsearch]
    exact ⟨lt_of_le_of_lt (Nat.le_add_right _ _) hfit, level, fun _ => ⟨rfl, hws⟩, fun e => Iff.rfl⟩
  | cons w ws ih =>
    rw [sum_cons] at hfit
    obtain ⟨hget, hpos, hrest⟩ := width_used hws
    unfold search
    cases hd : d.table with
    | none => exact ⟨by dsimp only; omega, level, fun h => absurd hd h, fun e => Iff.rfl⟩
    | some isLong =>
      obtain ⟨hoff, level', hlevel, hends⟩ :=
        ih (b.entry isLong d.tblAdr (index va off w)) (off + w) hrest (by omega)
      refine ⟨hoff, level', fun h => ?_, fun e => ?_⟩
      · obtain ⟨hlen, hnil⟩ := hlevel h
        exact ⟨by rw [hlen, length_cons]; omega, hnil⟩
      · rw [ends_table hd hget hpos (by omega) (by omega)]
        exact hends e

theorem pmmu_search (ws : List ℕ) : b.pmmu va ws d off = .limit ∨
      b.pmmu va ws d off = b.pmmu va [] (b.search va ws d off).1 (b.search va ws d off).2 := by
  induction ws generalizing d off with
  | nil =>
    unfold search
    cases d.table <;> exact .inr rfl
  | cons w ws ih =>
    unfold search
    cases hd : d.table with
    | none =>
      refine .inr ?_
      unfold pmmu
      rw [hd]
    | some isLong =>
      by_cases hlimit : d.allows (index va off w) = true
      · have hnext : b.pmmu va (w :: ws) d off =
            b.pmmu va ws (b.entry isLong d.tblAdr (index va off w)) (off + w) := by
          rw [pmmu, hd]
          exact if_pos hlimit
        rw [hnext]
        exact ih
      · refine .inl ?_
        rw [pmmu, hd]
        exact if_neg hlimit

/-- The condition: the indices of the address do not lead to an indirect descriptor. Or they do, before
all four widths are used, and the descriptors that the whole address, turned round, picks instead of
the first one of a table lead to one that gives the same address as the first one. -/
def Plain (b : Boot) (va : BitVec 32) : Prop :=
  let (d, off) := b.search va b.used b.root 0
  ∀ isLong, d.table = some isLong → b.used.length < 4 ∧
    ∃ d', b.Leads (va.rotateLeft off) isLong d.tblAdr d' ∧ (b.pmmu va b.used b.root 0 ≠ .limit →
        b.value va off d' = b.value va off (b.entry isLong d.tblAdr 0))

/-- What is asked of the address that the walk gives. -/
theorem asked_iff {a : BitVec 32} (hlimit : b.pmmu va b.used b.root 0 ≠ .limit) :
    (match b.pmmu va b.used b.root 0 with
      | .address a' => a = a'
      | .invalid => a = 0
      | .limit => True) ↔
      match (b.search va b.used b.root 0).1.table with
      | none => a = b.value va (b.search va b.used b.root 0).2 (b.search va b.used b.root 0).1
      | some isLong => a = b.value va (b.search va b.used b.root 0).2
          (b.entry isLong (b.search va b.used b.root 0).1.tblAdr 0) := by
  rw [(pmmu_search b.used).resolve_left hlimit]
  unfold pmmu value
  cases (b.search va b.used b.root 0).1.table <;> dsimp only <;> split_ifs <;> rfl

/-- Two levels of tables, and an indirect descriptor for the second page. -/
def indirectTree : Boot where
  bootGlobPtr := 0
  phys2Log := 0
  mem a := if a = 0x1000 then 0x2002 else if a = 0x2000 then 0x7001 else if a = 0x2004 then 0x3002
    else if a = 0x3000 then 0x5001 else 0
  rp0 := 0x80000002
  rp1 := 0x1000
  ps := 12
  tia := 10
  tib := 10
  tic := 0
  tid := 0

end Boot

end MachKernel.Mac2.Log2Phys
