import Mathlib.Data.Nat.Bitwise
import Mathlib.Tactic

/-! Unsigned 32-bit arithmetic on natural numbers: every operation reduces modulo `2 ^ 32`. -/

namespace MachKernel.Word32

/-- One more than the largest unsigned 32-bit value. -/
abbrev modulus : ℕ := 2 ^ 32

theorem modulus_eq : modulus = 4294967296 := by norm_num

def add (a b : ℕ) : ℕ := (a + b) % modulus

def sub (a b : ℕ) : ℕ := (a + (modulus - b % modulus)) % modulus

/-- Bitwise complement. -/
def not (a : ℕ) : ℕ := modulus - 1 - a

theorem add_lt (a b : ℕ) : add a b < modulus := Nat.mod_lt _ (by norm_num)

theorem sub_lt (a b : ℕ) : sub a b < modulus := Nat.mod_lt _ (by norm_num)

theorem add_of_lt {a b : ℕ} (h : a + b < modulus) : add a b = a + b := Nat.mod_eq_of_lt h

theorem add_of_ge {a b : ℕ} (ha : a < modulus) (hb : b < modulus) (h : modulus ≤ a + b) :
    add a b = a + b - modulus := by
  simp only [add, modulus] at *
  omega

theorem add_of_le_add {a b : ℕ} (ha : a < modulus) (hb : b < modulus) (h : a ≤ add a b) :
    add a b = a + b := by
  refine add_of_lt ?_
  by_contra hge
  rw [add_of_ge ha hb (by omega)] at h
  omega

theorem sub_of_le {a b : ℕ} (ha : a < modulus) (h : b ≤ a) : sub a b = a - b := by
  simp only [sub, modulus] at *
  omega

theorem add_sub_cancel {a b : ℕ} (ha : a < modulus) (h : b ≤ a) : add b (sub a b) = a := by
  rw [sub_of_le ha h]
  simp only [add, modulus] at *
  omega

theorem add_assoc (a b c : ℕ) : add (add a b) c = add a (add b c) := by
  simp only [add, modulus]
  omega

theorem add_eq_left_iff {a b : ℕ} (ha : a < modulus) (hb : b < modulus) : add a b = a ↔ b = 0 := by
  simp only [add, modulus] at *
  omega

theorem add_right_cancel {a b c : ℕ} (ha : a < modulus) (hb : b < modulus)
    (h : add a c = add b c) : a = b := by
  simp only [add, modulus] at *
  omega

theorem add_comm (a b : ℕ) : add a b = add b a := by simp only [add, Nat.add_comm]

theorem testBit_not {a : ℕ} (ha : a < modulus) (i : ℕ) :
    (not a).testBit i = (decide (i < 32) && !a.testBit i) := by
  have h : not a = 2 ^ 32 - (a + 1) := by simp only [not, modulus]; omega
  rw [h, Nat.testBit_two_pow_sub_succ ha]

theorem add_eq_or {a b : ℕ} (ha : a < modulus) (hb : b < modulus) (h : a &&& b = 0) :
    a + b = a ||| b := by
  have hv : BitVec.ofNat 32 a &&& BitVec.ofNat 32 b = 0#32 := by
    rw [← BitVec.ofNat_and, h]
  have hs := congrArg BitVec.toNat (BitVec.add_eq_or_of_and_eq_zero _ _ hv)
  rw [BitVec.toNat_add_of_and_eq_zero hv] at hs
  simpa only [BitVec.toNat_or, BitVec.toNat_ofNat, Nat.mod_eq_of_lt ha, Nat.mod_eq_of_lt hb]
    using hs

theorem and_not_add_and {a m : ℕ} (ha : a < modulus) (hm : m < modulus) :
    (a &&& not m) + (a &&& m) = a := by
  have hd : (a &&& not m) &&& (a &&& m) = 0 := by
    apply Nat.eq_of_testBit_eq
    intro i
    simp only [Nat.testBit_and, testBit_not hm, Nat.zero_testBit]
    cases a.testBit i <;> cases m.testBit i <;> simp
  have ho : (a &&& not m) ||| (a &&& m) = a := by
    apply Nat.eq_of_testBit_eq
    intro i
    simp only [Nat.testBit_or, Nat.testBit_and, testBit_not hm]
    by_cases hi : i < 32
    · cases a.testBit i <;> cases m.testBit i <;> simp [hi]
    · have : a.testBit i = false := Nat.testBit_lt_two_pow
        (ha.trans_le (Nat.pow_le_pow_right (by norm_num) (by omega)))
      simp [this]
  calc (a &&& not m) + (a &&& m) = (a &&& not m) ||| (a &&& m) :=
        add_eq_or (Nat.and_le_left.trans_lt ha) (Nat.and_le_left.trans_lt ha) hd
    _ = a := ho

theorem and_not_and (a : ℕ) {m : ℕ} (hm : m < modulus) : (a &&& not m) &&& m = 0 := by
  apply Nat.eq_of_testBit_eq
  intro i
  simp only [Nat.testBit_and, testBit_not hm, Nat.zero_testBit]
  cases a.testBit i <;> cases m.testBit i <;> simp

theorem and_shift_ne_zero (map bit : ℕ) : map &&& 1 <<< bit ≠ 0 ↔ map.testBit bit = true := by
  rw [Nat.one_shiftLeft, Nat.and_two_pow]
  cases map.testBit bit <;> simp

end MachKernel.Word32
