import Mathlib.Tactic

/-! Words as sets of bits. -/

namespace MachKernel.BitSets

variable {w : ℕ} {a b c d : BitVec w}

/-- The bits of one word are among those of another. -/
def Within (a b : BitVec w) : Prop := a &&& ~~~b = 0

instance : Decidable (Within a b) := inferInstanceAs (Decidable (_ = _))

theorem within_iff : Within a b ↔ ∀ i < w, a.getLsbD i → b.getLsbD i := by
  rw [Within, BitVec.eq_of_getLsbD_eq_iff]
  refine forall₂_congr fun i hi => ?_
  simp [hi]

theorem within_refl (a : BitVec w) : Within a a := within_iff.2 fun _ _ h => h

theorem Within.trans (h : Within a b) (h' : Within b c) : Within a c :=
  within_iff.2 fun i hi ha => within_iff.1 h' i hi (within_iff.1 h i hi ha)

theorem zero_within (b : BitVec w) : Within 0 b := BitVec.zero_and

theorem Within.eq_zero (h : Within a 0) : a = 0 := by
  simpa [Within, BitVec.and_allOnes] using h

theorem and_within_left (a b : BitVec w) : Within (a &&& b) a :=
  within_iff.2 fun i _ h => by
    rw [BitVec.getLsbD_and, Bool.and_eq_true] at h
    exact h.1

theorem Within.and (h : Within a b) (c : BitVec w) : Within (a &&& c) (b &&& c) := by
  rw [within_iff] at h ⊢
  intro i hi hac
  rw [BitVec.getLsbD_and, Bool.and_eq_true] at hac ⊢
  exact ⟨h i hi hac.1, hac.2⟩

theorem Within.or (h : Within a b) (h' : Within c b) : Within (a ||| c) b := by
  rw [within_iff] at h h' ⊢
  intro i hi hac
  rw [BitVec.getLsbD_or, Bool.or_eq_true] at hac
  exact hac.elim (h i hi) (h' i hi)

theorem within_or_left (a b : BitVec w) : Within a (a ||| b) :=
  within_iff.2 fun i _ h => by rw [BitVec.getLsbD_or, h, Bool.true_or]

theorem within_or_right (a b : BitVec w) : Within b (a ||| b) :=
  within_iff.2 fun i _ h => by rw [BitVec.getLsbD_or, h, Bool.or_true]

theorem Within.ne_zero (h : Within a b) (ha : a ≠ 0) : b ≠ 0 := fun hb =>
  ha (Within.eq_zero (hb ▸ h))

end MachKernel.BitSets
