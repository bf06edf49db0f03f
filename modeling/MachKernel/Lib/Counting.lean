import Mathlib.Data.Fintype.Card
import Mathlib.Tactic

/-! How many members of a finite family have a property, when one of them changes. -/

namespace MachKernel.Counting
open Function

variable {T α : Type*} [Fintype T] {q : α → Bool} {f g : T → α}

def count (q : α → Bool) (f : T → α) : ℕ := (Finset.univ.filter fun t => q (f t)).card

theorem count_congr (h : ∀ t, q (f t) = q (g t)) : count q f = count q g :=
  congrArg Finset.card (Finset.filter_congr fun t _ => by rw [h t])

theorem eq_false_of_count_eq_zero (h : count q f = 0) (t : T) : q (f t) = false := by
  have ht := Finset.filter_eq_empty_iff.1 (Finset.card_eq_zero.1 h) (Finset.mem_univ t)
  simpa using ht

theorem count_pos {t : T} (h : q (f t) = true) : 0 < count q f :=
  Finset.card_pos.2 ⟨t, by simpa using h⟩

variable [DecidableEq T] {t : T} {a : α}

theorem count_same (h : q a = q (f t)) : count q (update f t a) = count q f := by
  refine count_congr fun u => ?_
  rw [update_apply]
  split
  · rename_i hu
    rw [h, hu]
  · rfl

theorem count_enter (ha : q a = true) (ht : q (f t) = false) :
    count q (update f t a) = count q f + 1 := by
  have hset : (Finset.univ.filter fun u => q (update f t a u)) =
      insert t (Finset.univ.filter fun u => q (f u)) := by
    ext u
    simp only [Finset.mem_filter, Finset.mem_univ, true_and, Finset.mem_insert, update_apply]
    by_cases hu : u = t <;> simp [hu, ha]
  rw [count, hset, Finset.card_insert_of_notMem (by simpa using ht), count]

theorem count_leave (ha : q a = false) (ht : q (f t) = true) :
    count q (update f t a) + 1 = count q f := by
  have h := count_enter (f := update f t a) (t := t) ht (by rwa [update_self])
  rwa [update_idem, update_eq_self, eq_comm] at h

end MachKernel.Counting
