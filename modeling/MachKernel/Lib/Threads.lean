import Mathlib.Algebra.BigOperators.Group.Finset.Basic
import Mathlib.Data.Int.Basic
import Mathlib.Tactic

/-! Threads that each are at a place in some code, and what the places give them: spin locks, or
other things that at most one thread has at a time. -/

namespace MachKernel.Threads
open Function Option

variable {T L : Type*} {thread : ℕ → Option T} {has : T → List L} {owner owner' : L → Option ℕ}
  {k : ℕ} {t t' : T} {l : L}

/-- Each thing has the owner whose place gives it. -/
def Owned (owner : L → Option ℕ) (thread : ℕ → Option T) (has : T → List L) : Prop :=
  ∀ l k, owner l = some k ↔ ∃ t ∈ thread k, l ∈ has t

theorem Owned.owns (h : Owned owner thread has) (ht : thread k = some t) (hl : l ∈ has t) :
    owner l = some k :=
  (h l k).2 ⟨t, ht, hl⟩

theorem Owned.mem (h : Owned owner thread has) (ht : thread k = some t) (hl : owner l = some k) :
    l ∈ has t := by
  obtain ⟨u, hu, hmem⟩ := (h l k).1 hl
  cases ht.symm.trans hu
  exact hmem

theorem Owned.unique (h : Owned owner thread has) {j : ℕ} {u : T} (ht : thread k = some t)
    (hu : thread j = some u) (hl : l ∈ has t) (hl' : l ∈ has u) : j = k :=
  some.inj ((h.owns hu hl').symm.trans (h.owns ht hl))

theorem Owned.move (h : Owned owner thread has) (hself : ∀ l, owner' l = some k ↔ l ∈ has t')
    (hother : ∀ l j, j ≠ k → (owner' l = some j ↔ owner l = some j)) :
    Owned owner' (update thread k (some t')) has := by
  intro l j
  by_cases hj : j = k
  · subst hj
    rw [update_self, hself]
    exact ⟨fun hl => ⟨t', rfl, hl⟩, fun ⟨u, hu, hl⟩ => some.inj hu ▸ hl⟩
  · rw [update_of_ne hj, hother l j hj]
    exact h l j

theorem Owned.same (h : Owned owner thread has) (ht : thread k = some t)
    (heq : ∀ l, l ∈ has t' ↔ l ∈ has t) : Owned owner (update thread k (some t')) has :=
  h.move (fun l => ((heq l).trans ⟨h.owns ht, h.mem ht⟩).symm) fun _ _ _ => Iff.rfl

theorem Owned.none_of_none (h : Owned owner thread has) (hk : thread k = none) (l : L) :
    owner l ≠ some k := fun hl => by
  obtain ⟨t, ht, -⟩ := (h l k).1 hl
  rw [hk] at ht
  cases ht

theorem Owned.start (h : Owned owner thread has) (hk : thread k = none) (heq : has t' = []) :
    Owned owner (update thread k (some t')) has :=
  h.move (fun l => iff_of_false (h.none_of_none hk l) (by rw [heq]; exact List.not_mem_nil))
    fun _ _ _ => Iff.rfl

section Change
variable [DecidableEq L]

theorem Owned.startWith (h : Owned owner thread has) (hk : thread k = none) (hfree : owner l = none)
    (heq : has t' = [l]) : Owned (update owner l (some k)) (update thread k (some t')) has := by
  refine h.move (fun x => ?_) fun x j hj => ?_
  · rw [heq, List.mem_singleton, update_apply]
    split
    · next hx => exact iff_of_true rfl hx
    · next hx => exact iff_of_false (h.none_of_none hk x) hx
  · rw [update_apply]
    split
    · next hx =>
      rw [hx, hfree]
      exact iff_of_false (fun heq => hj (some.inj heq).symm) nofun
    · rfl

theorem Owned.acquire (h : Owned owner thread has) (ht : thread k = some t) (hfree : owner l = none)
    (heq : ∀ x, x ∈ has t' ↔ x = l ∨ x ∈ has t) :
    Owned (update owner l (some k)) (update thread k (some t')) has := by
  refine h.move (fun x => ?_) fun x j hj => ?_
  · rw [heq, update_apply]
    split
    · next hx => exact iff_of_true rfl (.inl hx)
    · next hx => rw [or_iff_right hx]; exact ⟨h.mem ht, h.owns ht⟩
  · rw [update_apply]
    split
    · next hx =>
      rw [hx, hfree]
      exact iff_of_false (fun heq => hj (some.inj heq).symm) nofun
    · rfl

theorem Owned.release (h : Owned owner thread has) (ht : thread k = some t) (hl : l ∈ has t)
    (heq : ∀ x, x ∈ has t' ↔ x ≠ l ∧ x ∈ has t) :
    Owned (update owner l none) (update thread k (some t')) has := by
  refine h.move (fun x => ?_) fun x j hj => ?_
  · rw [heq, update_apply]
    split
    · next hx => exact iff_of_false nofun fun hne => hne.1 hx
    · next hx => rw [and_iff_right hx]; exact ⟨h.mem ht, h.owns ht⟩
  · rw [update_apply]
    split
    · next hx =>
      rw [hx, h.owns ht hl]
      exact iff_of_false nofun fun heq => hj (some.inj heq).symm
    · rfl

end Change

/-- What the threads below a bound have altogether. -/
def total (f : T → ℤ) (thread : ℕ → Option T) (n : ℕ) : ℤ :=
  ∑ k ∈ Finset.range n, (thread k).elim 0 f

theorem total_update {f : T → ℤ} {n : ℕ} (hk : k < n) (ht : thread k = some t) :
    total f (update thread k (some t')) n = total f thread n - f t + f t' := by
  have hmem : k ∈ Finset.range n := Finset.mem_range.2 hk
  unfold total
  rw [← Finset.add_sum_erase _ _ hmem, ← Finset.add_sum_erase _ _ hmem, update_self, ht]
  have hrest : ∑ j ∈ (Finset.range n).erase k, (update thread k (some t') j).elim 0 f =
      ∑ j ∈ (Finset.range n).erase k, (thread j).elim 0 f :=
    Finset.sum_congr rfl fun j hj => by rw [update_of_ne (Finset.ne_of_mem_erase hj)]
  rw [hrest]
  simp only [Option.elim_some]
  ring

theorem total_start {f : T → ℤ} {n : ℕ} :
    total f (update thread n (some t')) (n + 1) = total f thread n + f t' := by
  unfold total
  rw [Finset.sum_range_succ, update_self]
  congr 1
  exact Finset.sum_congr rfl fun j hj => by
    rw [update_of_ne (Finset.mem_range.1 hj).ne]

end MachKernel.Threads
