import Mathlib.Data.List.Nodup
import Mathlib.Tactic

/-! Lists threaded through numbered slots: each slot has the number of the next one, and 0 ends
the list. -/

namespace MachKernel.FreeList
open List

variable {next next' : ℕ → ℕ} {f : ℕ} {l l' : List ℕ}

/-- The slots that are met from a first number on, up to 0. -/
def Chain (next : ℕ → ℕ) : ℕ → List ℕ → Prop
  | f, [] => f = 0
  | f, j :: l => f = j ∧ 0 < j ∧ Chain next (next j) l

/-- The search from a slot on for the one whose successor is `index`; `none` when it does not end
in time. -/
def before (next : ℕ → ℕ) (index : ℕ) : ℕ → ℕ → Option ℕ
  | 0, _ => none
  | fuel + 1, free => if next free = index then some free else before next index fuel (next free)

theorem Chain.congr (h : Chain next f l) (heq : ∀ j ∈ l, next' j = next j) : Chain next' f l := by
  induction l generalizing f with
  | nil => exact h
  | cons j l ih =>
    obtain ⟨hf, hj, hl⟩ := h
    refine ⟨hf, hj, ih ?_ fun k hk => heq k (mem_cons_of_mem _ hk)⟩
    rw [heq j mem_cons_self]
    exact hl

theorem Chain.pos (h : Chain next f l) : ∀ j ∈ l, 0 < j := by
  induction l generalizing f with
  | nil => simp
  | cons j l ih =>
    intro k hk
    rcases mem_cons.mp hk with rfl | hk
    · exact h.2.1
    · exact ih h.2.2 k hk

theorem Chain.unique (h : Chain next f l) (h' : Chain next f l') : l = l' := by
  induction l generalizing f l' with
  | nil =>
    cases l' with
    | nil => rfl
    | cons j l' =>
      have hf : f = 0 := h
      have := h'.1
      have := h'.2.1
      omega
  | cons j l ih =>
    cases l' with
    | nil =>
      have hf : f = 0 := h'
      have := h.1
      have := h.2.1
      omega
    | cons j' l' =>
      obtain rfl : j = j' := h.1.symm.trans h'.1
      rw [ih h.2.2 h'.2.2]

theorem Chain.suffix {pre post : List ℕ} {i : ℕ} (h : Chain next f (pre ++ i :: post)) :
    Chain next (next i) post := by
  induction pre generalizing f with
  | nil => exact h.2.2
  | cons j pre ih => exact ih h.2.2

theorem Chain.nodup (h : Chain next f l) : l.Nodup := by
  induction l generalizing f with
  | nil => exact .nil
  | cons j l ih =>
    refine nodup_cons.mpr ⟨fun hmem => ?_, ih h.2.2⟩
    obtain ⟨pre, post, rfl⟩ := append_of_mem hmem
    have hlen := congrArg List.length (h.2.2.unique (Chain.suffix h.2.2))
    simp at hlen
    omega

theorem Chain.before {a i fuel : ℕ} {pre post : List ℕ}
    (h : Chain next (next a) (pre ++ i :: post)) (ha : a ∉ pre ++ i :: post)
    (hfuel : pre.length < fuel) :
    ∃ p ∈ a :: pre, before next i fuel a = some p ∧ ∀ next' : ℕ → ℕ, next' p = next i →
      (∀ k ∈ a :: (pre ++ post), k ≠ p → next' k = next k) →
      Chain next' (next' a) (pre ++ post) := by
  induction pre generalizing a fuel with
  | nil =>
    obtain ⟨fuel, rfl⟩ : ∃ n, fuel = n + 1 := ⟨fuel - 1, by simp at hfuel; omega⟩
    refine ⟨a, mem_cons_self, by simp [FreeList.before, h.1], fun next' hp hk => ?_⟩
    rw [nil_append, hp]
    refine h.2.2.congr fun k hkmem => hk k (mem_cons_of_mem _ hkmem) ?_
    rintro rfl
    exact ha (mem_cons_of_mem _ hkmem)
  | cons j pre ih =>
    obtain ⟨fuel, rfl⟩ : ∃ n, fuel = n + 1 := ⟨fuel - 1, by simp at hfuel; omega⟩
    obtain ⟨hnext, hj, hrest⟩ := h
    have hnodup : (j :: (pre ++ i :: post)).Nodup := Chain.nodup (f := j) ⟨rfl, hj, hrest⟩
    obtain ⟨hjmem, -⟩ := nodup_cons.mp hnodup
    have hji : j ≠ i := fun heq => hjmem (by simp [heq])
    obtain ⟨p, hp, hbefore, hchain⟩ := ih hrest hjmem (by simp at hfuel; omega)
    refine ⟨p, mem_cons_of_mem _ hp, ?_, fun next' hpn hk => ?_⟩
    · rw [FreeList.before, if_neg (by rw [hnext]; exact hji), hnext]
      exact hbefore
    · have hap : a ≠ p := by
        rintro rfl
        rcases mem_cons.mp hp with rfl | hp
        · exact ha (by simp)
        · exact ha (by simp [hp])
      refine ⟨(hk a mem_cons_self hap).trans hnext, hj, ?_⟩
      exact hchain next' hpn fun k hkmem hkp => hk k (mem_cons_of_mem _ hkmem) hkp

end MachKernel.FreeList
