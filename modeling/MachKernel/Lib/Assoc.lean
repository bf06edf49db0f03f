import Mathlib.Order.Basic
import Mathlib.Tactic

/-! Lists of pairs with strictly increasing names, as finite maps. -/

namespace MachKernel.Assoc
open List

variable {κ β : Type*} [LinearOrder κ] {l l' : List (κ × β)} {k : κ} {v : β}

/-- The names are strictly increasing. -/
def Increasing (l : List (κ × β)) : Prop := l.Pairwise fun p q => p.1 < q.1

/-- The value under a name. -/
def get (l : List (κ × β)) (k : κ) : Option β := (l.find? fun p => p.1 = k).map Prod.snd

theorem get_append (l l' : List (κ × β)) (k : κ) : get (l ++ l') k = (get l k).or (get l' k) := by
  unfold get
  rw [find?_append]
  cases l.find? fun p => p.1 = k <;> rfl

theorem get_cons (p : κ × β) (l : List (κ × β)) (k : κ) :
    get (p :: l) k = if p.1 = k then some p.2 else get l k := by
  unfold get
  by_cases h : p.1 = k <;> simp [h]

theorem get_eq_none (h : ∀ p ∈ l, p.1 ≠ k) : get l k = none := by
  unfold get
  rw [Option.map_eq_none_iff, find?_eq_none]
  simpa using h

theorem get_ne_none (h : (k, v) ∈ l) : get l k ≠ none := by
  unfold get
  rw [ne_eq, Option.map_eq_none_iff, find?_eq_none]
  intro hall
  have := hall (k, v) h
  simp at this

theorem mem_of_get (h : get l k = some v) : (k, v) ∈ l := by
  obtain ⟨p, hp, rfl⟩ := Option.map_eq_some_iff.mp h
  have hk : p.1 = k := by simpa using find?_some hp
  rw [← hk]
  exact mem_of_find?_eq_some hp

theorem Increasing.nodup (h : Increasing l) : (l.map Prod.fst).Nodup := by
  rw [nodup_iff_pairwise_ne, pairwise_map]
  exact h.imp fun hlt => ne_of_lt hlt

theorem Increasing.get_eq_some (h : Increasing l) : get l k = some v ↔ (k, v) ∈ l := by
  refine ⟨mem_of_get, fun hmem => ?_⟩
  cases hg : get l k with
  | none => exact absurd hg (get_ne_none hmem)
  | some w =>
    have heq := inj_on_of_nodup_map h.nodup (mem_of_get hg) hmem rfl
    exact congrArg some (Prod.mk.inj heq).2

theorem Increasing.get_filter (h : Increasing l) (p : κ → Bool) (k : κ) :
    get (l.filter fun q => p q.1) k = if p k then get l k else none := by
  split_ifs with hk
  · cases hg : get l k with
    | none =>
      refine get_eq_none fun q hq heq => ?_
      have hmem : (k, q.2) ∈ l := heq ▸ mem_of_mem_filter hq
      exact get_ne_none hmem hg
    | some v =>
      have hf : Increasing (l.filter fun q => p q.1) := List.Pairwise.filter _ h
      rw [hf.get_eq_some]
      exact mem_filter.mpr ⟨mem_of_get hg, hk⟩
  · refine get_eq_none fun q hq heq => ?_
    rw [← heq] at hk
    exact hk (mem_filter.mp hq).2

theorem increasing_append : Increasing (l ++ l') ↔
    Increasing l ∧ Increasing l' ∧ ∀ p ∈ l, ∀ q ∈ l', p.1 < q.1 := pairwise_append

theorem increasing_middle : Increasing (l ++ (k, v) :: l') ↔
    Increasing l ∧ Increasing l' ∧ (∀ p ∈ l, p.1 < k) ∧ (∀ q ∈ l', k < q.1) := by
  rw [increasing_append]
  constructor
  · rintro ⟨hl, hr, hlr⟩
    obtain ⟨hkr, hr'⟩ := pairwise_cons.mp hr
    exact ⟨hl, hr', fun p hp => hlr p hp _ mem_cons_self, hkr⟩
  · rintro ⟨hl, hr, hlk, hkr⟩
    refine ⟨hl, pairwise_cons.mpr ⟨hkr, hr⟩, fun p hp q hq => ?_⟩
    rcases mem_cons.mp hq with rfl | hq
    · exact hlk p hp
    · exact (hlk p hp).trans (hkr q hq)

theorem get_middle (hl : ∀ p ∈ l, p.1 < k) (w : κ × β) (hw : w.1 = k) :
    get (l ++ w :: l') k = some w.2 := by
  rw [get_append, get_eq_none fun p hp => ne_of_lt (hl p hp), get_cons, if_pos hw]
  rfl

theorem filter_lt_middle (hl : ∀ p ∈ l, p.1 < k) (hr : ∀ p ∈ l', k ≤ p.1) :
    (l ++ l').filter (fun p => p.1 < k) = l := by
  rw [filter_append, filter_eq_self.mpr (by simpa using hl),
    filter_eq_nil_iff.mpr (by simpa using hr), append_nil]

theorem filter_ge_middle (hl : ∀ p ∈ l, p.1 < k) (hr : ∀ p ∈ l', k ≤ p.1) :
    (l ++ l').filter (fun p => ¬ p.1 < k) = l' := by
  rw [filter_append, filter_eq_nil_iff.mpr (by simpa using hl),
    filter_eq_self.mpr (by simpa using hr), nil_append]

end MachKernel.Assoc
