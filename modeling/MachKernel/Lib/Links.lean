import Mathlib.Data.Finset.Card
import Mathlib.Order.WellFounded
import Mathlib.Tactic

/-! Counting and acyclicity of a graph in which each node has at most one outgoing link. -/

namespace MachKernel.Links
open Function List

variable {f g : ℕ → Option ℕ}

/-- The links of the nodes below `n` that end at `j`. -/
def refs (n : ℕ) (f : ℕ → Option ℕ) (j : ℕ) : ℕ :=
  ((Finset.range n).filter fun i => f i = some j).card

theorem refs_erase (n : ℕ) (f : ℕ → Option ℕ) (i j : ℕ) (hi : i < n) :
    refs n f j = (((Finset.range n).erase i).filter fun a => f a = some j).card +
      if f i = some j then 1 else 0 := by
  have hn := Finset.insert_erase (Finset.mem_range.mpr hi)
  unfold refs
  rw [← hn, Finset.filter_insert, Finset.erase_insert (Finset.notMem_erase i _)]
  split_ifs with h
  · rw [Finset.card_insert_of_notMem (by simp)]
  · rfl

variable {n i j b a e x : ℕ} {l : List ℕ}

theorem refs_update (hi : i < n) (v : Option ℕ) (j : ℕ) :
    refs n (update f i v) j + (if f i = some j then 1 else 0) =
      refs n f j + if v = some j then 1 else 0 := by
  rw [refs_erase n f i j hi, refs_erase n (update f i v) i j hi]
  have hc : (((Finset.range n).erase i).filter fun a => update f i v a = some j) =
      ((Finset.range n).erase i).filter fun a => f a = some j := by
    apply Finset.filter_congr
    intro a ha
    rw [update_of_ne (Finset.ne_of_mem_erase ha)]
  rw [hc, update_self]
  omega

theorem refs_succ (n : ℕ) (f : ℕ → Option ℕ) (v : Option ℕ) (j : ℕ) :
    refs (n + 1) (update f n v) j = refs n f j + if v = some j then 1 else 0 := by
  rw [refs_erase (n + 1) _ n j (Nat.lt_succ_self n), update_self]
  congr 2
  rw [Finset.range_add_one, Finset.erase_insert Finset.notMem_range_self]
  apply Finset.filter_congr
  intro a ha
  rw [update_of_ne (Finset.mem_range.mp ha).ne]

theorem refs_eq_zero (h : ∀ i, f i ≠ some j) : refs n f j = 0 := by
  unfold refs
  rw [Finset.card_eq_zero, Finset.filter_eq_empty_iff]
  exact fun i _ => h i

theorem refs_splice {o : ℕ} (ho : o < n) (hb : b < n) (hne : o ≠ b) (hob : f o = some b)
    (hj : j ≠ b) : refs n (update (update f o (f b)) b none) j = refs n f j := by
  have h₁ := refs_update ho (f := f) (f b) j
  have h₂ := refs_update hb (f := update f o (f b)) none j
  rw [update_of_ne hne.symm] at h₂
  have hbj : f o ≠ some j := by
    rw [hob]
    exact fun h => hj (Option.some.inj h).symm
  rw [if_neg hbj] at h₁
  simp only [reduceCtorEq, if_false] at h₂
  omega

theorem refs_pos (hi : i < n) (h : f i = some j) : 0 < refs n f j :=
  Finset.card_pos.mpr ⟨i, by simp [hi, h]⟩

theorem eq_of_refs_eq_one {i' : ℕ} (hr : refs n f j = 1) (hi : i < n) (hi' : i' < n)
    (h : f i = some j) (h' : f i' = some j) : i = i' := by
  obtain ⟨a, ha⟩ := Finset.card_eq_one.mp hr
  have hm : i ∈ ({a} : Finset ℕ) := ha ▸ by simp [hi, h]
  have hm' : i' ∈ ({a} : Finset ℕ) := ha ▸ by simp [hi', h']
  rw [Finset.mem_singleton.mp hm, Finset.mem_singleton.mp hm']

/-- Following links always ends. -/
def Acyclic (f : ℕ → Option ℕ) : Prop := WellFounded fun b a => f a = some b

theorem Acyclic.of_rank (r : ℕ → ℕ) (h : ∀ a b, f a = some b → r b < r a) : Acyclic f :=
  Subrelation.wf (h _ _) (measure r).wf

theorem Acyclic.ne (h : Acyclic f) (hab : f a = some b) : a ≠ b := by
  rintro rfl
  exact (WellFounded.asymmetric h a a hab) hab

theorem Acyclic.ne_two (h : Acyclic f) {c : ℕ} (hab : f a = some b) (hbc : f b = some c) :
    a ≠ c := by
  rintro rfl
  exact (WellFounded.asymmetric h a b hbc) hab

theorem Acyclic.not_path_back (h : Acyclic f) (hab : f a = some b) :
    ¬ Relation.ReflTransGen (fun a b => f a = some b) b a := by
  intro hp
  have hc : Relation.TransGen (fun a b => f a = some b) a a := .head' hab hp
  exact (WellFounded.transGen h).asymmetric a a (Relation.transGen_swap.mpr hc)
    (Relation.transGen_swap.mpr hc)

theorem Acyclic.mono (h : Acyclic f)
    (hg : ∀ a b, g a = some b → Relation.TransGen (fun b a => f a = some b) b a) : Acyclic g :=
  Subrelation.wf (hg _ _) (WellFounded.transGen h)

theorem Acyclic.update_none (h : Acyclic f) (i : ℕ) : Acyclic (update f i none) := by
  apply h.mono
  intro a b hab
  rcases eq_or_ne a i with rfl | hne
  · simp at hab
  · rw [update_of_ne hne] at hab
    exact .single hab

theorem Acyclic.update_skip (h : Acyclic f) (hij : f i = some j) : Acyclic (update f i (f j)) := by
  apply h.mono
  intro a b hab
  rcases eq_or_ne a i with rfl | hne
  · rw [update_self] at hab
    exact .tail (.single hab) hij
  · rw [update_of_ne hne] at hab
    exact .single hab

theorem Acyclic.update_link (h : Acyclic f) {p q : ℕ} (hp : f p = none)
    (hq : ¬ Relation.ReflTransGen (fun a b => f a = some b) q p) :
    Acyclic (update f p (some q)) := by
  have hoff : ∀ a, ¬ Relation.ReflTransGen (fun a b => f a = some b) a p →
      Acc (fun b a => update f p (some q) a = some b) a := by
    intro a
    induction a using WellFounded.induction h with
    | _ a ih =>
      intro ha
      have hne : a ≠ p := by
        rintro rfl
        exact ha .refl
      refine ⟨a, fun b hb => ?_⟩
      rw [update_of_ne hne] at hb
      exact ih b hb fun hbp => ha (.head hb hbp)
  have hpacc : Acc (fun b a => update f p (some q) a = some b) p := by
    refine ⟨p, fun b hb => ?_⟩
    rw [update_self] at hb
    cases hb
    exact hoff q hq
  refine ⟨fun a => ?_⟩
  induction a using WellFounded.induction h with
  | _ a ih =>
    rcases eq_or_ne a p with rfl | hne
    · exact hpacc
    · refine ⟨a, fun b hb => ?_⟩
      rw [update_of_ne hne] at hb
      exact ih b hb

/-! ## The chain from a node to the end -/

/-- `Chain f a l e`: following links from `a` passes the nodes `l` and ends at `e`. -/
inductive Chain (f : ℕ → Option ℕ) : ℕ → List ℕ → ℕ → Prop
  | last {a : ℕ} (h : f a = none) : Chain f a [a] a
  | cons {a b e : ℕ} {l : List ℕ} (h : f a = some b) (hc : Chain f b l e) : Chain f a (a :: l) e

theorem Acyclic.chain (h : Acyclic f) (a : ℕ) : ∃ l e, Chain f a l e := by
  induction a using WellFounded.induction h with
  | _ a ih =>
    cases hf : f a with
    | none => exact ⟨_, _, .last hf⟩
    | some b =>
      obtain ⟨l, e, hc⟩ := ih b hf
      exact ⟨_, _, .cons hf hc⟩

theorem Chain.mem_iff (h : Chain f a l e) :
    x ∈ l ↔ Relation.ReflTransGen (fun a b => f a = some b) a x := by
  induction h with
  | @last a h =>
    rw [mem_singleton]
    constructor
    · rintro rfl
      exact .refl
    · intro hx
      rcases Relation.ReflTransGen.cases_head hx with rfl | ⟨b, hb, -⟩
      · rfl
      · rw [h] at hb
        cases hb
  | @cons a b e l h _ ih =>
    rw [mem_cons, ih]
    constructor
    · rintro (rfl | hx)
      · exact .refl
      · exact .head h hx
    · intro hx
      rcases Relation.ReflTransGen.cases_head hx with rfl | ⟨c, hc, hcx⟩
      · exact .inl rfl
      · rw [h] at hc
        cases hc
        exact .inr hcx

theorem Chain.end_none (h : Chain f a l e) : f e = none := by
  induction h with
  | last h => exact h
  | cons _ _ ih => exact ih

theorem Chain.end_mem (h : Chain f a l e) : e ∈ l := by
  induction h with
  | last => exact mem_singleton_self _
  | cons _ _ ih => exact mem_cons_of_mem _ ih

theorem Chain.eq_end (h : Chain f a l e) (hx : x ∈ l) (hf : f x = none) : x = e := by
  induction h with
  | last => exact mem_singleton.mp hx
  | cons h _ ih =>
    rcases mem_cons.mp hx with rfl | hx
    · rw [h] at hf
      cases hf
    · exact ih hx

theorem Chain.nodup (hf : Acyclic f) (h : Chain f a l e) : l.Nodup := by
  induction h with
  | last => exact nodup_singleton _
  | cons h hc ih =>
    refine nodup_cons.mpr ⟨fun ha => ?_, ih⟩
    exact hf.not_path_back h (hc.mem_iff.mp ha)

theorem Chain.congr (h : Chain f a l e) (hg : ∀ x ∈ l, g x = f x) : Chain g a l e := by
  induction h with
  | last h => exact .last ((hg _ (mem_singleton_self _)).trans h)
  | cons h _ ih =>
    exact .cons ((hg _ mem_cons_self).trans h) (ih fun x hx => hg x (mem_cons_of_mem _ hx))

end MachKernel.Links
