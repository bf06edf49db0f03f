import Mathlib.Tactic

/-! Runs of a system whose steps may go wrong, against what each step should do. -/

namespace MachKernel.Runs

/-- `Fin 2` for the two parties of a run. -/
instance neZero_two : NeZero 2 := ⟨two_ne_zero⟩

variable {σ ε ρ α : Type*} {step : σ → ε → Option (ρ × σ)} {P : σ → ε → Prop}
  {spec : α → ε → ρ → α → σ → Prop}

/-- A run whose steps all meet a condition when their turn comes. -/
def Along (step : σ → ε → Option (ρ × σ)) (P : σ → ε → Prop) (s : σ) : List ε → Prop
  | [] => True
  | e :: es => P s e ∧ ∀ r ∈ step s e, Along step P r.2 es

instance decidableAlong [∀ s, DecidablePred (P s)] :
    ∀ (s : σ) (es : List ε), Decidable (Along step P s es)
  | _, [] => isTrue trivial
  | s, e :: es =>
    have : ∀ r : ρ × σ, Decidable (Along step P r.2 es) := fun r => decidableAlong r.2 es
    inferInstanceAs (Decidable (_ ∧ ∀ _ ∈ _, _))

variable {es : List ε} {s : σ} {a : α} {Q : σ → ε → Prop}

theorem Along.and {Q : ε → Prop} (h : Along step P s es)
    (hQ : ∀ e ∈ es, Q e) : Along step (fun s e => P s e ∧ Q e) s es := by
  induction es generalizing s with
  | nil => trivial
  | cons e es ih =>
    exact ⟨⟨h.1, hQ e List.mem_cons_self⟩, fun r hr =>
      ih (h.2 r hr) fun e he => hQ e (List.mem_cons_of_mem _ he)⟩

theorem Along.foldl {next : σ → ε → σ} {out : σ → ε → ρ} {I : σ → Prop}
    (hnext : ∀ s e, I s → P s e → I (next s e))
    (hes : Along (fun s e => some (out s e, next s e)) P s es) (h : I s) : I (es.foldl next s) := by
  induction es generalizing s with
  | nil => exact h
  | cons e es ih => exact ih (hes.2 _ rfl) (hnext s e h hes.1)

/-- No step of a run goes wrong, and each does what is asked of it. -/
def Does (step : σ → ε → Option (ρ × σ)) (spec : α → ε → ρ → α → σ → Prop) : σ → α → List ε → Prop
  | _, _, [] => True
  | s, a, e :: es => ∃ r s' a', step s e = some (r, s') ∧ spec a e r a' s' ∧ Does step spec s' a' es

theorem Does.of_simulation (Rel : σ → α → Prop) (h : ∀ s a e, Rel s a → P s e →
      ∃ r s' a', step s e = some (r, s') ∧ spec a e r a' s' ∧ Rel s' a')
    (hrel : Rel s a) (hes : Along step P s es) : Does step spec s a es := by
  induction es generalizing s a with
  | nil => trivial
  | cons e es ih =>
    obtain ⟨r, s', a', hstep, hspec, hrel'⟩ := h s a e hrel hes.1
    exact ⟨r, s', a', hstep, hspec, ih hrel' (hes.2 _ hstep)⟩

theorem Does.along (h : ∀ s a e r s' a', step s e = some (r, s') → spec a e r a' s' → Q s e)
    (hdoes : Does step spec s a es) : Along step Q s es := by
  induction es generalizing s a with
  | nil => trivial
  | cons e es ih =>
    obtain ⟨r, s', a', hstep, hspec, hrest⟩ := hdoes
    refine ⟨h s a e r s' a' hstep hspec, fun q hq => ?_⟩
    obtain rfl : (r, s') = q := Option.some.inj (hstep.symm.trans hq)
    exact ih hrest

theorem Does.iff_along_of (Rel : σ → α → Prop) (h : ∀ s a e, Rel s a → Q s e → P s e →
      ∃ r s' a', step s e = some (r, s') ∧ spec a e r a' s' ∧ Rel s' a')
    (hback : ∀ s a e r s' a', Rel s a → step s e = some (r, s') → spec a e r a' s' →
      P s e ∧ Rel s' a') (hrel : Rel s a) (hQ : Along step Q s es) :
    Does step spec s a es ↔ Along step P s es := by
  induction es generalizing s a with
  | nil => exact iff_of_true trivial trivial
  | cons e es ih =>
    constructor
    · rintro ⟨r, s', a', hstep, hspec, hrest⟩
      obtain ⟨hP, hrel'⟩ := hback s a e r s' a' hrel hstep hspec
      refine ⟨hP, fun q hq => ?_⟩
      obtain rfl : (r, s') = q := Option.some.inj (hstep.symm.trans hq)
      exact (ih hrel' (hQ.2 _ hstep)).1 hrest
    · rintro ⟨hP, hes⟩
      obtain ⟨r, s', a', hstep, hspec, hrel'⟩ := h s a e hrel hQ.1 hP
      exact ⟨r, s', a', hstep, hspec, (ih hrel' (hQ.2 _ hstep)).2 (hes _ hstep)⟩

theorem Along.of_true (s : σ) (es : List ε) : Along step (fun _ _ => True) s es := by
  induction es generalizing s with
  | nil => exact True.intro
  | cons e es ih => exact ⟨True.intro, fun r _ => ih r.2⟩

theorem Does.iff_along (Rel : σ → α → Prop) (h : ∀ s a e, Rel s a → P s e →
      ∃ r s' a', step s e = some (r, s') ∧ spec a e r a' s' ∧ Rel s' a')
    (hback : ∀ s a e r s' a', Rel s a → step s e = some (r, s') → spec a e r a' s' →
      P s e ∧ Rel s' a') (hrel : Rel s a) : Does step spec s a es ↔ Along step P s es :=
  Does.iff_along_of Rel (fun s a e hr _ => h s a e hr) hback hrel (Along.of_true s es)

end MachKernel.Runs
