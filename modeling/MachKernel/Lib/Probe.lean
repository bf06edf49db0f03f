import Mathlib.Tactic

/-! Linear probing: walking around a table of a given size. -/

namespace MachKernel.Probe

/-- The next place, which after the last is the first. -/
def next (size i : ℕ) : ℕ := if i + 1 = size then 0 else i + 1

/-- The place `k` steps ahead. -/
def ahead (size i k : ℕ) : ℕ := if i + k < size then i + k else i + k - size

/-- The number of steps from one place to another. -/
def steps (size i j : ℕ) : ℕ := if i ≤ j then j - i else j + size - i

/-- The first place from `i` on at which `stop` holds, if it is among the next `turns` places. -/
def probe (size : ℕ) (stop : ℕ → Prop) [DecidablePred stop] : ℕ → ℕ → Option ℕ
  | 0, _ => none
  | turns + 1, i => if stop i then some i else probe size stop turns (next size i)

section
variable {size i j k : ℕ}

theorem next_lt (h : i < size) : next size i < size := by
  unfold next
  split_ifs <;> omega

theorem ahead_lt (h : i < size) (hk : k ≤ size) : ahead size i k < size := by
  unfold ahead
  split_ifs <;> omega

theorem ahead_zero (h : i < size) : ahead size i 0 = i := by
  unfold ahead
  split_ifs <;> omega

theorem ahead_next (hk : k < size) : ahead size (next size i) k = ahead size i (k + 1) := by
  unfold ahead next
  split_ifs <;> omega

theorem ahead_ahead (h : i < size) (hjk : j + k ≤ size) :
    ahead size (ahead size i j) k = ahead size i (j + k) := by
  unfold ahead
  split_ifs <;> omega

theorem steps_lt (hi : i < size) (hj : j < size) : steps size i j < size := by
  unfold steps
  split_ifs <;> omega

theorem ahead_steps (hi : i < size) (hj : j < size) : ahead size i (steps size i j) = j := by
  unfold ahead steps
  split_ifs <;> omega

theorem steps_ahead (hi : i < size) (hk : k < size) : steps size i (ahead size i k) = k := by
  unfold ahead steps
  split_ifs <;> omega

theorem steps_next (hi : i < size) (hj : j < size) (hne : i ≠ j) :
    steps size (next size i) j + 1 = steps size i j := by
  unfold steps next
  split_ifs <;> omega

theorem steps_self (i : ℕ) : steps size i i = 0 := by simp [steps]

theorem steps_add {h : ℕ} (hi : i < size) (hh : h < size)
    (hle : steps size h j ≤ steps size i j) : steps size i h + steps size h j = steps size i j := by
  unfold steps at *
  split_ifs at * <;> omega

theorem steps_rest {h : ℕ} (hi : i < size) (hj : j < size) (hh : h < size)
    (hle : steps size i h ≤ steps size i j) : steps size h j = steps size i j - steps size i h := by
  unfold steps at *
  split_ifs at * <;> omega

variable {stop : ℕ → Prop} [DecidablePred stop]

theorem probe_mono {turns : ℕ} (h : probe size stop turns i = some j) (n : ℕ) :
    probe size stop (turns + n) i = some j := by
  induction turns generalizing i with
  | zero => cases h
  | succ turns ih =>
    rw [Nat.add_right_comm, probe]
    rw [probe] at h
    split_ifs at h ⊢
    · exact h
    · exact ih h

theorem probe_none (hi : i < size) (hall : ∀ j < size, ¬ stop j) (turns : ℕ) :
    probe size stop turns i = none := by
  induction turns generalizing i with
  | zero => rfl
  | succ turns ih => rw [probe, if_neg (hall i hi), ih (next_lt hi)]

theorem probe_skip (hi : i < size) (d : ℕ) (hd : d < size)
    (hgo : ∀ k < d, ¬ stop (ahead size i k)) (turns : ℕ) :
    probe size stop (d + turns) i = probe size stop turns (ahead size i d) := by
  induction d generalizing i with
  | zero => rw [Nat.zero_add, ahead_zero hi]
  | succ d ih =>
    have h0 : ¬ stop i := by simpa [ahead_zero hi] using hgo 0 (by omega)
    have hgo' : ∀ k < d, ¬ stop (ahead size (next size i) k) := by
      intro k hk
      rw [ahead_next (by omega)]
      exact hgo (k + 1) (by omega)
    rw [show d + 1 + turns = d + turns + 1 by omega, probe, if_neg h0,
      ih (next_lt hi) (by omega) hgo', ahead_next (by omega)]

variable (stop) in
theorem probe_spec (hi : i < size) (hj : j < size) (hstop : stop j) :
    ∃ d ≤ steps size i j, stop (ahead size i d) ∧ (∀ k < d, ¬ stop (ahead size i k)) ∧
      ∀ turns, probe size stop (d + 1 + turns) i = some (ahead size i d) := by
  have hex : ∃ d, stop (ahead size i d) := ⟨steps size i j, by rwa [ahead_steps hi hj]⟩
  classical
  have hle : Nat.find hex ≤ steps size i j := Nat.find_min' hex (by rwa [ahead_steps hi hj])
  have hgo : ∀ k < Nat.find hex, ¬ stop (ahead size i k) := fun k hk => Nat.find_min hex hk
  refine ⟨Nat.find hex, hle, Nat.find_spec hex, hgo, fun turns => ?_⟩
  have hlt := steps_lt hi hj
  rw [Nat.add_assoc, probe_skip hi _ (by omega) hgo, Nat.add_comm, probe,
    if_pos (Nat.find_spec hex)]

end

end MachKernel.Probe
