import Mathlib.Data.List.Nodup
import Mathlib.Logic.Function.Basic
import Mathlib.Tactic

/-! Hash tables of buckets in which entries are chained. -/

namespace MachKernel.Buckets
open Function List

variable {κ β : Type*} [DecidableEq κ] (hash : κ → ℕ)

abbrev Table (κ β : Type*) := ℕ → List (κ × β)

/-- The first entry in the bucket that has the name. -/
def lookup (t : Table κ β) (k : κ) : Option β :=
  ((t (hash k)).find? fun e => e.1 = k).map Prod.snd

/-- A new entry at the end of its bucket. -/
def insert (t : Table κ β) (k : κ) (v : β) : Table κ β :=
  update t (hash k) (t (hash k) ++ [(k, v)])

/-- Without the first entry that has the name. -/
def delete (t : Table κ β) (k : κ) : Table κ β :=
  update t (hash k) ((t (hash k)).eraseP fun e => e.1 = k)

/-- No name is in a bucket twice. -/
def Single (t : Table κ β) : Prop := ∀ b, ((t b).map Prod.fst).Nodup

variable {hash} {t : Table κ β} {k : κ} {v : β}

theorem lookup_none : lookup hash t k = none ↔ k ∉ (t (hash k)).map Prod.fst := by
  unfold lookup
  rw [Option.map_eq_none_iff, find?_eq_none]
  constructor
  · intro h hmem
    obtain ⟨e, he, rfl⟩ := mem_map.1 hmem
    exact h e he (decide_eq_true rfl)
  · intro h e he heq
    rw [← of_decide_eq_true heq] at h he
    exact h (mem_map_of_mem he)

theorem lookup_insert (h : lookup hash t k = none) (v : β) (k' : κ) :
    lookup hash (insert hash t k v) k' = if k' = k then some v else lookup hash t k' := by
  unfold lookup insert
  rw [update_apply]
  split
  · next hhash =>
    rw [find?_append, ← hhash]
    split
    · next hk =>
      rw [hk]
      unfold lookup at h
      rw [Option.map_eq_none_iff.1 h]
      simp
    · next hk =>
      have hone : [(k, v)].find? (fun e => e.1 = k') = none := by
        simpa using Ne.symm hk
      rw [hone, Option.or_none]
  · next hhash => rw [if_neg fun hk => hhash (congrArg hash hk)]

theorem Single.insert (ht : Single t) (h : lookup hash t k = none) (v : β) :
    Single (insert hash t k v) := by
  intro b
  unfold Buckets.insert
  rw [update_apply]
  split
  · rw [map_append, map_singleton, ← concat_eq_append]
    exact (ht _).concat (lookup_none.1 h)
  · exact ht b

theorem Single.lookup_delete (ht : Single t) (k k' : κ) :
    lookup hash (delete hash t k) k' = if k' = k then none else lookup hash t k' := by
  split
  · next hk =>
    rw [lookup_none, hk]
    unfold delete
    rw [update_self]
    have hnodup := ht (hash k)
    generalize t (hash k) = l at hnodup
    induction l with
    | nil => exact not_mem_nil
    | cons e l ih =>
      obtain ⟨hne, hnodup⟩ := nodup_cons.1 hnodup
      by_cases he : e.1 = k
      · rw [eraseP_cons, decide_eq_true he, cond_true, ← he]
        exact hne
      · rw [eraseP_cons_of_neg (by simpa using he), map_cons, mem_cons, not_or]
        exact ⟨Ne.symm he, ih hnodup⟩
  · next hk =>
    unfold lookup delete
    rw [update_apply]
    split
    · next hhash =>
      rw [← hhash]
      congr 1
      generalize t (hash k') = l
      induction l with
      | nil => rfl
      | cons e l ih =>
        by_cases he : e.1 = k
        · rw [eraseP_cons, decide_eq_true he, cond_true,
            find?_cons_of_neg (by simpa [he] using Ne.symm hk)]
        · rw [eraseP_cons_of_neg (by simpa using he), find?_cons, find?_cons, ih]
    · rfl

theorem Single.delete (ht : Single t) (k : κ) : Single (delete hash t k) := by
  intro b
  unfold Buckets.delete
  rw [update_apply]
  split
  · exact (ht _).sublist (eraseP_sublist.map Prod.fst)
  · exact ht b

omit [DecidableEq κ] in
theorem single_empty : Single (fun _ => [] : Table κ β) := fun _ => nodup_nil

end MachKernel.Buckets
