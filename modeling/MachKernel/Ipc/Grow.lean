import MachKernel.Ipc.EntryOk
import Mathlib.Data.List.Induction

/-! Growth of the table, and runs of the operations on the entries of a space. -/

namespace MachKernel.Ipc
open Assoc IpcSpace Function List Option

/-! ## The traversals -/

theorem IpcEntry.bitsZero_of_type {e : IpcEntry} (h : e.cap.type ≠ .none) : e.bitsZero = false := by
  simp [IpcEntry.bitsZero, h]

theorem visitList_singleton {σ : Type*} (visit : σ → MachPort → Capability → Bool × σ)
    (l : List (MachPort × Capability)) (p : MachPort × Capability) (s : σ) :
    visitList visit (l ++ [p]) s =
      ((visitList visit l s).1 ++ (if (visit (visitList visit l s).2 p.1 p.2).1 = true then [] else [p]),
        (visit (visitList visit l s).2 p.1 p.2).2) := by
  rw [visitList_append]
  rfl

/-- The first entry with each index is in its slot, the others are kept and collide with it. -/
structure MovedEntries (table : ℕ → IpcEntry) (total : ℕ) (l kept : List (MachPort × Capability))
    (table' : ℕ → IpcEntry) (total' : ℕ) : Prop where
  outside : ∀ i, (∀ p ∈ l, p.1.index ≠ i) → table' i = table i
  slot : ∀ q ∈ l, ∃ p ∈ l, p.1.index = q.1.index ∧ (table' q.1.index).cap = p.2 ∧
    (table' q.1.index).gen = p.1.gen
  kept_iff : ∀ p, p ∈ kept ↔ p ∈ l ∧ (table' p.1.index).gen ≠ p.1.gen
  collision : ∀ q ∈ l, ((table' q.1.index).collision = true ↔ ∃ p ∈ kept, p.1.index = q.1.index)
  count : total' + l.length = total + kept.length

theorem moveEntry_moved {table : ℕ → IpcEntry} {total : ℕ} {l : List (MachPort × Capability)}
    (hinc : Increasing l) (htype : ∀ p ∈ l, p.2.type ≠ .none)
    (hzero : ∀ p ∈ l, table p.1.index = .zero) (htotal : l.length ≤ total) :
    MovedEntries table total l (visitList moveEntry l (table, total)).1
      (visitList moveEntry l (table, total)).2.1 (visitList moveEntry l (table, total)).2.2 := by
  induction l using List.reverseRecOn with
  | nil =>
    exact ⟨fun _ _ => rfl, by simp, by simp [visitList], by simp, rfl⟩
  | append_singleton l p ih =>
    rw [length_append, length_singleton] at htotal
    obtain ⟨hl, -, hlt⟩ := increasing_append.mp hinc
    have hlt' : ∀ q ∈ l, q.1 ≠ p.1 := fun q hq => ne_of_lt (hlt q hq p (mem_singleton_self p))
    have hm := ih hl (fun q hq => htype q (mem_append_left _ hq))
      (fun q hq => hzero q (mem_append_left _ hq)) (by omega)
    rw [visitList_singleton]
    generalize visitList moveEntry l (table, total) = r at hm ⊢
    obtain ⟨kept, table', total'⟩ := r
    dsimp only at hm ⊢
    have hmemp : p ∈ l ++ [p] := by simp
    by_cases hold : ∃ q ∈ l, q.1.index = p.1.index
    · -- a collision with a previously moved entry
      obtain ⟨q, hq, hqi⟩ := hold
      obtain ⟨q', hq', hqi', hcap, hgen⟩ := hm.slot q hq
      rw [hqi] at hqi' hcap hgen
      have hbits : (table' p.1.index).bitsZero = false :=
        IpcEntry.bitsZero_of_type (hcap ▸ htype q' (mem_append_left _ hq'))
      have hgenp : (table' p.1.index).gen ≠ p.1.gen := fun heq =>
        hlt' q' hq' (MachPort.ext hqi' (hgen.symm.trans heq))
      have hvisit : moveEntry (table', total') p.1 p.2 = (false, update table' p.1.index
          { table' p.1.index with collision := true }, total') := by
        unfold moveEntry
        rw [if_pos hbits]
      rw [hvisit]
      dsimp only
      rw [if_neg (by simp)]
      have hfields : ∀ i, (update table' p.1.index
          { table' p.1.index with collision := true } i).cap = (table' i).cap ∧
          (update table' p.1.index
            { table' p.1.index with collision := true } i).gen = (table' i).gen := by
        intro i
        rcases eq_or_ne i p.1.index with rfl | hne
        · rw [update_self]
          exact ⟨rfl, rfl⟩
        · rw [update_of_ne hne]
          exact ⟨rfl, rfl⟩
      refine ⟨fun i hi => ?_, fun x hx => ?_, fun x => ?_, fun x hx => ?_, ?_⟩
      · rw [update_of_ne (hi p hmemp).symm]
        exact hm.outside i fun x hx => hi x (mem_append_left _ hx)
      · rw [(hfields _).1, (hfields _).2]
        rcases mem_append.mp hx with hx | hx
        · obtain ⟨y, hy, hall⟩ := hm.slot x hx
          exact ⟨y, mem_append_left _ hy, hall⟩
        · rw [mem_singleton.mp hx]
          exact ⟨q', mem_append_left _ hq', hqi', hcap, hgen⟩
      · rw [(hfields _).2, mem_append, hm.kept_iff x, mem_append, mem_singleton]
        constructor
        · rintro (⟨hx, hne⟩ | rfl)
          · exact ⟨.inl hx, hne⟩
          · exact ⟨.inr rfl, hgenp⟩
        · rintro ⟨hx | rfl, hne⟩
          · exact .inl ⟨hx, hne⟩
          · exact .inr rfl
      · rcases eq_or_ne x.1.index p.1.index with heq | hne
        · rw [heq, update_self]
          exact ⟨fun _ => ⟨p, by simp, rfl⟩, fun _ => rfl⟩
        · have hx' : x ∈ l := by
            rcases mem_append.mp hx with hx | hx
            · exact hx
            · rw [mem_singleton.mp hx] at hne
              exact absurd rfl hne
          rw [update_of_ne hne, hm.collision x hx']
          constructor
          · rintro ⟨y, hy, hyi⟩
            exact ⟨y, mem_append_left _ hy, hyi⟩
          · rintro ⟨y, hy, hyi⟩
            rcases mem_append.mp hy with hy | hy
            · exact ⟨y, hy, hyi⟩
            · rw [mem_singleton.mp hy] at hyi
              exact absurd hyi.symm hne
      · have := hm.count
        simp only [length_append, length_singleton]
        omega
    · have hindex : ∀ x ∈ l, x.1.index ≠ p.1.index := fun x hx heq => hold ⟨x, hx, heq⟩
      have hbits : table' p.1.index = .zero := (hm.outside _ hindex).trans (hzero p hmemp)
      have hvisit : moveEntry (table', total') p.1 p.2 = (true, update table' p.1.index
          ⟨p.2, p.1.gen, false⟩, total' - 1) := by
        have hbits' : (table' p.1.index).bitsZero = true := by rw [hbits]; rfl
        unfold moveEntry
        exact if_neg (by dsimp only; rw [hbits']; simp)
      rw [hvisit]
      dsimp only
      rw [if_pos rfl, append_nil]
      refine ⟨fun i hi => ?_, fun x hx => ?_, fun x => ?_, fun x hx => ?_, ?_⟩
      · rw [update_of_ne (hi p hmemp).symm]
        exact hm.outside i fun x hx => hi x (mem_append_left _ hx)
      · rcases mem_append.mp hx with hx | hx
        · rw [update_of_ne (hindex x hx)]
          obtain ⟨y, hy, hall⟩ := hm.slot x hx
          exact ⟨y, mem_append_left _ hy, hall⟩
        · rw [mem_singleton.mp hx, update_self]
          exact ⟨p, hmemp, rfl, rfl, rfl⟩
      · rw [hm.kept_iff x, mem_append, mem_singleton]
        constructor
        · rintro ⟨hx, hne⟩
          rw [update_of_ne (hindex x hx)]
          exact ⟨.inl hx, hne⟩
        · rintro ⟨hx | rfl, hne⟩
          · rw [update_of_ne (hindex x hx)] at hne
            exact ⟨hx, hne⟩
          · rw [update_self] at hne
            exact absurd rfl hne
      · rcases mem_append.mp hx with hx | hx
        · rw [update_of_ne (hindex x hx)]
          exact hm.collision x hx
        · rw [mem_singleton.mp hx, update_self]
          refine iff_of_false (by simp) ?_
          rintro ⟨y, hy, hyi⟩
          exact hindex y ((hm.kept_iff y).mp hy).1 hyi
      · have := hm.count
        simp only [length_append, length_singleton]
        omega

/-- The indices of the names of a list. -/
def indices (l : List (MachPort × Capability)) : Set ℕ := {i | ∃ p ∈ l, p.1.index = i}

theorem indices_finite (l : List (MachPort × Capability)) : (indices l).Finite := by
  have hset : indices l = {i | i ∈ l.map fun p => p.1.index} := by
    ext i
    simp [indices]
  rw [hset]
  exact finite_toSet _

theorem indices_snoc (l : List (MachPort × Capability)) (p : MachPort × Capability) :
    indices (l ++ [p]) = insert p.1.index (indices l) := by
  ext i
  simp only [indices, mem_append, mem_singleton, Set.mem_ofPred_eq, Set.mem_insert_iff]
  constructor
  · rintro ⟨q, hq | rfl, hi⟩
    · exact .inr ⟨q, hq, hi⟩
    · exact .inl hi.symm
  · rintro (hi | ⟨q, hq, hi⟩)
    · exact ⟨p, .inr rfl, hi.symm⟩
    · exact ⟨q, .inl hq, hi⟩

theorem countSmall_counts {l : List (MachPort × Capability)} (hinc : Increasing l)
    (hpos : ∀ p ∈ l, 0 < p.1.index) : (visitList countSmall l (0, 0)).1 = l ∧
      (visitList countSmall l (0, 0)).2.1 = (indices l).ncard ∧
      (∀ p ∈ l, p.1.index ≤ (visitList countSmall l (0, 0)).2.2) ∧
      ((visitList countSmall l (0, 0)).2.2 = 0 ∨
        (visitList countSmall l (0, 0)).2.2 ∈ indices l) := by
  induction l using List.reverseRecOn with
  | nil =>
    refine ⟨rfl, ?_, by simp, .inl rfl⟩
    rw [show indices [] = ∅ by simp [indices], Set.ncard_empty]
    rfl
  | append_singleton l p ih =>
    obtain ⟨hl, -, hlt⟩ := increasing_append.mp hinc
    obtain ⟨hkept, hcount, hmax, hlast⟩ := ih hl fun q hq => hpos q (mem_append_left _ hq)
    have hp := hpos p (by simp)
    rw [visitList_singleton, indices_snoc]
    generalize visitList countSmall l (0, 0) = r at *
    obtain ⟨kept, nosmall, index⟩ := r
    dsimp only at *
    have hle : ∀ q ∈ l, q.1.index ≤ p.1.index := fun q hq =>
      MachPort.index_mono (le_of_lt (hlt q hq p (mem_singleton_self p)))
    refine ⟨by rw [hkept]; rfl, ?_⟩
    by_cases hne : p.1.index ≠ index
    · have hnew : p.1.index ∉ indices l := by
        rintro ⟨q, hq, hqi⟩
        rcases hlast with h0 | ⟨q', hq', hqi'⟩
        · have := hmax q hq
          omega
        · have h₁ := hmax q hq
          have h₂ := hle q' hq'
          omega
      have hstate : (countSmall (nosmall, index) p.1 p.2).2 = (nosmall + 1, p.1.index) := if_pos hne
      rw [hstate, Set.ncard_insert_of_notMem hnew (indices_finite l)]
      refine ⟨by rw [hcount], fun q hq => ?_, .inr (Set.mem_insert _ _)⟩
      rcases mem_append.mp hq with hq | hq
      · exact hle q hq
      · rw [mem_singleton.mp hq]
    · have heq := not_not.mp hne
      have hold : p.1.index ∈ indices l := by
        rcases hlast with h0 | hmem
        · omega
        · rwa [heq]
      have hstate : (countSmall (nosmall, index) p.1 p.2).2 = (nosmall, index) := if_neg hne
      rw [hstate, Set.insert_eq_of_mem hold]
      refine ⟨hcount, fun q hq => ?_, .inr (heq ▸ hold)⟩
      rcases mem_append.mp hq with hq | hq
      · exact hmax q hq
      · rw [mem_singleton.mp hq]
        exact le_of_eq heq

/-- The unused slots of a range come in front of the free list. -/
theorem addFree_spec {osize n : ℕ} (hpos : 0 < osize) {table : ℕ → IpcEntry} {free : ℕ} {l : List ℕ}
    (hchain : FreeList.Chain (fun i => (table i).next) free l)
    (hout : ∀ i ∈ l, i < osize ∨ osize + n ≤ i) :
    ∃ l', (∀ i, i ∈ l' ↔ osize ≤ i ∧ i < osize + n ∧ (table i).bitsZero = true) ∧
      FreeList.Chain (fun i => ((addFree osize n (table, free)).1 i).next)
        (addFree osize n (table, free)).2 (l' ++ l) ∧
      (∀ i, i ∉ l' → (addFree osize n (table, free)).1 i = table i) ∧
      ∀ i ∈ l', ∃ next, (addFree osize n (table, free)).1 i =
        { (table i).setNext next with gen := 255 } := by
  induction n generalizing table free l with
  | zero => exact ⟨[], by simp; omega, hchain, fun _ _ => rfl, by simp⟩
  | succ n ih =>
    by_cases hzero : (table (osize + n)).bitsZero = true
    · have hstep : addFree osize (n + 1) (table, free) = addFree osize n (update table (osize + n)
            { (table (osize + n)).setNext free with gen := 255 }, osize + n) := by
        rw [addFree]
        exact if_pos hzero
      rw [hstep]
      have hmem : osize + n ∉ l := fun hmem => by
        have := hout _ hmem
        omega
      have hchain' : FreeList.Chain (fun i => (update table (osize + n)
          { (table (osize + n)).setNext free with gen := 255 } i).next) (osize + n)
          ((osize + n) :: l) := by
        refine ⟨rfl, by omega, ?_⟩
        dsimp only
        rw [update_self]
        refine hchain.congr fun j hj => ?_
        have hne : j ≠ osize + n := by
          rintro rfl
          exact hmem hj
        rw [update_of_ne hne]
      obtain ⟨l', hl', hfull, hsame, hnew⟩ := ih hchain' (by
        intro i hi
        rcases mem_cons.mp hi with rfl | hi
        · exact .inr le_rfl
        · rcases hout i hi with h | h
          · exact .inl h
          · exact .inr (by omega))
      have hne : ∀ i, i < osize + n → i ≠ osize + n := fun i hi => ne_of_lt hi
      have hl'' : ∀ i, i ∈ l' ↔ osize ≤ i ∧ i < osize + n ∧ (table i).bitsZero = true := by
        intro i
        rw [hl' i]
        constructor
        · rintro ⟨h₁, h₂, h₃⟩
          rw [update_of_ne (hne i h₂)] at h₃
          exact ⟨h₁, h₂, h₃⟩
        · rintro ⟨h₁, h₂, h₃⟩
          rw [update_of_ne (hne i h₂)]
          exact ⟨h₁, h₂, h₃⟩
      refine ⟨l' ++ [osize + n], fun i => ?_, by rw [append_assoc]; exact hfull, fun i hi => ?_,
        fun i hi => ?_⟩
      · rw [mem_append, mem_singleton, hl'' i]
        constructor
        · rintro (⟨h₁, h₂, h₃⟩ | rfl)
          · exact ⟨h₁, by omega, h₃⟩
          · exact ⟨by omega, by omega, hzero⟩
        · rintro ⟨h₁, h₂, h₃⟩
          rcases eq_or_ne i (osize + n) with rfl | hi
          · exact .inr rfl
          · exact .inl ⟨h₁, by omega, h₃⟩
      · rw [mem_append, mem_singleton, not_or] at hi
        rw [hsame i hi.1, update_of_ne hi.2]
      · rcases mem_append.mp hi with hi | hi
        · obtain ⟨next, hi'⟩ := hnew i hi
          rw [update_of_ne (hne i ((hl'' i).mp hi).2.1)] at hi'
          exact ⟨next, hi'⟩
        · rw [mem_singleton.mp hi]
          have hnot : osize + n ∉ l' := fun h => by
            have := ((hl'' _).mp h).2.1
            omega
          rw [hsame _ hnot, update_self]
          exact ⟨free, rfl⟩
    · have hstep : addFree osize (n + 1) (table, free) = addFree osize n (table, free) := by
        rw [addFree]
        exact if_neg hzero
      rw [hstep]
      obtain ⟨l', hl', hfull, hsame, hnew⟩ := ih hchain (by
        intro i hi
        rcases hout i hi with h | h
        · exact .inl h
        · exact .inr (by omega))
      refine ⟨l', fun i => ?_, hfull, hsame, hnew⟩
      rw [hl' i]
      constructor
      · rintro ⟨h₁, h₂, h₃⟩
        exact ⟨h₁, by omega, h₃⟩
      · rintro ⟨h₁, h₂, h₃⟩
        refine ⟨h₁, ?_, h₃⟩
        rcases eq_or_ne i (osize + n) with rfl | hi
        · exact absurd h₃ hzero
        · omega

/-! ## Growth -/

namespace Holds
variable {β : Type*} {t : SplayTree MachPort β} {tm : MachPort → Option β} {k i : ℕ}

theorem splitAt (h : Holds t tm k) (hi : i ≤ 2 ^ 24 - 1) (small : SplayTree MachPort β) :
    ∃ a b, a + b = k ∧
      Holds (t.split (.make i 0) small).1 (fun n => if i ≤ n.index then tm n else none) a ∧
      Holds (t.split (.make i 0) small).2 (fun n => if n.index < i then tm n else none) b := by
  obtain ⟨a, b, hab, hlarge, hsmall⟩ := h.split (.make i 0) small
  refine ⟨a, b, hab, hlarge.ext (fun n => ?_) rfl, hsmall.ext (fun n => ?_) rfl⟩
  · have hn := MachPort.lt_make n hi
    by_cases hlt : n.index < i
    · rw [if_pos (hn.mpr hlt), if_neg (by omega)]
    · rw [if_neg (mt hn.mp hlt), if_pos (by omega)]
  · exact if_congr (MachPort.lt_make n hi) rfl rfl

theorem mem_iff (h : Holds t tm k) (p : MachPort × β) : p ∈ t.toList ↔ tm p.1 = some p.2 := by
  rw [← h.get_eq]
  exact h.ok.increasing.get_eq_some.symm

end Holds

/-- The new part of the table, and what is left in the tree. -/
structure GrownEntries (osize size : ℕ) (tm tm' : MachPort → Option Capability)
    (table table' : ℕ → IpcEntry) : Prop where
  outside : ∀ i, ¬ (osize ≤ i ∧ i < size) → table' i = table i
  other : ∀ n : MachPort, ¬ (osize ≤ n.index ∧ n.index < size) → tm' n = tm n
  unused : ∀ i, osize ≤ i → i < size → ¬ Collides tm i → table' i = .zero
  used : ∀ i, osize ≤ i → i < size → Collides tm i →
    ∃ n : MachPort, n.index = i ∧ n.gen = (table' i).gen ∧ tm n = some (table' i).cap
  rest : ∀ n : MachPort, osize ≤ n.index → n.index < size →
    tm' n = if (table' n.index).gen = n.gen then none else tm n
  collision : ∀ i, osize ≤ i → i < size → ((table' i).collision = true ↔ Collides tm' i)

namespace IpcSpace
variable [TableSizes] {s : IpcSpace} {tm : MachPort → Option Capability} {l : List ℕ}

theorem growEntries_spec (ht : Holds s.tree tm s.treeTotal)
    (hpos : 0 < TableSizes.its (s.level - 1)) (hle : TableSizes.its (s.level - 1) ≤ s.tableSize)
    (hle' : s.tableSize ≤ s.tableNext) (hbound : s.tableNext ≤ 2 ^ 24 - 1)
    (htype : ∀ n c, tm n = some c → c.type ≠ .none)
    (hzero : ∀ i, TableSizes.its (s.level - 1) ≤ i → i < s.tableSize → s.table i = .zero)
    (hsmall : s.treeTotal = 0 → s.treeSmall = 0) :
    ∃ table tree total small tm', s.growEntries =
        { s with table := table, tree := tree, treeTotal := total, treeSmall := small } ∧
      Holds tree tm' total ∧
      GrownEntries (TableSizes.its (s.level - 1)) s.tableSize tm tm' s.table table ∧
      small = (smallIndices tm' s.tableSize s.tableNext).ncard := by
  generalize hos : TableSizes.its (s.level - 1) = osize at *
  by_cases htotal : s.treeTotal > 0
  swap
  · have hzero' : s.treeTotal = 0 := by omega
    have hnone : ∀ n, tm n = none := by
      rw [hzero'] at ht
      exact ht.eq_zero
    have hcol : ∀ i, ¬ Collides tm i := fun i ⟨n, hn, _⟩ => hn (hnone n)
    refine ⟨s.table, s.tree, s.treeTotal, s.treeSmall, tm, if_neg htotal, ht,
      ⟨fun _ _ => rfl, fun _ _ => rfl, fun i h₁ h₂ _ => hzero i h₁ h₂, fun i _ _ hc => absurd hc (hcol i),
        fun n _ _ => ?_, fun i h₁ h₂ => ?_⟩, ?_⟩
    · rw [hnone, ite_self]
    · rw [hzero i h₁ h₂]
      exact iff_of_false (by simp [IpcEntry.zero]) (hcol i)
    · have hempty : smallIndices tm s.tableSize s.tableNext = ∅ :=
        Set.eq_empty_of_forall_notMem fun i hi => hcol i hi.2.2
      rw [hsmall hzero', hempty, Set.ncard_empty]
  obtain ⟨a, b, hab, hlarge, hrest⟩ := ht.splitAt (i := s.tableNext) hbound scratchTree
  obtain ⟨c, d, hcd, hcount, hrest'⟩ := hrest.splitAt (i := s.tableSize) (hle'.trans hbound) scratchTree
  obtain ⟨e, f, hef, hmove, hignore⟩ :=
    hrest'.splitAt (i := osize) (hle.trans (hle'.trans hbound)) scratchTree
  have hstate : s.growEntries = let tree := (s.tree.split (.make s.tableNext 0) scratchTree).1
      let small := ((s.tree.split (.make s.tableNext 0) scratchTree).2.split (.make s.tableSize 0)
        scratchTree).1
      let move := (((s.tree.split (.make s.tableNext 0) scratchTree).2.split (.make s.tableSize 0)
        scratchTree).2.split (.make osize 0) scratchTree).1
      let ignore := (((s.tree.split (.make s.tableNext 0) scratchTree).2.split (.make s.tableSize 0)
        scratchTree).2.split (.make osize 0) scratchTree).2
      let moved := move.traverse moveEntry (s.table, s.treeTotal)
      let counted := small.traverse countSmall (0, 0)
      let tree := (((tree.join counted.1).1.join moved.1).1.join ignore).1
      { s with table := moved.2.1, tree := tree, treeTotal := moved.2.2, treeSmall := counted.2.1 } := by
    unfold growEntries
    dsimp only
    rw [if_pos htotal, hos]
  dsimp only at hstate
  generalize (s.tree.split (.make s.tableNext 0) scratchTree).1 = tree at *
  generalize ((s.tree.split (.make s.tableNext 0) scratchTree).2.split (.make s.tableSize 0)
    scratchTree).1 = small at *
  generalize (((s.tree.split (.make s.tableNext 0) scratchTree).2.split (.make s.tableSize 0)
    scratchTree).2.split (.make osize 0) scratchTree).1 = move at *
  generalize (((s.tree.split (.make s.tableNext 0) scratchTree).2.split (.make s.tableSize 0)
    scratchTree).2.split (.make osize 0) scratchTree).2 = ignore at *
  -- the entries that may move
  have hmem : ∀ p : MachPort × Capability, p ∈ move.toList ↔
      osize ≤ p.1.index ∧ p.1.index < s.tableSize ∧ tm p.1 = some p.2 := by
    intro p
    rw [hmove.mem_iff]
    by_cases h₁ : osize ≤ p.1.index
    · by_cases h₂ : p.1.index < s.tableSize
      · simp [h₁, h₂, h₂.trans_le hle']
      · simp [h₂]
    · simp [h₁]
  have hmoved := moveEntry_moved hmove.ok.increasing
    (fun p hp => htype p.1 p.2 ((hmem p).mp hp).2.2)
    (fun p hp => hzero _ ((hmem p).mp hp).1 ((hmem p).mp hp).2.1)
    (show move.toList.length ≤ s.treeTotal by rw [hmove.length]; omega)
  obtain ⟨hmok, hmlist, hmstate⟩ := hmove.ok.traverse moveEntry (s.table, s.treeTotal)
  rw [← hmlist, ← hmstate] at hmoved
  generalize move.traverse moveEntry (s.table, s.treeTotal) = moved at *
  obtain ⟨movedTree, table, total⟩ := moved
  -- the entries that are counted
  have hcmem : ∀ p : MachPort × Capability, p ∈ small.toList ↔
      s.tableSize ≤ p.1.index ∧ p.1.index < s.tableNext ∧ tm p.1 = some p.2 := by
    intro p
    rw [hcount.mem_iff]
    by_cases h₁ : s.tableSize ≤ p.1.index
    · by_cases h₂ : p.1.index < s.tableNext
      · simp [h₁, h₂]
      · simp [h₂]
    · simp [h₁]
  have hcounted := countSmall_counts hcount.ok.increasing fun p hp => by
    have := ((hcmem p).mp hp).1
    omega
  obtain ⟨hcok, hclist, hcstate⟩ := hcount.ok.traverse countSmall (0, 0)
  rw [← hclist, ← hcstate] at hcounted
  generalize small.traverse countSmall (0, 0) = counted at *
  obtain ⟨countedTree, nosmall, index⟩ := counted
  dsimp only at *
  let tm' : MachPort → Option Capability := fun n =>
    if osize ≤ n.index ∧ n.index < s.tableSize then
      if (table n.index).gen = n.gen then none else tm n
    else tm n
  have hin : ∀ n : MachPort, osize ≤ n.index → n.index < s.tableSize →
      tm' n = if (table n.index).gen = n.gen then none else tm n := fun n h₁ h₂ => if_pos ⟨h₁, h₂⟩
  have hout : ∀ n : MachPort, ¬ (osize ≤ n.index ∧ n.index < s.tableSize) → tm' n = tm n :=
    fun n h => if_neg h
  have hkept : ∀ p : MachPort × Capability, p ∈ movedTree.toList ↔
      (osize ≤ p.1.index ∧ p.1.index < s.tableSize) ∧ tm' p.1 = some p.2 := by
    intro p
    rw [hmoved.kept_iff, hmem]
    constructor
    · rintro ⟨⟨h₁, h₂, h₃⟩, h₄⟩
      refine ⟨⟨h₁, h₂⟩, ?_⟩
      rw [hin _ h₁ h₂, if_neg h₄, h₃]
    · rintro ⟨⟨h₁, h₂⟩, h₃⟩
      rw [hin _ h₁ h₂] at h₃
      by_cases h₄ : (table p.1.index).gen = p.1.gen
      · rw [if_pos h₄] at h₃
        cases h₃
      · rw [if_neg h₄] at h₃
        exact ⟨⟨h₁, h₂, h₃⟩, h₄⟩
  have hmovedTree : Holds movedTree
      (fun n => if osize ≤ n.index ∧ n.index < s.tableSize then tm' n else none)
      movedTree.toList.length := by
    refine ⟨hmok, fun n => Option.ext fun v => ?_, rfl⟩
    rw [hmok.increasing.get_eq_some, hkept]
    by_cases hn : osize ≤ n.index ∧ n.index < s.tableSize
    · simp [hn]
    · simp [hn]
  have hcountedTree : Holds countedTree
      (fun n => if s.tableSize ≤ n.index ∧ n.index < s.tableNext then tm' n else none) c := by
    refine ⟨hcok, fun n => Option.ext fun v => ?_, by rw [hcounted.1, hcount.length]⟩
    rw [hcok.increasing.get_eq_some, hcounted.1, hcmem]
    by_cases hn : s.tableSize ≤ n.index ∧ n.index < s.tableNext
    · rw [if_pos hn, hout n fun h => by omega]
      simp [hn]
    · rw [if_neg hn]
      simp only [reduceCtorEq, iff_false]
      exact fun h => hn ⟨h.1, h.2.1⟩
  have hsome : ∀ {p : Prop} [Decidable p] {o : Option Capability}, (if p then o else none) ≠ none →
    p := by
    intro p _ o ho
    by_contra hp
    rw [if_neg hp] at ho
    exact ho rfl
  have hor : ∀ {o o' : Option Capability}, o.or o' ≠ none → o ≠ none ∨ o' ≠ none := by
    intro o o' ho
    rwa [ne_eq, Option.or_eq_none_iff, not_and_or] at ho
  have hj₁ := hlarge.join hcountedTree fun x y hx hy =>
    MachPort.lt_of_index_lt ((hsome hx).2.trans_le (hsome hy))
  have hj₂ := hj₁.join hmovedTree fun x y hx hy => by
    refine MachPort.lt_of_index_lt ((hsome hx).2.trans_le ?_)
    rcases hor hy with hy | hy
    · exact (hsome hy).1
    · exact hle'.trans (hsome hy)
  have hj₃ := hj₂.join hignore fun x y hx hy => by
    refine MachPort.lt_of_index_lt ((hsome hx).trans_le ?_)
    rcases hor hy with hy | hy
    · exact (hsome hy).1
    · rcases hor hy with hy | hy
      · exact hle.trans (hsome hy).1
      · exact hle.trans (hle'.trans (hsome hy))
  have hlen := hmoved.count
  rw [hmove.length] at hlen
  have hcolIff : ∀ i, osize ≤ i → i < s.tableSize →
      ((∃ p ∈ movedTree.toList, p.1.index = i) ↔ Collides tm' i) := by
    intro i h₁ h₂
    constructor
    · rintro ⟨p, hp, rfl⟩
      exact ⟨p.1, by rw [((hkept p).mp hp).2]; simp, rfl⟩
    · rintro ⟨n, hn, rfl⟩
      obtain ⟨v, hv⟩ := ne_none_iff_exists'.mp hn
      exact ⟨(n, v), (hkept (n, v)).mpr ⟨⟨h₁, h₂⟩, hv⟩, rfl⟩
  have hentry : ∀ i, osize ≤ i → i < s.tableSize → Collides tm i →
      ∃ q ∈ move.toList, q.1.index = i := by
    rintro i h₁ h₂ ⟨n, hn, rfl⟩
    obtain ⟨v, hv⟩ := ne_none_iff_exists'.mp hn
    exact ⟨(n, v), (hmem (n, v)).mpr ⟨h₁, h₂, hv⟩, rfl⟩
  have hunused : ∀ i, osize ≤ i → i < s.tableSize → ¬ Collides tm i → table i = .zero := by
    intro i h₁ h₂ hc
    rw [hmoved.outside i fun p hp heq => hc ⟨p.1, by rw [((hmem p).mp hp).2.2]; simp, heq⟩]
    exact hzero i h₁ h₂
  refine ⟨table, _, total, nosmall, tm', hstate, hj₃.ext (fun n => ?_) (by omega),
    ⟨fun i hi => ?_, hout, hunused, fun i h₁ h₂ hc => ?_, hin, fun i h₁ h₂ => ?_⟩, ?_⟩
  · by_cases h₁ : n.index < osize
    · have h₂ := h₁.trans_le hle
      have h₃ := h₂.trans_le hle'
      rw [hout n fun h => by omega]
      simp [h₁, h₂, h₃, h₁.not_ge, h₂.not_ge, h₃.not_ge]
    · by_cases h₂ : n.index < s.tableSize
      · have h₃ := h₂.trans_le hle'
        have h₁' := not_lt.mp h₁
        simp [h₁, h₁', h₂, h₃.not_ge, h₂.not_ge]
      · rw [hout n fun h => h₂ h.2]
        have h₂' := not_lt.mp h₂
        by_cases h₃ : n.index < s.tableNext
        · simp [h₁, h₂, h₂', h₃, h₃.not_ge]
        · simp [h₁, h₂, h₃, not_lt.mp h₃]
  · refine hmoved.outside i fun p hp heq => hi ?_
    rw [← heq]
    exact ⟨((hmem p).mp hp).1, ((hmem p).mp hp).2.1⟩
  · obtain ⟨q, hq, rfl⟩ := hentry i h₁ h₂ hc
    obtain ⟨p, hp, hpi, hcap, hgen⟩ := hmoved.slot q hq
    exact ⟨p.1, hpi, hgen.symm, by rw [hcap]; exact ((hmem p).mp hp).2.2⟩
  · by_cases hc : Collides tm i
    · obtain ⟨q, hq, rfl⟩ := hentry i h₁ h₂ hc
      rw [hmoved.collision q hq]
      exact hcolIff _ h₁ h₂
    · rw [hunused i h₁ h₂ hc]
      refine iff_of_false (by simp [IpcEntry.zero]) ?_
      rintro ⟨n, hn, rfl⟩
      rw [hin n h₁ h₂] at hn
      refine hc ⟨n, fun hnone => hn ?_, rfl⟩
      rw [hnone, ite_self]
  · rw [hcounted.2.1]
    congr 1
    ext i
    constructor
    · rintro ⟨p, hp, rfl⟩
      obtain ⟨h₁, h₂, h₃⟩ := (hcmem p).mp hp
      exact ⟨h₁, h₂, p.1, by rw [hout _ fun h => by omega, h₃]; simp, rfl⟩
    · rintro ⟨h₁, h₂, n, hn, rfl⟩
      rw [hout n fun h => by omega] at hn
      obtain ⟨v, hv⟩ := ne_none_iff_exists'.mp hn
      exact ⟨(n, v), (hcmem (n, v)).mpr ⟨h₁, h₂, hv⟩, rfl⟩

end IpcSpace

namespace IpcSpace
variable [TableSizes] {s : IpcSpace} {tm : MachPort → Option Capability} {l : List ℕ}

theorem level_of_size (h : s.level < TableSizes.last) (hne : s.tableSize ≠ s.tableNext) :
    s.level + 1 < TableSizes.last := by
  by_contra hnot
  have heq : s.level + 1 = TableSizes.last := by omega
  exact hne ((TableSizes.final _ heq).trans (congrArg TableSizes.its heq.symm))

theorem Rep.grow (h : s.Rep tm l) (hlevel : s.level + 1 < TableSizes.last)
    (hfilled : ∀ n c, s.contents tm l n = some c → c.type ≠ .none) :
    ∃ tm' l', s.grow.Rep tm' l' ∧ s.grow.contents tm' l' = s.contents tm l := by
  have hpos := h.tableSize_pos
  have hle := tableSize_le_tableNext h.level
  have hlt : s.tableSize < s.tableNext := TableSizes.increasing _ hlevel
  let s₁ : IpcSpace := { s with
    table := fun i => if i < s.tableSize then s.table i else .zero
    level := s.level + 1 }
  have hs₁ : s₁.tableSize = s.tableNext := rfl
  have hbound : s₁.tableNext ≤ 2 ^ 24 - 1 := tableNext_le (s := s₁) hlevel
  have hnext : s₁.tableSize ≤ s₁.tableNext := tableSize_le_tableNext (s := s₁) hlevel
  have htype : ∀ n c, tm n = some c → c.type ≠ .none := by
    intro n c hn
    have hnot : ¬ s.InTable l n := fun hin => by
      rw [h.disjoint n hin] at hn
      cases hn
    exact hfilled n c ((contents_of_not hnot).trans hn)
  have hsmall : s₁.treeTotal = 0 → s₁.treeSmall = 0 := by
    intro h0
    have htree := h.tree
    rw [show s.treeTotal = 0 from h0] at htree
    have hempty : smallIndices tm s.tableSize s.tableNext = ∅ :=
      Set.eq_empty_of_forall_notMem fun i hi => hi.2.2.elim fun n hn => hn.1 (htree.eq_zero n)
    exact h.small.trans (by rw [hempty, Set.ncard_empty])
  obtain ⟨table, tree, total, small, tm', hstate, htree, hgrown, hcount⟩ :=
    growEntries_spec (s := s₁) h.tree hpos hle hnext hbound htype
      (fun i h₁ _ => if_neg (not_lt.mpr h₁)) hsmall
  have hosize : TableSizes.its (s₁.level - 1) = s.tableSize := rfl
  rw [hosize, hs₁] at hgrown
  rw [hs₁] at hcount
  have hold : ∀ i, i < s.tableSize → table i = s.table i := by
    intro i hi
    rw [hgrown.outside i fun hc => by omega]
    exact if_pos hi
  have htm : ∀ n : MachPort, n.index < s.tableSize → tm' n = tm n := fun n hn =>
    hgrown.other n fun hc => by omega
  -- the unused slots of the new part
  have hchain : FreeList.Chain (fun i => (table i).next) (table 0).next l := by
    rw [hold 0 hpos]
    exact h.chain.congr fun j hj => congrArg IpcEntry.next (hold j (h.range j hj))
  obtain ⟨l', hl', hfull, hsame, hnew⟩ := addFree_spec (n := s.tableNext - s.tableSize) hpos hchain
    fun i hi => .inl (h.range i hi)
  have hgrow : s.grow =
      let added := addFree s.tableSize (s.tableNext - s.tableSize) (table, (table 0).next)
      let table' := update added.1 0 ((added.1 0).setNext added.2)
      { s₁ with table := table', tree := tree, treeTotal := total, treeSmall := small } := by
    unfold IpcSpace.grow
    dsimp only
    rw [show growEntries _ = _ from hstate]
    rfl
  rw [hgrow]
  generalize addFree s.tableSize (s.tableNext - s.tableSize) (table, (table 0).next) = added at *
  obtain ⟨table', free⟩ := added
  dsimp only at *
  have hunused : ∀ i, i ∈ l' ↔ s.tableSize ≤ i ∧ i < s.tableNext ∧ ¬ Collides tm i := by
    intro i
    rw [hl' i, Nat.add_sub_cancel' hle]
    refine and_congr_right fun h₁ => and_congr_right fun h₂ => ?_
    constructor
    · intro hbits hc
      obtain ⟨n, -, -, hcap⟩ := hgrown.used i h₁ h₂ hc
      rw [IpcEntry.bitsZero_of_type (htype n _ hcap)] at hbits
      cases hbits
    · intro hc
      rw [hgrown.unused i h₁ h₂ hc]
      rfl
  have hlow : ∀ i, i < s.tableSize → i ∉ l' := fun i hi hmem => by
    have := ((hunused i).mp hmem).1
    omega
  have h0 : table' 0 = s.table 0 := (hsame 0 (hlow 0 hpos)).trans (hold 0 hpos)
  -- the table with its new list head
  obtain ⟨t, ht, ht0, hsame', hnew'⟩ : ∃ t, update table' 0 ((table' 0).setNext free) = t ∧
      t 0 = (s.table 0).setNext free ∧ (∀ i, i ∉ l' → i ≠ 0 → t i = table i) ∧
      ∀ i ∈ l', ∃ next, t i = { IpcEntry.zero.setNext next with gen := 255 } := by
    refine ⟨_, rfl, by rw [update_self, h0], fun i hi hi0 => ?_, fun i hi => ?_⟩
    · rw [update_of_ne hi0, hsame i hi]
    · have hi' := (hunused i).mp hi
      obtain ⟨next, hn⟩ := hnew i hi
      rw [hgrown.unused i hi'.1 hi'.2.1 hi'.2.2] at hn
      exact ⟨next, by rw [update_of_ne (by omega), hn]⟩
  have hchain' : FreeList.Chain (fun i => (t i).next) free (l' ++ l) := by
    refine hfull.congr fun j hj => ?_
    rw [← ht, update_of_ne (by have := hfull.pos j hj; omega)]
  rw [ht]
  clear ht hfull hsame hnew h0
  have htOld : ∀ i, i < s.tableSize → i ≠ 0 → t i = s.table i := fun i hi hi0 =>
    (hsame' i (hlow i hi) hi0).trans (hold i hi)
  have htGen : ∀ i, i < s.tableSize → (t i).gen = (s.table i).gen ∧
      (t i).collision = (s.table i).collision ∧ (t i).cap.type = (s.table i).cap.type := by
    intro i hi
    rcases eq_or_ne i 0 with rfl | hi0
    · rw [ht0]
      exact ⟨rfl, rfl, rfl⟩
    · rw [htOld i hi hi0]
      exact ⟨rfl, rfl, rfl⟩
  have htUsed : ∀ i, s.tableSize ≤ i → i < s.tableNext → Collides tm i → t i = table i :=
    fun i h₁ h₂ hc => hsame' i (fun hi => ((hunused i).mp hi).2.2 hc) (by omega)
  let s₂ : IpcSpace :=
    { s₁ with table := t, tree := tree, treeTotal := total, treeSmall := small }
  have hin₂ : ∀ n, s₂.InTable (l' ++ l) n ↔ 0 < n.index ∧ n.index < s.tableNext ∧
      n.index ∉ l' ++ l ∧ (t n.index).gen = n.gen := fun n => Iff.rfl
  have hinOld : ∀ n : MachPort, n.index < s.tableSize → (s₂.InTable (l' ++ l) n ↔ s.InTable l n) := by
    intro n hn
    rw [hin₂, mem_append, not_or, (htGen _ hn).1]
    exact ⟨fun hc => ⟨hc.1, hn, hc.2.2.1.2, hc.2.2.2⟩,
      fun hc => ⟨hc.1, hn.trans hlt, ⟨hlow _ hn, hc.2.2.1⟩, hc.2.2.2⟩⟩
  have hinNew : ∀ n : MachPort, s.tableSize ≤ n.index → (s₂.InTable (l' ++ l) n ↔
      n.index < s.tableNext ∧ Collides tm n.index ∧ (table n.index).gen = n.gen) := by
    intro n hn
    rw [hin₂, mem_append, not_or]
    constructor
    · rintro ⟨-, hlt', ⟨hmem, -⟩, hgen⟩
      have hc : Collides tm n.index := by
        by_contra hc
        exact hmem ((hunused _).mpr ⟨hn, hlt', hc⟩)
      rw [htUsed _ hn hlt' hc] at hgen
      exact ⟨hlt', hc, hgen⟩
    · rintro ⟨hlt', hc, hgen⟩
      rw [htUsed _ hn hlt' hc]
      refine ⟨by omega, hlt', ⟨fun hmem => ((hunused _).mp hmem).2.2 hc, fun hmem => ?_⟩, hgen⟩
      have := h.range _ hmem
      omega
  have hnotOld : ∀ n : MachPort, s.tableSize ≤ n.index → s.contents tm l n = tm n := fun n hn =>
    contents_of_not fun hc => by
      have := hc.2.1
      omega
  change ∃ tm' l', s₂.Rep tm' l' ∧ s₂.contents tm' l' = s.contents tm l
  refine ⟨tm', l' ++ l, ⟨hlevel, ?_, ?_, ?_, ?_, ?_, htree, ?_, ?_, ?_, ?_, hcount⟩, ?_⟩
  · exact (htGen 0 hpos).2.2.trans h.head
  · exact (htGen 0 hpos).1.trans h.headGen
  · change FreeList.Chain (fun i => (t i).next) (t 0).next (l' ++ l)
    rw [ht0]
    exact hchain'
  · intro i hi
    rcases mem_append.mp hi with hi | hi
    · exact ((hunused i).mp hi).2.1
    · exact (h.range i hi).trans hlt
  · intro i hi
    change (t i).IsFree
    rcases mem_append.mp hi with hi | hi
    · obtain ⟨next, hn⟩ := hnew' i hi
      rw [hn]
      rfl
    · rw [htOld i (h.range i hi) (by have := h.chain.pos i hi; omega)]
      exact h.free i hi
  · rw [htm ⊥ (MachPort.index_bot ▸ hpos), h.bot]
  · have htop : tm' ⊤ = tm ⊤ := hgrown.other ⊤ fun hc => by
      have h₁ := hc.2
      have h₂ := MachPort.index_top
      have h₃ := tableNext_le h.level
      omega
    rw [htop, h.top]
  · intro n hn
    by_cases hlt' : n.index < s.tableSize
    · rw [htm n hlt']
      exact h.disjoint n ((hinOld n hlt').mp hn)
    · obtain ⟨h₁, h₂, h₃⟩ := (hinNew n (not_lt.mp hlt')).mp hn
      rw [hgrown.rest n (not_lt.mp hlt') h₁, if_pos h₃]
  · intro i hi
    change (t i).collision = true ↔ Collides tm' i
    by_cases hlt' : i < s.tableSize
    · rw [(htGen i hlt').2.1, h.collision i hlt']
      exact (collides_congr fun n hn => by rw [htm n (hn ▸ hlt')]).symm
    · have hge := not_lt.mp hlt'
      by_cases hc : Collides tm i
      · rw [htUsed i hge hi hc]
        exact hgrown.collision i hge hi
      · have hcol := hgrown.collision i hge hi
        obtain ⟨next, hn⟩ := hnew' i ((hunused i).mpr ⟨hge, hi, hc⟩)
        rw [hgrown.unused i hge hi hc] at hcol
        rw [hn]
        exact hcol
  · funext n
    by_cases hlt' : n.index < s.tableSize
    · by_cases hin : s.InTable l n
      · refine (contents_of_inTable ((hinOld n hlt').mpr hin)).trans ?_
        rw [contents_of_inTable hin]
        change some (t n.index).cap = some (s.table n.index).cap
        rw [htOld _ hlt' (by have := hin.1; omega)]
      · refine (contents_of_not fun hc => hin ((hinOld n hlt').mp hc)).trans ?_
        rw [contents_of_not hin, htm n hlt']
    · have hge := not_lt.mp hlt'
      rw [hnotOld n hge]
      by_cases hin : n.index < s.tableNext ∧ Collides tm n.index ∧ (table n.index).gen = n.gen
      · refine (contents_of_inTable ((hinNew n hge).mpr hin)).trans ?_
        obtain ⟨k, hki, hkg, hk⟩ := hgrown.used _ hge hin.1 hin.2.1
        rw [MachPort.ext hki (hkg.trans hin.2.2)] at hk
        change some (t n.index).cap = tm n
        rw [htUsed _ hge hin.1 hin.2.1, hk]
      · refine (contents_of_not fun hc => hin ((hinNew n hge).mp hc)).trans ?_
        by_cases hnx : n.index < s.tableNext
        · rw [hgrown.rest n hge hnx]
          split_ifs with hgen
          · by_contra hne
            exact hin ⟨hnx, ⟨n, fun hn => hne hn.symm, rfl⟩, hgen⟩
          · rfl
        · exact hgrown.other n fun hc => hnx hc.2

end IpcSpace

/-! ## Runs -/

/-- Every entry that was handed out has a type by now. -/
def Filled (m : MachPort → Option Capability) : Prop := ∀ n c, m n = some c → c.type ≠ .none

namespace IpcSpace
variable [TableSizes]

/-- Where the entry of a name is, if it has one. -/
def entryRef (s : IpcSpace) (n : MachPort) : EntryRef :=
  if 0 < n.index ∧ n.index < s.tableSize ∧ (s.table n.index).gen = n.gen then .table n.index
  else .tree n

/-- A space after some sequence of operations, and the entries that it should have. The lock may be
dropped only when every entry that was handed out has a type. -/
inductive SpaceRun : IpcSpace → (MachPort → Option Capability) → Prop
  | create {initial : ℕ} (h : initial < TableSizes.last) : SpaceRun (create initial) fun _ => none
  | lookup {s : IpcSpace} {m : MachPort → Option Capability} (n : MachPort) (h : SpaceRun s m) :
      SpaceRun (s.lookup n).2 m
  | get {s s' : IpcSpace} {m : MachPort → Option Capability} {n : MachPort} {r : EntryRef}
      (h : SpaceRun s m) (hg : s.entryGet = some (n, r, s')) :
      SpaceRun s' (update m n (some .zero))
  | allocName {s s' : IpcSpace} {m : MachPort → Option Capability} {n : MachPort} {r : EntryRef}
      {treeEntry : Bool} (h : SpaceRun s m) (hfilled : Filled m) (hbot : n ≠ ⊥) (htop : n ≠ ⊤)
      (ha : s.allocName n treeEntry = some (.allocated r, s')) :
      SpaceRun s' (update m n (some .zero))
  | allocNameTurn {s s' : IpcSpace} {m : MachPort → Option Capability} {n : MachPort}
      {a : AllocName} {treeEntry : Bool} (h : SpaceRun s m) (hfilled : Filled m) (hbot : n ≠ ⊥)
      (htop : n ≠ ⊤) (ha : s.allocName n treeEntry = some (a, s')) (hne : ∀ r, a ≠ .allocated r) :
      SpaceRun s' m
  | write {s : IpcSpace} {m : MachPort → Option Capability} {n : MachPort}
      (f : Capability → Capability) (h : SpaceRun s m) (hn : m n ≠ none) :
      SpaceRun (s.write f (s.entryRef n)) (update m n ((m n).map f))
  | dealloc {s : IpcSpace} {m : MachPort → Option Capability} {n : MachPort} {c : Capability}
      (h : SpaceRun s m) (hn : m n = some c) (hobject : c.object = none) (hrequest : c.request = 0) :
      SpaceRun (s.dealloc n (s.entryRef n)) (update m n none)
  | growStart {s : IpcSpace} {m : MachPort → Option Capability} (h : SpaceRun s m)
      (hfilled : Filled m) : SpaceRun s.growStart.2 m
  | growFinish {s : IpcSpace} {m : MachPort → Option Capability} (table : Bool) (h : SpaceRun s m)
      (hfilled : Filled m) (hgrowing : s.isGrowing = true) : SpaceRun (s.growFinish table) m
  | destroy {s : IpcSpace} {m : MachPort → Option Capability} (h : SpaceRun s m) :
      SpaceRun { s with isActive := false } m

variable {s s' : IpcSpace} {m tm : MachPort → Option Capability} {l : List ℕ} {n : MachPort}
  {r : EntryRef}

/-- What no operation changes while the lock is held. -/
structure Locked (s s' : IpcSpace) : Prop where
  isActive : s'.isActive = s.isActive
  isGrowing : s'.isGrowing = s.isGrowing
  level : s'.level = s.level

omit [TableSizes] in
theorem entryGet_locked (hg : s.entryGet = some (n, r, s')) : s.Locked s' := by
  unfold IpcSpace.entryGet at hg
  dsimp only at hg
  split_ifs at hg
  cases hg
  exact ⟨rfl, rfl, rfl⟩

theorem countTree_locked : s.Locked (s.countTree n) := by
  unfold countTree
  dsimp only
  split_ifs <;> exact ⟨rfl, rfl, rfl⟩

theorem allocName_locked {a : AllocName} {treeEntry : Bool}
    (ha : s.allocName n treeEntry = some (a, s')) : s.Locked s' := by
  have hlook : s.Locked (if s.treeTotal > 0 then s.treeLookup n else (none, s)).2 := by
    split_ifs <;> exact ⟨rfl, rfl, rfl⟩
  unfold IpcSpace.allocName at ha
  dsimp only at ha
  generalize (if s.treeTotal > 0 then s.treeLookup n else (none, s)) = found at ha hlook
  obtain ⟨o, s₁⟩ := found
  split_ifs at ha
  · cases ha
    exact ⟨rfl, rfl, rfl⟩
  · obtain ⟨p, -, hp⟩ := map_eq_some_iff.mp ha
    cases hp
    exact ⟨rfl, rfl, rfl⟩
  · cases ha
    exact ⟨rfl, rfl, rfl⟩
  · cases o <;> cases ha <;> exact hlook
  · cases o with
    | some =>
      cases ha
      exact hlook
    | none =>
      cases ha
      have hc := countTree_locked (s := s₁) (n := n)
      exact ⟨hc.isActive.trans hlook.isActive, hc.isGrowing.trans hlook.isGrowing,
        hc.level.trans hlook.level⟩
  · cases o <;> cases ha <;> exact hlook

omit [TableSizes] in
theorem write_locked (f : Capability → Capability) : s.Locked (s.write f r) := by
  cases r <;> exact ⟨rfl, rfl, rfl⟩

theorem dealloc_locked : s.Locked (s.dealloc n r) := by
  unfold IpcSpace.dealloc
  dsimp only
  split_ifs
  · split <;> exact ⟨rfl, rfl, rfl⟩
  all_goals exact ⟨rfl, rfl, rfl⟩

theorem grow_isGrowing : s.grow.isGrowing = s.isGrowing := by
  unfold IpcSpace.grow growEntries
  dsimp only
  split_ifs <;> rfl

omit [TableSizes] in
theorem chain_range {next : ℕ → ℕ} {size : ℕ} (hnext : ∀ i, next i = if i + 1 = size then 0 else i + 1)
    (j k : ℕ) (h : j + k = size) (hj : 0 < j) :
    FreeList.Chain next (if k = 0 then 0 else j) (List.range' j k) := by
  induction k generalizing j with
  | zero => rfl
  | succ k ih =>
    refine ⟨rfl, hj, ?_⟩
    have := ih (j + 1) (by omega) (by omega)
    rw [hnext j]
    by_cases hk : k = 0
    · rw [if_pos (by omega)]
      rwa [if_pos hk] at this
    · rw [if_neg (by omega)]
      rwa [if_neg hk] at this

theorem create_rep {initial : ℕ} (h : initial < TableSizes.last) :
    ∃ l, (create initial).Rep (fun _ => none) l ∧
      (create initial).contents (fun _ => none) l = fun _ => none := by
  have hpos : 0 < TableSizes.its initial := its_pos (le_of_lt h)
  have hnext : ∀ i, ((create initial).table i).next =
      if i + 1 = TableSizes.its initial then 0 else i + 1 := fun _ => rfl
  have hmem : ∀ i, i ∈ List.range' 1 (TableSizes.its initial - 1) ↔
      0 < i ∧ i < TableSizes.its initial := by
    intro i
    rw [mem_range'_1]
    omega
  have hcol : ∀ i, ¬ Collides (fun _ : MachPort => (none : Option Capability)) i :=
    fun i ⟨_, hn, _⟩ => hn rfl
  refine ⟨List.range' 1 (TableSizes.its initial - 1), ⟨h, rfl, rfl, ?_, fun i hi => ((hmem i).mp hi).2,
    fun _ _ => rfl, Holds.init scratchTree, rfl, rfl, fun _ _ => rfl,
    fun i _ => iff_of_false (by simp [create]) (hcol i), ?_⟩, ?_⟩
  · have hchain := chain_range hnext 1 (TableSizes.its initial - 1) (by omega) one_pos
    have hhead : ((create initial).table 0).next =
        if TableSizes.its initial - 1 = 0 then 0 else 1 := by
      rw [hnext]
      by_cases h1 : TableSizes.its initial - 1 = 0
      · rw [if_pos h1, if_pos (by omega)]
      · rw [if_neg h1, if_neg (by omega)]
    rw [hhead]
    exact hchain
  · have hempty : smallIndices (fun _ : MachPort => (none : Option Capability))
        (create initial).tableSize (create initial).tableNext = ∅ :=
      Set.eq_empty_of_forall_notMem fun i hi => hcol i hi.2.2
    rw [hempty, Set.ncard_empty]
    rfl
  · funext n
    refine contents_of_not ?_
    rintro ⟨hn0, hlt, hout, -⟩
    exact hout ((hmem _).mpr ⟨hn0, hlt⟩)

theorem Rep.refOf_entryRef (h : s.Rep tm l) (hn : s.contents tm l n ≠ none) :
    s.RefOf tm l n (s.entryRef n) := by
  unfold entryRef
  split_ifs with hin
  · by_cases hmem : n.index ∈ l
    · rw [contents_of_not fun hc => hc.2.2.1 hmem] at hn
      exact absurd (h.free_none hmem) hn
    · exact ⟨rfl, hin.1, hin.2.1, hmem, hin.2.2⟩
  · refine ⟨rfl, ?_⟩
    rwa [contents_of_not fun hc => hin ⟨hc.1, hc.2.1, hc.2.2.2⟩] at hn

theorem Rep.contents_ne_none (h : s.Rep tm l) {r : EntryRef} (hr : s.RefOf tm l n r) :
    s.contents tm l n ≠ none := by
  cases r with
  | table i =>
    rw [contents_of_inTable hr.2]
    simp
  | tree k =>
    obtain ⟨rfl, hk⟩ := hr
    rwa [contents_of_not fun hin => hk (h.disjoint k hin)]

theorem Rep.eq_entryRef (h : s.Rep tm l) {r : EntryRef} (hr : s.RefOf tm l n r) :
    r = s.entryRef n :=
  hr.unique h.disjoint (h.refOf_entryRef (h.contents_ne_none hr))

theorem Rep.setFlags (h : s.Rep tm l) (active growing : Bool) :
    ({ s with isActive := active, isGrowing := growing } : IpcSpace).Rep tm l :=
  ⟨h.level, h.head, h.headGen, h.chain, h.range, h.free, h.tree, h.bot, h.top, h.disjoint,
    h.collision, h.small⟩

theorem allocNameDone_shape {a : AllocName} (h : s.AllocNameDone tm l n s' a)
    (hne : ∀ r, a ≠ .allocated r) :
    ∃ tree, s' = { s with tree := tree } ∧ Holds tree tm s.treeTotal := by
  cases a with
  | allocated r => exact absurd rfl (hne r)
  | found => exact h.1
  | invalidTask => exact h.1
  | growTable => exact h.1
  | allocTreeEntry => exact h.1

theorem SpaceRun.rep (h : SpaceRun s m) : ∃ tm l, s.Rep tm l ∧ s.contents tm l = m ∧
    (s.isGrowing = true → s.level + 1 < TableSizes.last) := by
  induction h with
  | create h =>
    obtain ⟨l, hrep, hcont⟩ := create_rep h
    refine ⟨_, l, hrep, hcont, ?_⟩
    intro hg
    cases hg
  | lookup n _ ih =>
    obtain ⟨tm, l, hrep, hcont, hgrow⟩ := ih
    obtain ⟨tree, hs, htree⟩ := hrep.lookup_state n
    rw [hs]
    exact ⟨tm, l, hrep.reshape htree, hcont, hgrow⟩
  | get _ hg ih =>
    obtain ⟨tm, l, hrep, rfl, hgrow⟩ := ih
    obtain ⟨l', hall⟩ := hrep.entryGet hg
    have hs := entryGet_locked hg
    refine ⟨tm, l', hall.rep, hall.contents, ?_⟩
    rwa [hs.isGrowing, hs.level]
  | allocName _ hfilled hbot htop ha ih =>
    obtain ⟨tm, l, hrep, rfl, hgrow⟩ := ih
    obtain ⟨a, s₁, ha', hdone⟩ := hrep.allocName hfilled hbot htop _
    rw [ha] at ha'
    obtain ⟨rfl, rfl⟩ := Prod.mk.inj (some.inj ha')
    obtain ⟨tm', l', hall⟩ := hdone
    have hs := allocName_locked ha
    refine ⟨tm', l', hall.rep, hall.contents, ?_⟩
    rwa [hs.isGrowing, hs.level]
  | allocNameTurn _ hfilled hbot htop ha hne ih =>
    obtain ⟨tm, l, hrep, rfl, hgrow⟩ := ih
    obtain ⟨a, s₁, ha', hdone⟩ := hrep.allocName hfilled hbot htop _
    rw [ha] at ha'
    obtain ⟨rfl, rfl⟩ := Prod.mk.inj (some.inj ha')
    obtain ⟨tree, rfl, htree⟩ := allocNameDone_shape hdone hne
    exact ⟨tm, l, hrep.reshape htree, rfl, hgrow⟩
  | write f _ hn ih =>
    obtain ⟨tm, l, hrep, rfl, hgrow⟩ := ih
    obtain ⟨tm', hrep', hcont', -⟩ := hrep.write (hrep.refOf_entryRef hn) f
    refine ⟨tm', l, hrep', hcont', ?_⟩
    rwa [(write_locked f).isGrowing, (write_locked f).level]
  | dealloc _ hn hobject _ ih =>
    obtain ⟨tm, l, hrep, rfl, hgrow⟩ := ih
    obtain ⟨tm', l', hdone⟩ := hrep.dealloc (hrep.refOf_entryRef (by rw [hn]; simp)) hn hobject
    refine ⟨tm', l', hdone.rep, hdone.contents, ?_⟩
    rwa [dealloc_locked.isGrowing, dealloc_locked.level]
  | growStart _ _ ih =>
    obtain ⟨tm, l, hrep, rfl, hgrow⟩ := ih
    unfold IpcSpace.growStart
    split_ifs with hgrowing hsize
    · exact ⟨tm, l, hrep, rfl, hgrow⟩
    · exact ⟨tm, l, hrep, rfl, hgrow⟩
    · exact ⟨tm, l, hrep.setFlags _ _, rfl, fun _ => level_of_size hrep.level hsize⟩
  | growFinish table _ hfilled hgrowing ih =>
    obtain ⟨tm, l, hrep, rfl, hgrow⟩ := ih
    have hlevel := hgrow hgrowing
    unfold IpcSpace.growFinish
    dsimp only
    split_ifs with htable hactive
    · exact ⟨tm, l, hrep.setFlags _ _, rfl, fun hg => by cases hg⟩
    · exact ⟨tm, l, hrep.setFlags _ _, rfl, fun hg => by cases hg⟩
    · obtain ⟨tm', l', hrep', hcont'⟩ := (hrep.setFlags _ false).grow hlevel hfilled
      refine ⟨tm', l', hrep', hcont', fun hg => ?_⟩
      rw [grow_isGrowing] at hg
      cases hg
  | destroy _ ih =>
    obtain ⟨tm, l, hrep, hcont, hgrow⟩ := ih
    exact ⟨tm, l, hrep.setFlags _ _, hcont, hgrow⟩

end IpcSpace

/-! ## The space as a finite map -/

namespace IpcSpace
variable [TableSizes] {s s' : IpcSpace} {m tm : MachPort → Option Capability} {l : List ℕ}
  {n : MachPort}

/-- A lookup finds the entry that the space should have for the name, and no other. -/
def Agrees (s : IpcSpace) (m : MachPort → Option Capability) (n : MachPort) : Prop :=
  match m n with
  | none => (s.lookup n).1 = none
  | some c => (s.lookup n).1 = some (s.entryRef n) ∧ (s.lookup n).2.entry (s.entryRef n) = some c

theorem Rep.lookup_headName (h : s.Rep tm l) : (s.lookup headName).1 = none := by
  have hidx : headName.index = 0 := MachPort.index_make (Nat.zero_le _)
  have hgen : headName.gen = 255 := MachPort.gen_make (Nat.zero_le _)
  unfold IpcSpace.lookup
  dsimp only
  rw [hidx, hgen, if_pos h.tableSize_pos, if_neg (by rw [h.headGen]; simp), if_pos h.head]

theorem Rep.agrees (h : s.Rep tm l) (hfilled : Filled (s.contents tm l)) (hn : n ≠ headName) :
    s.Agrees (s.contents tm l) n := by
  unfold Agrees
  cases hc : s.contents tm l n with
  | none => exact h.lookup_none hc
  | some c =>
    obtain ⟨r, hlook, hr⟩ := h.lookup_some hc (hfilled n c hc) hn
    obtain rfl := h.eq_entryRef hr
    obtain ⟨tree, hs, htree⟩ := h.lookup_state n
    refine ⟨hlook, ?_⟩
    rw [hs]
    exact ((h.reshape htree).entry_eq hr).trans hc

theorem Allocated.lookup {r : EntryRef} {tm' : MachPort → Option Capability} {l' : List ℕ}
    (h : s.Allocated s' tm l n r tm' l') {c : Capability} (hc : c.type ≠ .none) :
    ((s'.write (fun _ => c) r).lookup n).1 = some r ↔ n ≠ headName := by
  obtain ⟨tm₂, hrep, hcont, href⟩ := h.rep.write h.ref fun _ => c
  have hname : (s'.write (fun _ => c) r).contents tm₂ l' n = some c := by
    rw [hcont, update_self, h.contents, update_self]
    rfl
  constructor
  · rintro hlook rfl
    rw [hrep.lookup_headName] at hlook
    cases hlook
  · intro hn
    obtain ⟨r', hlook, hr'⟩ := hrep.lookup_some hname hc hn
    rw [hlook, hr'.unique hrep.disjoint (href n r h.ref)]

/-- A dead name, as `mach_port_allocate_name` makes one. -/
def deadName : Capability := ⟨⟨false, false, false, false, true⟩, 1, false, false, none, 0⟩

/-- The names with entries in the tree. -/
def treeNames (s : IpcSpace) : List MachPort := s.tree.toList.map Prod.fst

omit [TableSizes] in
theorem Rep.mem_treeNames [TableSizes] (h : s.Rep tm l) (n : MachPort) :
    n ∈ s.treeNames ↔ tm n ≠ none :=
  mem_names_iff h.tree.get_eq n

theorem growFinish_grow (hactive : s.isActive = true) :
    s.growFinish true = { s with isGrowing := false }.grow := by
  unfold growFinish
  simp [hactive]

theorem grow_level : s.grow.level = s.level + 1 := by
  unfold IpcSpace.grow growEntries
  dsimp only
  split_ifs <;> rfl

/-- A table that has grown loses no name. A new slot is free when no name of the tree has its index;
else one such name has moved into it, with its entry, and the others are still in the tree. -/
theorem growFinish_moves (h : SpaceRun s m) (hfilled : Filled m) (hgrowing : s.isGrowing = true)
    (hactive : s.isActive = true) : let s' := s.growFinish true
    s'.tableSize = s.tableNext ∧ s.tableSize < s.tableNext ∧ (∀ n ≠ headName, s'.Agrees m n) ∧
    ∃ l, FreeList.Chain (fun i => (s'.table i).next) (s'.table 0).next l ∧
      ∀ i, s.tableSize ≤ i → i < s.tableNext →
        i ∈ l ∧ (∀ n : MachPort, n.index = i → n ∉ s.treeNames) ∨
        i ∉ l ∧ ∃ n : MachPort, n.index = i ∧ n ∈ s.treeNames ∧ n ∉ s'.treeNames ∧
          m n = some (s'.table i).cap ∧
          ∀ k : MachPort, k.index = i → k ≠ n → (k ∈ s'.treeNames ↔ k ∈ s.treeNames) := by
  intro s'
  obtain ⟨tm, l, hrep, rfl, hlevel⟩ := h.rep
  obtain ⟨tm', l', hrep', hcont, -⟩ := (h.growFinish true hfilled hgrowing).rep
  have hsize : s'.tableSize = s.tableNext := by
    change TableSizes.its (s.growFinish true).level = _
    rw [growFinish_grow hactive, grow_level]
    rfl
  refine ⟨hsize, TableSizes.increasing _ (hlevel hgrowing), fun n hn => ?_, l', hrep'.chain,
    fun i hlo hhi => ?_⟩
  · have hagrees := hrep'.agrees (hcont ▸ hfilled) hn
    rwa [hcont] at hagrees
  have hpos : 0 < i := hrep.tableSize_pos.trans_le hlo
  have hle : i ≤ 2 ^ 24 - 1 := le_of_lt (hhi.trans_le (tableNext_le hrep.level))
  -- before, a name of this index could only be in the tree
  have hold : ∀ k : MachPort, k.index = i → s.contents tm l k = tm k := fun k hk =>
    contents_of_not fun hin => by
      have := hin.2.1
      omega
  by_cases hmem : i ∈ l'
  · refine .inl ⟨hmem, fun n hn hin => ?_⟩
    have hnone : s'.contents tm' l' n = none := by
      rw [contents_of_not fun hc => hc.2.2.1 (hn ▸ hmem)]
      exact hrep'.free_none (hn.symm ▸ hmem)
    rw [hcont, hold n hn] at hnone
    exact (hrep.mem_treeNames n).mp hin hnone
  · let n := MachPort.make i (s'.table i).gen
    have hn : n.index = i := MachPort.index_make hle
    have hgen : n.gen = (s'.table i).gen := MachPort.gen_make hle
    have hin : s'.InTable l' n := ⟨hn.symm ▸ hpos, by omega, hn.symm ▸ hmem, by rw [hn, hgen]⟩
    have hcap : s.contents tm l n = some (s'.table i).cap := by
      rw [← hcont, contents_of_inTable hin, hn]
    refine .inr ⟨hmem, n, hn, (hrep.mem_treeNames n).mpr ?_, ?_, hcap, fun k hk hne => ?_⟩
    · rw [← hold n hn, hcap]
      simp
    · exact fun hin' => (hrep'.mem_treeNames n).mp hin' (hrep'.disjoint n hin)
    · have hout : ¬ s'.InTable l' k := fun hin' =>
        hne (MachPort.ext (hk.trans hn.symm) (by rw [← hin'.2.2.2, hk, hgen]))
      have htree : s'.contents tm' l' k = tm' k := contents_of_not hout
      rw [hrep'.mem_treeNames, hrep.mem_treeNames, ← htree, hcont, hold k hk]

omit [TableSizes] in
theorem growFinish_moves_first : ∃ s m, @SpaceRun tableInit s m ∧ s.isGrowing = true ∧
    m (1280 : Fin (2 ^ 32)) = some deadName ∧
    @Agrees tableInit (@growFinish tableInit s true) m (1280 : Fin (2 ^ 32)) := by
  have hrun := @SpaceRun.create tableInit 0 (by decide)
  have ha : @allocName tableInit (@create tableInit 0) (1280 : Fin (2 ^ 32)) true =
    some (.allocated (.tree (1280 : Fin (2 ^ 32))), _) := rfl
  have hw := @SpaceRun.write tableInit _ _ (1280 : Fin (2 ^ 32)) (fun _ => deadName)
    (@SpaceRun.allocName tableInit _ _ _ _ _ true hrun (by simp [Filled]) (by decide) (by decide) ha)
    (by simp)
  rw [update_idem] at hw
  have hfilled : Filled (update (fun _ => none) (1280 : Fin (2 ^ 32)) (some deadName)) := by
    intro n c hc
    rcases eq_or_ne n (1280 : Fin (2 ^ 32)) with rfl | hne
    · rw [update_self] at hc
      cases hc
      decide
    · rw [update_of_ne hne] at hc
      cases hc
  have hstart := @SpaceRun.growStart tableInit _ _ hw hfilled
  exact ⟨_, _, hstart, rfl, rfl,
    (@growFinish_moves tableInit _ _ hstart hfilled rfl rfl).2.2.1 _ (by decide)⟩

end IpcSpace

end MachKernel.Ipc
