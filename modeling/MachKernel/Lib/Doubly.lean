import Mathlib.Data.List.Chain
import Mathlib.Data.List.Nodup
import Mathlib.Tactic

/-! Doubly linked lists that end where they begin, at a header. -/

namespace MachKernel.Doubly
open Function List

variable {α : Type*} {next prev f g : α → α} {h a b c x : α} {l r pre post : List α}

/-- From each node to the next there is a link, and one back. -/
def Links (next prev : α → α) (l : List α) : Prop := l.IsChain fun a b => next a = b ∧ prev b = a

/-- The nodes behind a header, in their order. -/
structure Linked (next prev : α → α) (h : α) (l : List α) : Prop where
  nodup : (h :: l).Nodup
  links : Links next prev (h :: (l ++ [h]))

theorem Links.congr (hl : Links next prev l) (hnext : ∀ c ∈ l.dropLast, f c = next c)
    (hprev : ∀ c ∈ l.tail, g c = prev c) : Links f g l := by
  unfold Links at hl ⊢
  rw [isChain_iff_forall_rel_of_append_cons_cons] at hl ⊢
  intro c d l₁ l₂ heq
  have hc : c ∈ l.dropLast := by
    rw [heq, dropLast_append_of_ne_nil (cons_ne_nil _ _), dropLast_cons_cons]
    exact mem_append_right _ mem_cons_self
  have hd : d ∈ l.tail := by
    rw [heq]
    cases l₁ <;> simp
  rw [hnext c hc, hprev d hd]
  exact hl heq

theorem links_append_cons_cons : Links next prev (l ++ a :: b :: r) ↔
    Links next prev (l ++ [a]) ∧ (next a = b ∧ prev b = a) ∧ Links next prev (b :: r) :=
  isChain_append_cons_cons

theorem exists_ends (h : α) (pre post : List α) :
    ∃ l a b r, h :: pre = l ++ [a] ∧ post ++ [h] = b :: r := by
  obtain ⟨l, a, hl⟩ := (eq_nil_or_concat' (h :: pre)).resolve_left (cons_ne_nil _ _)
  obtain ⟨b, r, hr⟩ := exists_cons_of_ne_nil (append_ne_nil_of_right_ne_nil post
    (cons_ne_nil h []))
  exact ⟨l, a, b, r, hl, hr⟩

theorem head_ends (hr : post ++ [h] = b :: r) : b = post.head?.getD h := by
  cases post with
  | nil => exact (List.cons.inj hr).1.symm
  | cons c post => exact (List.cons.inj hr).1.symm

theorem Linked.next_header (hl : Linked next prev h l) : next h = l.head?.getD h := by
  obtain ⟨b, r, hr⟩ : ∃ b r, l ++ [h] = b :: r :=
    exists_cons_of_ne_nil (append_ne_nil_of_right_ne_nil l (cons_ne_nil h []))
  have hlinks := hl.links
  rw [hr] at hlinks
  rw [← head_ends hr]
  exact (isChain_cons_cons.1 hlinks).1.1

theorem Linked.links_at (hl : Linked next prev h (pre ++ post)) :
    next (pre.getLast?.getD h) = post.head?.getD h ∧ prev (post.head?.getD h) =
      pre.getLast?.getD h := by
  obtain ⟨l, a, b, r, hpre, hpost⟩ := exists_ends h pre post
  obtain rfl : b = post.head?.getD h := head_ends hpost
  obtain rfl : a = pre.getLast?.getD h := by
    have hlast := congrArg List.getLast? hpre
    rw [getLast?_concat, getLast?_cons] at hlast
    exact (Option.some.inj hlast).symm
  have hlinks := hl.links
  rw [append_assoc, ← cons_append, hpre, hpost, append_assoc, singleton_append,
    links_append_cons_cons] at hlinks
  exact hlinks.2.1

theorem Linked.congr (hl : Linked next prev h l) (hnext : ∀ c ∈ h :: l, f c = next c)
    (hprev : ∀ c ∈ h :: l, g c = prev c) : Linked f g h l := by
  refine ⟨hl.nodup, hl.links.congr (fun c hc => hnext c ?_) fun c hc => hprev c ?_⟩
  · rwa [← cons_append, dropLast_concat] at hc
  · rw [tail_cons, mem_append, mem_singleton] at hc
    exact mem_cons.2 hc.symm

theorem Linked.prev_head (hl : Linked next prev h (c :: l)) : prev c = h :=
  (isChain_cons_cons.1 hl.links).1.2

theorem Linked.prev_mem (hl : Linked next prev h l) (hc : c ∈ h :: l) : prev c ∈ h :: l := by
  obtain ⟨pre, post, heq⟩ := append_of_mem (show c ∈ l ++ [h] by
    rcases mem_cons.1 hc with rfl | hc
    · exact mem_append_right l mem_cons_self
    · exact mem_append_left [h] hc)
  obtain ⟨m, a, hm⟩ := (eq_nil_or_concat' (h :: pre)).resolve_left (cons_ne_nil _ _)
  have hlinks := hl.links
  rw [heq, ← cons_append, hm, append_assoc, singleton_append, links_append_cons_cons] at hlinks
  rw [hlinks.2.1.2]
  have ha : a ∈ h :: pre := hm ▸ mem_append_right m mem_cons_self
  rcases mem_cons.1 ha with rfl | ha
  · exact mem_cons_self
  · have hmem : a ∈ l ++ [h] := heq ▸ mem_append_left (c :: post) ha
    rcases mem_append.1 hmem with hmem | hmem
    · exact .tail h hmem
    · exact mem_singleton.1 hmem ▸ mem_cons_self

theorem Linked.next_mem (hl : Linked next prev h l) (hc : c ∈ h :: l) : next c ∈ h :: l := by
  obtain ⟨pre, post, heq⟩ := append_of_mem hc
  obtain ⟨b, r, hr⟩ : ∃ b r, post ++ [h] = b :: r :=
    exists_cons_of_ne_nil (append_ne_nil_of_right_ne_nil post (cons_ne_nil h []))
  have hlinks := hl.links
  rw [← cons_append, heq, append_assoc, cons_append, hr, links_append_cons_cons] at hlinks
  rw [hlinks.2.1.1, head_ends hr]
  cases post with
  | nil => exact mem_cons_self
  | cons d post => exact heq ▸ mem_append_right pre (.tail c mem_cons_self)

/-- The nodes that one comes to from a node, up to the header. -/
def walk [DecidableEq α] (next : α → α) (h : α) : ℕ → α → List α
  | 0, _ => []
  | n + 1, c => if c = h then [] else c :: walk next h n (next c)

theorem walk_links [DecidableEq α] {n : ℕ} (hlinks : Links next prev (a :: (l ++ [h])))
    (hh : h ∉ l) (hn : l.length ≤ n) : walk next h n (next a) = l := by
  induction l generalizing a n with
  | nil =>
    have hnext : next a = h := (isChain_cons_cons.1 hlinks).1.1
    cases n with
    | zero => rfl
    | succ n => rw [hnext, walk, if_pos rfl]
  | cons c l ih =>
    obtain ⟨⟨hnext, -⟩, hrest⟩ := isChain_cons_cons.1 hlinks
    rw [mem_cons, not_or] at hh
    cases n with
    | zero => exact absurd hn (by simp)
    | succ n =>
      rw [hnext, walk, if_neg (Ne.symm hh.1), ih hrest hh.2 (Nat.le_of_succ_le_succ hn)]

theorem Linked.walk [DecidableEq α] (hl : Linked next prev h l) {n : ℕ} (hn : l.length ≤ n) :
    walk next h n (next h) = l :=
  walk_links hl.links (nodup_cons.1 hl.nodup).1 hn

theorem ends_congr (hnodup : (h :: (pre ++ post)).Nodup) (hpre : h :: pre = l ++ [a])
    (hpost : post ++ [h] = b :: r) (hl : Links next prev (l ++ [a])) (hr : Links next prev (b :: r))
    (hnext : ∀ c ∈ h :: (pre ++ post), c ≠ a → f c = next c)
    (hprev : ∀ c ∈ h :: (pre ++ post), c ≠ b → g c = prev c) :
    Links f g (l ++ [a]) ∧ Links f g (b :: r) := by
  obtain ⟨hh, hnodup⟩ := nodup_cons.1 hnodup
  obtain ⟨hpre', hpost', hdisj⟩ := nodup_append.1 hnodup
  have ha : a ∈ h :: pre := hpre ▸ mem_append_right l mem_cons_self
  have hb : b ∈ post ++ [h] := hpost ▸ mem_cons_self
  have hleft : (l ++ [a]).Nodup :=
    hpre ▸ nodup_cons.2 ⟨fun hmem => hh (mem_append_left post hmem), hpre'⟩
  have hright : (b :: r).Nodup := by
    rw [← hpost, ← concat_eq_append]
    exact hpost'.concat fun hmem => hh (mem_append_right pre hmem)
  constructor
  · refine hl.congr (fun c hc => ?_) fun c hc => ?_
    · rw [dropLast_concat] at hc
      have hca : c ≠ a := (nodup_append.1 hleft).2.2 c hc a mem_cons_self
      have hmem : c ∈ h :: pre := hpre ▸ mem_append_left [a] hc
      exact hnext c (mem_append_left post hmem) hca
    · rw [← hpre, tail_cons] at hc
      refine hprev c (.tail h (mem_append_left post hc)) ?_
      rintro rfl
      rcases mem_append.1 hb with hb | hb
      · exact hdisj c hc c hb rfl
      · exact hh (mem_append_left post (mem_singleton.1 hb ▸ hc))
  · refine hr.congr (fun c hc => ?_) fun c hc => ?_
    · rw [← hpost, dropLast_concat] at hc
      refine hnext c (.tail h (mem_append_right pre hc)) ?_
      rintro rfl
      rcases mem_cons.1 ha with rfl | ha
      · exact hh (mem_append_right pre hc)
      · exact hdisj c ha c hc rfl
    · have hcb : c ≠ b := fun heq => (nodup_cons.1 hright).1 (heq ▸ hc)
      have hmem : c ∈ post ++ [h] := hpost ▸ mem_cons_of_mem b hc
      refine hprev c ?_ hcb
      rcases mem_append.1 hmem with hmem | hmem
      · exact .tail h (mem_append_right pre hmem)
      · exact mem_singleton.1 hmem ▸ mem_cons_self

theorem append_ends (hpre : h :: pre = l ++ [a]) (hpost : post ++ [h] = b :: r) (m : List α) :
    h :: (pre ++ m ++ post ++ [h]) = l ++ a :: (m ++ b :: r) := by
  rw [append_assoc, append_assoc, hpost, ← cons_append, hpre, append_assoc, singleton_append]

section Change
variable [DecidableEq α]

theorem Linked.insert (hl : Linked next prev h (pre ++ post)) (hb : post.head?.getD h = b)
    (hx : x ∉ h :: (pre ++ post)) : Linked (update (update next x b) (prev b) x)
      (update (update prev x (prev b)) b x) h (pre ++ x :: post) := by
  obtain ⟨l, a, b', r, hpre, hpost⟩ := exists_ends h pre post
  obtain rfl : b' = b := (head_ends hpost).trans hb
  have hlinks := hl.links
  rw [← append_nil pre, append_ends hpre hpost [], nil_append, links_append_cons_cons] at hlinks
  obtain ⟨hleft, ⟨-, hprev⟩, hright⟩ := hlinks
  have hxa : x ≠ a := by
    rintro rfl
    exact hx (mem_append_left post (hpre ▸ mem_append_right l mem_cons_self : x ∈ h :: pre))
  have hxb : x ≠ b' := by
    rintro rfl
    have hmem : x ∈ post ++ [h] := hpost ▸ mem_cons_self
    rcases mem_append.1 hmem with hmem | hmem
    · exact hx (.tail h (mem_append_right pre hmem))
    · exact hx (mem_singleton.1 hmem ▸ mem_cons_self)
  have hne : ∀ c ∈ h :: (pre ++ post), c ≠ x := fun c hc heq => hx (heq ▸ hc)
  rw [hprev]
  obtain ⟨hleft', hright'⟩ := ends_congr hl.nodup hpre hpost hleft hright
    (f := update (update next x b') a x)
    (g := update (update prev x a) b' x)
    (fun c hc hca => by rw [update_of_ne hca, update_of_ne (hne c hc)])
    fun c hc hcb => by rw [update_of_ne hcb, update_of_ne (hne c hc)]
  constructor
  · rw [← cons_append]
    exact nodup_middle.2 (nodup_cons.2 ⟨hx, hl.nodup⟩)
  · rw [append_cons pre x post, append_ends hpre hpost [x], singleton_append,
      links_append_cons_cons]
    refine ⟨hleft', ⟨update_self .., ?_⟩, isChain_cons_cons.2 ⟨⟨?_, ?_⟩, hright'⟩⟩
    · rw [update_of_ne hxb, update_self]
    · rw [update_of_ne hxa, update_self]
    · rw [update_self]

theorem Linked.remove (hl : Linked next prev h (pre ++ x :: post)) :
    Linked (update next (prev x) (next x)) (update prev (next x) (prev x)) h (pre ++ post) := by
  obtain ⟨l, a, b, r, hpre, hpost⟩ := exists_ends h pre post
  have hlinks := hl.links
  rw [append_cons pre x post, append_ends hpre hpost [x], singleton_append,
    links_append_cons_cons] at hlinks
  obtain ⟨hleft, ⟨-, hprev⟩, hright⟩ := hlinks
  obtain ⟨⟨hnext, -⟩, hright⟩ := isChain_cons_cons.1 hright
  have hnodup : (h :: (pre ++ post)).Nodup := by
    have h' := hl.nodup
    rw [← cons_append] at h'
    exact (nodup_cons.1 (nodup_middle.1 h')).2
  rw [hprev, hnext]
  obtain ⟨hleft', hright'⟩ := ends_congr hnodup hpre hpost hleft hright
    (f := update next a b) (g := update prev b a)
    (fun c _ hca => update_of_ne hca ..) fun c _ hcb => update_of_ne hcb ..
  refine ⟨hnodup, ?_⟩
  rw [← append_nil pre, append_ends hpre hpost [], nil_append, links_append_cons_cons]
  exact ⟨hleft', ⟨update_self .., update_self ..⟩, hright'⟩

end Change

end MachKernel.Doubly
