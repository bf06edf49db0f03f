import Mathlib.Data.List.Nodup
import Mathlib.Tactic

/-! Linked lists of named nodes: a place in the list is the name of a node, or `none` for the
header. -/

namespace MachKernel.Linked
open List

variable {α : Type*} (name : α → ℕ)

/-- The nodes after a place. -/
def after : Option ℕ → List α → List α
  | none, l => l
  | some i, l => (l.dropWhile fun a => name a ≠ i).tail

/-- Linking a node in after a place. -/
def insertAfter (place : Option ℕ) (x : α) (l : List α) : List α :=
  match place with
  | none => x :: l
  | some i => l.flatMap fun a => if name a = i then [a, x] else [a]

/-- Changing the node at a place. -/
def update (i : ℕ) (f : α → α) (l : List α) : List α :=
  l.map fun a => if name a = i then f a else a

/-- Putting a list of nodes in the place of a node. -/
def replace (i : ℕ) (f : α → List α) (l : List α) : List α :=
  l.flatMap fun a => if name a = i then f a else [a]

/-- The place of the last node. -/
def last (l : List α) : Option ℕ := l.getLast?.map name

def Distinct (l : List α) : Prop := (l.map name).Nodup

variable {name} {l pre post : List α} {a : α} {i : ℕ}

theorem Distinct.ne_of_split (h : Distinct name (pre ++ a :: post)) :
    (∀ b ∈ pre, name b ≠ name a) ∧ ∀ b ∈ post, name b ≠ name a := by
  unfold Distinct at h
  rw [map_append, map_cons, nodup_append] at h
  obtain ⟨-, hpost, hdisj⟩ := h
  constructor
  · intro b hb
    exact hdisj _ (mem_map_of_mem hb) _ mem_cons_self
  · intro b hb heq
    exact (nodup_cons.mp hpost).1 (heq ▸ mem_map_of_mem hb)

theorem Distinct.eq_of_name (h : Distinct name l) {b : α} (ha : a ∈ l) (hb : b ∈ l)
    (heq : name a = name b) : a = b := inj_on_of_nodup_map h ha hb heq

theorem Distinct.insert (h : Distinct name (pre ++ post)) {x : α}
    (hx : name x ∉ (pre ++ post).map name) : Distinct name (pre ++ x :: post) := by
  unfold Distinct at h ⊢
  rw [map_append] at h hx
  rw [map_append, map_cons]
  exact nodup_middle.mpr (nodup_cons.mpr ⟨hx, h⟩)

theorem Distinct.find (h : Distinct name l) (ha : a ∈ l) :
    l.find? (fun b => name b = name a) = some a := by
  cases hf : l.find? fun b => name b = name a with
  | none =>
    have := find?_eq_none.mp hf a ha
    simp at this
  | some b =>
    have hb := find?_some hf
    exact congrArg some (h.eq_of_name (mem_of_find?_eq_some hf) ha (by simpa using hb))

theorem after_split (h : Distinct name (pre ++ a :: post)) :
    after name (some (name a)) (pre ++ a :: post) = post := by
  obtain ⟨hpre, -⟩ := h.ne_of_split
  have hdrop : (pre ++ a :: post).dropWhile (fun b => name b ≠ name a) = a :: post := by
    rw [dropWhile_append_of_pos (by simpa using hpre)]
    simp
  rw [after, hdrop, tail_cons]

theorem mem_of_mem_after {place : Option ℕ} (h : a ∈ after name place l) : a ∈ l := by
  cases place with
  | none => exact h
  | some i => exact dropWhile_subset _ (mem_of_mem_tail h)

theorem replace_split (h : Distinct name (pre ++ a :: post)) (f : α → List α) :
    replace name (name a) f (pre ++ a :: post) = pre ++ f a ++ post := by
  obtain ⟨hpre, hpost⟩ := h.ne_of_split
  have hid : ∀ l : List α, (∀ b ∈ l, name b ≠ name a) →
      (l.flatMap fun b => if name b = name a then f b else [b]) = l := by
    intro l hl
    rw [flatMap_congr fun b hb => if_neg (hl b hb)]
    simp
  simp only [replace, flatMap_append, flatMap_cons, hid pre hpre, hid post hpost,
    if_true, append_assoc]

theorem filter_split (h : Distinct name (pre ++ a :: post)) :
    (pre ++ a :: post).filter (fun b => name b ≠ name a) = pre ++ post := by
  obtain ⟨hpre, hpost⟩ := h.ne_of_split
  have hid : ∀ l : List α, (∀ b ∈ l, name b ≠ name a) →
      l.filter (fun b => name b ≠ name a) = l := fun l hl =>
    filter_eq_self.mpr fun b hb => by simpa using hl b hb
  rw [filter_append, hid pre hpre, filter_cons_of_neg (by simp), hid post hpost]

theorem takeWhile_split (h : Distinct name (pre ++ a :: post)) :
    (pre ++ a :: post).takeWhile (fun b => name b ≠ name a) = pre := by
  rw [takeWhile_append_of_pos (by simpa using h.ne_of_split.1)]
  simp

theorem insertAfter_split (h : Distinct name (pre ++ a :: post)) (x : α) :
    insertAfter name (some (name a)) x (pre ++ a :: post) = pre ++ a :: x :: post := by
  have hrep : replace name (name a) (fun b => [b, x]) (pre ++ a :: post) =
      pre ++ [a, x] ++ post := replace_split h _
  rw [append_assoc] at hrep
  exact hrep

theorem update_split (h : Distinct name (pre ++ a :: post)) (f : α → α) :
    update name (name a) f (pre ++ a :: post) = pre ++ f a :: post := by
  have hrep : replace name (name a) (fun b => [f b]) (pre ++ a :: post) = pre ++ [f a] ++ post :=
    replace_split h _
  have hmap : update name (name a) f (pre ++ a :: post) =
      replace name (name a) (fun b => [f b]) (pre ++ a :: post) := by
    simp only [update, replace, map_eq_flatMap]
    apply flatMap_congr
    intro b _
    split_ifs <;> rfl
  rw [hmap, hrep, append_assoc, singleton_append]

theorem map_update {β : Type*} {f : α → α} {g : α → β} (hf : ∀ a, g (f a) = g a) (i : ℕ)
    (l : List α) : (update name i f l).map g = l.map g := by
  simp only [update, map_map]
  apply map_congr_left
  intro a _
  simp only [Function.comp]
  split_ifs
  · exact hf a
  · rfl

theorem find_update {f : α → α} (hf : ∀ a, name (f a) = name a) (i j : ℕ) (l : List α) :
    (update name i f l).find? (fun a => name a = j) =
      (l.find? fun a => name a = j).map fun a => if j = i then f a else a := by
  induction l with
  | nil => rfl
  | cons a l ih =>
    have hname : name (if name a = i then f a else a) = name a := by
      split_ifs
      · exact hf a
      · rfl
    rw [update, map_cons, find?_cons, find?_cons, hname]
    by_cases hj : name a = j
    · simp [hj]
    · simp only [hj, decide_false]
      exact ih

theorem after_last (h : Distinct name (pre ++ post)) :
    after name (last name pre) (pre ++ post) = post := by
  rcases eq_nil_or_concat' pre with rfl | ⟨init, a, rfl⟩
  · rfl
  · rw [append_assoc] at h ⊢
    rw [last, getLast?_concat, Option.map_some]
    exact after_split h

theorem insertAfter_last (h : Distinct name (pre ++ post)) (x : α) :
    insertAfter name (last name pre) x (pre ++ post) = pre ++ x :: post := by
  rcases eq_nil_or_concat' pre with rfl | ⟨init, a, rfl⟩
  · rfl
  · rw [append_assoc, singleton_append] at h
    rw [last, getLast?_concat, Option.map_some, append_assoc, singleton_append,
      insertAfter_split h, append_assoc, singleton_append]

theorem last_mem {i : ℕ} (h : last name l = some i) : i ∈ l.map name := by
  obtain ⟨a, ha, rfl⟩ := Option.map_eq_some_iff.mp h
  exact mem_map_of_mem (mem_of_getLast? ha)

theorem mem_split_of_name (h : i ∈ l.map name) : ∃ pre a post, l = pre ++ a :: post ∧
    name a = i := by
  obtain ⟨a, ha, rfl⟩ := mem_map.mp h
  obtain ⟨pre, post, rfl⟩ := append_of_mem ha
  exact ⟨pre, a, post, rfl, rfl⟩

theorem insertAfter_perm (h : Distinct name l) {place : Option ℕ}
    (hplace : ∀ i, place = some i → i ∈ l.map name) (x : α) :
    (insertAfter name place x l).Perm (x :: l) := by
  cases place with
  | none => exact List.Perm.refl _
  | some i =>
    obtain ⟨pre, a, post, rfl, rfl⟩ := mem_split_of_name (hplace i rfl)
    rw [insertAfter_split h, append_cons, append_cons pre a post]
    exact perm_middle

theorem foldr_insertAfter_perm {new : List α} (h : Distinct name (new ++ l)) {place : Option ℕ}
    (hplace : ∀ i, place = some i → i ∈ l.map name) :
    (new.foldr (insertAfter name place) l).Perm (new ++ l) := by
  induction new with
  | nil => exact List.Perm.refl _
  | cons x new ih =>
    have hrest : Distinct name (new ++ l) := (nodup_cons.mp h).2
    have hperm := ih hrest
    have hd : Distinct name (new.foldr (insertAfter name place) l) :=
      (hperm.map name).nodup_iff.mpr hrest
    have hmem : ∀ i, place = some i → i ∈ (new.foldr (insertAfter name place) l).map name := by
      intro i hi
      rw [(hperm.map name).mem_iff, map_append]
      exact mem_append_right _ (hplace i hi)
    exact (insertAfter_perm hd hmem x).trans (hperm.cons x)

end MachKernel.Linked
