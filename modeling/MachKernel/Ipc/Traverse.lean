import MachKernel.Ipc.Splay

/-! Traversals of a splay tree with deletion, and writes to its entries (`ipc/ipc_splay.c`). -/

namespace MachKernel.Ipc
open Assoc List

variable {κ β σ : Type*}

namespace TreeEntry

section
variable [LinearOrder κ] [BoundedOrder κ]

/-- `ipc_splay_traverse_start` and `ipc_splay_traverse_next`: the left subtree, the entry, the
right subtree, back to the parent. The visit says whether the entry is deleted. -/
def traverse (visit : σ → κ → β → Bool × σ) : TreeEntry κ β → σ → TreeEntry κ β × σ
  | null, s => (null, s)
  | node l n e r, s =>
    let (l, s) := l.traverse visit s
    let (delete, s) := visit s n e
    let (r', s) := r.traverse visit s
    if delete = true then
      if l.isNull then (r', s)
      -- the test of the source is made before the right subtree is visited
      else if r.isNull then (l, s)
      else ((Walk.primLookup ⊤ ⟨l, [], []⟩).assemble.setRchild r', s)
    else (node l n e r', s)

end

/-- A write to the entry with the name. -/
def modify [DecidableEq κ] (name : κ) (f : β → β) : TreeEntry κ β → TreeEntry κ β
  | null => null
  | node l n e r => node (l.modify name f) n (if n = name then f e else e) (r.modify name f)

end TreeEntry

namespace SplayTree

/-- A traversal from start to finish. -/
def traverse [LinearOrder κ] [BoundedOrder κ] (visit : σ → κ → β → Bool × σ) (t : SplayTree κ β)
    (s : σ) : SplayTree κ β × σ :=
  match t.root with
  | .null => (t, s)
  | .node .. =>
    let (root, s) := t.walk.assemble.traverse visit s
    (ofRoot t.name root, s)

/-- A write through a pointer to the entry with the name. -/
def modify [DecidableEq κ] (t : SplayTree κ β) (name : κ) (f : β → β) : SplayTree κ β where
  name := t.name
  root := t.root.modify name f
  left := t.left.map fun p =>
    ⟨p.lchild.modify name f, p.name, if p.name = name then f p.entry else p.entry⟩
  right := t.right.map fun p =>
    ⟨p.name, if p.name = name then f p.entry else p.entry, p.rchild.modify name f⟩

end SplayTree

/-! ## The traversal -/

/-- What a traversal keeps of a list, and its final state. -/
def visitList (visit : σ → κ → β → Bool × σ) : List (κ × β) → σ → List (κ × β) × σ
  | [], s => ([], s)
  | p :: ps, s =>
    let (delete, s) := visit s p.1 p.2
    let (kept, s) := visitList visit ps s
    (if delete = true then kept else p :: kept, s)

theorem visitList_append (visit : σ → κ → β → Bool × σ) (l l' : List (κ × β)) (s : σ) :
    visitList visit (l ++ l') s =
      ((visitList visit l s).1 ++ (visitList visit l' (visitList visit l s).2).1,
        (visitList visit l' (visitList visit l s).2).2) := by
  induction l generalizing s with
  | nil => rfl
  | cons p ps ih =>
    simp only [cons_append, visitList, ih]
    split_ifs <;> rfl

theorem visitList_sublist (visit : σ → κ → β → Bool × σ) (l : List (κ × β)) (s : σ) :
    (visitList visit l s).1.Sublist l := by
  induction l generalizing s with
  | nil => exact .slnil
  | cons p ps ih =>
    simp only [visitList]
    split_ifs
    · exact (ih _).cons _
    · exact (ih _).cons_cons _

theorem TreeEntry.isNull_iff {t : TreeEntry κ β} : t.isNull = true ↔ t.toList = [] := by
  refine ⟨TreeEntry.toList_of_isNull, fun h => ?_⟩
  rw [TreeEntry.eq_null_of_toList h]
  rfl

section
variable [LinearOrder κ] [BoundedOrder κ]

theorem TreeEntry.toList_traverse (visit : σ → κ → β → Bool × σ) {t : TreeEntry κ β}
    (h : Increasing t.toList) (s : σ) :
    ((t.traverse visit s).1.toList, (t.traverse visit s).2) = visitList visit t.toList s := by
  induction t generalizing s with
  | null => rfl
  | node l n e r ihl ihr =>
    obtain ⟨hl, hr, hln, hnr⟩ := increasing_middle.mp h
    have hvl := ihl hl s
    have hvr := ihr hr (visit (l.traverse visit s).2 n e).2
    have hlist : (l.traverse visit s).1.toList = (visitList visit l.toList s).1 :=
      congrArg Prod.fst hvl
    have hstate : (l.traverse visit s).2 = (visitList visit l.toList s).2 := congrArg Prod.snd hvl
    have hinc : Increasing (l.traverse visit s).1.toList := by
      rw [hlist]
      exact List.Pairwise.sublist (visitList_sublist visit _ s) hl
    simp only [TreeEntry.traverse, TreeEntry.toList]
    rw [visitList_append]
    simp only [visitList, ← hlist, ← hstate, ← hvr]
    split_ifs with hdel hnull hnull'
    · rw [TreeEntry.toList_of_isNull hnull]
      rfl
    · have hnil := TreeEntry.isNull_iff.mp hnull'
      rw [hnil] at hvr
      have hr' := congrArg Prod.fst hvr
      have hs' := congrArg Prod.snd hvr
      simp only [visitList] at hr' hs'
      rw [hr', append_nil]
    · obtain ⟨hmax, hmaxList⟩ := primLookup_assembled (⊤ : κ) hinc (by simpa using hnull)
      rw [SplayTree.toList_setRchild hmax, hmaxList]
    · rfl

theorem SplayTree.Ok.traverse {t : SplayTree κ β} (h : t.Ok) (visit : σ → κ → β → Bool × σ) (s : σ) :
    (t.traverse visit s).1.Ok ∧ (t.traverse visit s).1.toList = (visitList visit t.toList s).1 ∧
      (t.traverse visit s).2 = (visitList visit t.toList s).2 := by
  unfold SplayTree.traverse
  cases hroot : t.root with
  | null =>
    rw [toList_of_null (by rw [hroot]; rfl)]
    exact ⟨h, rfl, rfl⟩
  | node =>
    have hn : t.root.isNull = false := by rw [hroot]; rfl
    have hlist : t.walk.assemble.toList = t.toList := by
      rw [toList_of_not_null hn]
      exact toList_assemble hn
    have hv := TreeEntry.toList_traverse visit (t := t.walk.assemble) (hlist ▸ h.increasing) s
    rw [hlist] at hv
    have hkept : (t.walk.assemble.traverse visit s).1.toList = (visitList visit t.toList s).1 :=
      congrArg Prod.fst hv
    refine ⟨ofRoot_ok _ _ ?_, (toList_ofRoot _ _).trans hkept, congrArg Prod.snd hv⟩
    rw [hkept]
    exact List.Pairwise.sublist (visitList_sublist visit _ s) h.increasing

end

/-! ## Writes to an entry -/

/-- The list with the entry of one name changed. -/
def modifyList [DecidableEq κ] (name : κ) (f : β → β) (l : List (κ × β)) : List (κ × β) :=
  l.map fun p => (p.1, if p.1 = name then f p.2 else p.2)

section
variable [DecidableEq κ] (name : κ) (f : β → β)

@[simp] theorem TreeEntry.toList_modify (t : TreeEntry κ β) :
    (t.modify name f).toList = modifyList name f t.toList := by
  induction t with
  | null => rfl
  | node l n e r ihl ihr => simp [TreeEntry.modify, TreeEntry.toList, ihl, ihr, modifyList]

@[simp] theorem TreeEntry.isNull_modify (t : TreeEntry κ β) :
    (t.modify name f).isNull = t.isNull := by cases t <;> rfl

theorem leftList_modify (t : SplayTree κ β) :
    leftList (t.modify name f).left = modifyList name f (leftList t.left) := by
  simp only [SplayTree.modify]
  induction t.left with
  | nil => rfl
  | cons p ps ih =>
    simp only [map_cons, leftList, ih]
    simp [modifyList]

theorem rightList_modify (t : SplayTree κ β) :
    rightList (t.modify name f).right = modifyList name f (rightList t.right) := by
  simp only [SplayTree.modify]
  induction t.right with
  | nil => rfl
  | cons p ps ih =>
    simp only [map_cons, rightList, ih]
    simp [modifyList]

theorem SplayTree.toList_modify (t : SplayTree κ β) :
    (t.modify name f).toList = modifyList name f t.toList := by
  have hroot : (t.modify name f).walk.tree = t.root.modify name f := rfl
  simp only [SplayTree.toList, Walk.toList]
  have hnull : (t.modify name f).root.isNull = t.root.isNull := TreeEntry.isNull_modify name f _
  rw [hnull, hroot, show (t.modify name f).walk.left = (t.modify name f).left from rfl,
    show (t.modify name f).walk.right = (t.modify name f).right from rfl, leftList_modify,
    rightList_modify, TreeEntry.toList_modify]
  split_ifs
  · rfl
  · simp [modifyList, SplayTree.walk]

@[simp] theorem TreeEntry.modify_id (t : TreeEntry κ β) : t.modify name id = t := by
  induction t with
  | null => rfl
  | node l n e r ihl ihr => simp [TreeEntry.modify, ihl, ihr]

@[simp] theorem SplayTree.modify_id (t : SplayTree κ β) : t.modify name id = t := by
  simp [SplayTree.modify]

variable {name f} {g : β → β}

theorem TreeEntry.modify_modify (t : TreeEntry κ β) :
    (t.modify name f).modify name g = t.modify name (g ∘ f) := by
  induction t with
  | null => rfl
  | node l n e r ihl ihr =>
    simp only [TreeEntry.modify, ihl, ihr]
    split_ifs <;> rfl

theorem SplayTree.modify_modify (t : SplayTree κ β) :
    (t.modify name f).modify name g = t.modify name (g ∘ f) := by
  simp only [SplayTree.modify, map_map, TreeEntry.modify_modify, SplayTree.mk.injEq, true_and]
  refine ⟨map_congr_left fun p _ => ?_, map_congr_left fun p _ => ?_⟩
  all_goals
    simp only [Function.comp_apply, TreeEntry.modify_modify]
    split_ifs <;> rfl

theorem TreeEntry.modify_congr {t : TreeEntry κ β}
    (h : ∀ e, (name, e) ∈ t.toList → f e = g e) : t.modify name f = t.modify name g := by
  induction t with
  | null => rfl
  | node l n e r ihl ihr =>
    rw [TreeEntry.modify, TreeEntry.modify, ihl fun e hm => h e (by simp [TreeEntry.toList, hm]),
      ihr fun e hm => h e (by simp [TreeEntry.toList, hm])]
    split_ifs with hn
    · rw [h e (by simp [TreeEntry.toList, hn])]
    · rfl

omit [DecidableEq κ] in
theorem mem_leftList {l : List (LeftEntry κ β)} {p : LeftEntry κ β} {q : κ × β} (hp : p ∈ l)
    (hq : q ∈ p.lchild.toList ++ [(p.name, p.entry)]) : q ∈ leftList l := by
  induction l with
  | nil => cases hp
  | cons p' ps ih =>
    rcases mem_cons.mp hp with rfl | hp
    · exact mem_append_right _ hq
    · exact mem_append_left _ (ih hp)

omit [DecidableEq κ] in
theorem mem_rightList {l : List (RightEntry κ β)} {p : RightEntry κ β} {q : κ × β} (hp : p ∈ l)
    (hq : q ∈ (p.name, p.entry) :: p.rchild.toList) : q ∈ rightList l := by
  induction l with
  | nil => cases hp
  | cons p' ps ih =>
    rw [rightList, ← cons_append]
    rcases mem_cons.mp hp with rfl | hp
    · exact mem_append_left _ hq
    · exact mem_append_right _ (ih hp)

theorem SplayTree.modify_congr {t : SplayTree κ β} (hn : t.root.isNull = false)
    (h : ∀ e, (name, e) ∈ t.toList → f e = g e) : t.modify name f = t.modify name g := by
  have hlist : t.toList = leftList t.left ++ (t.root.toList ++ rightList t.right) := by
    simp [SplayTree.toList, hn, Walk.toList, SplayTree.walk]
  have hleft : ∀ p ∈ t.left, ∀ q ∈ p.lchild.toList ++ [(p.name, p.entry)], q ∈ t.toList := by
    intro p hp q hq
    rw [hlist]
    exact mem_append_left _ (mem_leftList hp hq)
  have hright : ∀ p ∈ t.right, ∀ q ∈ (p.name, p.entry) :: p.rchild.toList, q ∈ t.toList := by
    intro p hp q hq
    rw [hlist]
    exact mem_append_right _ (mem_append_right _ (mem_rightList hp hq))
  have hroot : ∀ e, (name, e) ∈ t.root.toList → f e = g e := fun e he =>
    h e (by rw [hlist]; simp [he])
  simp only [SplayTree.modify, SplayTree.mk.injEq, true_and]
  refine ⟨TreeEntry.modify_congr hroot, map_congr_left fun p hp => ?_,
    map_congr_left fun p hp => ?_⟩
  · rw [TreeEntry.modify_congr fun e he => h e (hleft p hp _ (by simp [he]))]
    split_ifs with hname
    · rw [h p.entry (hleft p hp _ (by simp [hname]))]
    · rfl
  · rw [TreeEntry.modify_congr fun e he => h e (hright p hp _ (by simp [he]))]
    split_ifs with hname
    · rw [h p.entry (hright p hp _ (by simp [hname]))]
    · rfl

end

section
variable [LinearOrder κ] {t : SplayTree κ β} {name k : κ} {f : β → β}

theorem increasing_modifyList {l : List (κ × β)} (h : Increasing l) :
    Increasing (modifyList name f l) := by
  unfold Increasing modifyList
  rw [pairwise_map]
  exact h

theorem get_modifyList (l : List (κ × β)) :
    get (modifyList name f l) k = (get l k).map fun v => if k = name then f v else v := by
  induction l with
  | nil => rfl
  | cons p ps ih =>
    have hcons : modifyList name f (p :: ps) =
        (p.1, if p.1 = name then f p.2 else p.2) :: modifyList name f ps := rfl
    rw [hcons, get_cons, get_cons, ih]
    by_cases hk : p.1 = k
    · subst hk
      simp
    · simp [hk]

theorem SplayTree.Ok.modify (h : t.Ok) (name : κ) (f : β → β) : (t.modify name f).Ok := by
  refine ⟨fun hn => ?_⟩
  have hn' : t.root.isNull = false := (TreeEntry.isNull_modify name f t.root) ▸ hn
  have hset := h.settled hn'
  obtain ⟨l, n, e, r, htree, hcase⟩ := hset.root
  have hroot : t.root = .node l n e r := htree
  refine ⟨⟨?_, ?_, ?_⟩, l.modify name f, n, if n = name then f e else e, r.modify name f, ?_, ?_⟩
  · rw [← toList_of_not_null hn, SplayTree.toList_modify]
    exact increasing_modifyList h.increasing
  · intro p hp
    rw [show (t.modify name f).walk.left = (t.modify name f).left from rfl, leftList_modify] at hp
    obtain ⟨q, hq, rfl⟩ := mem_map.mp hp
    exact hset.left q hq
  · intro p hp
    rw [show (t.modify name f).walk.right = (t.modify name f).right from rfl, rightList_modify] at hp
    obtain ⟨q, hq, rfl⟩ := mem_map.mp hp
    exact hset.right q hq
  · change t.root.modify name f = _
    rw [hroot]
    rfl
  · rcases hcase with h | ⟨h, rfl⟩ | ⟨h, rfl⟩
    · exact .inl h
    · exact .inr (.inl ⟨h, rfl⟩)
    · exact .inr (.inr ⟨h, rfl⟩)

end

end MachKernel.Ipc
