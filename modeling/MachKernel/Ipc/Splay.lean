import MachKernel.Lib.Assoc
import Mathlib.Order.BoundedOrder.Basic

/-! Splay trees kept in unassembled form (`ipc/ipc_splay.c`). -/

namespace MachKernel.Ipc
open Assoc Function

/-- An entry with its children, or `ITE_NULL`. -/
inductive TreeEntry (κ β : Type*)
  | null
  | node (lchild : TreeEntry κ β) (name : κ) (entry : β) (rchild : TreeEntry κ β)

open TreeEntry

/-- An entry of the left tree on the way to the place that `ist_ltreep` points to. -/
structure LeftEntry (κ β : Type*) where
  lchild : TreeEntry κ β
  name : κ
  entry : β

/-- An entry of the right tree on the way to the place that `ist_rtreep` points to. -/
structure RightEntry (κ β : Type*) where
  name : κ
  entry : β
  rchild : TreeEntry κ β

/-- The middle tree, and the left and the right tree with an open place each; the entry with the
open place comes first. -/
structure Walk (κ β : Type*) where
  tree : TreeEntry κ β
  left : List (LeftEntry κ β)
  right : List (RightEntry κ β)

/-- `struct ipc_splay_tree`. When the root is null the other fields mean nothing. -/
structure SplayTree (κ β : Type*) where
  name : κ
  root : TreeEntry κ β
  left : List (LeftEntry κ β)
  right : List (RightEntry κ β)

variable {κ β : Type*}

namespace TreeEntry

def isNull : TreeEntry κ β → Bool
  | null => true
  | node .. => false

/-- The number of entries. -/
def size : TreeEntry κ β → ℕ
  | null => 0
  | node l _ _ r => l.size + r.size + 1

/-- The entries in order. -/
def toList : TreeEntry κ β → List (κ × β)
  | null => []
  | node l n e r => l.toList ++ (n, e) :: r.toList

/-- Writes to the `ite_rchild` of an entry. -/
def setRchild (t : TreeEntry κ β) (r : TreeEntry κ β) : TreeEntry κ β :=
  match t with
  | null => null
  | node l n e _ => node l n e r

/-- Writes to the `ite_lchild` of an entry. -/
def setLchild (t : TreeEntry κ β) (l : TreeEntry κ β) : TreeEntry κ β :=
  match t with
  | null => null
  | node _ n e r => node l n e r

end TreeEntry

/-- The left tree once `*ltreep` is set. -/
def closeLeft : List (LeftEntry κ β) → TreeEntry κ β → TreeEntry κ β
  | [], t => t
  | f :: fs, t => closeLeft fs (.node f.lchild f.name f.entry t)

/-- The right tree once `*rtreep` is set. -/
def closeRight : List (RightEntry κ β) → TreeEntry κ β → TreeEntry κ β
  | [], t => t
  | f :: fs, t => closeRight fs (.node t f.name f.entry f.rchild)

namespace Walk

def linkLeft (w : Walk κ β) : Walk κ β :=
  match w.tree with
  | .null => w
  | .node l n e r => ⟨r, ⟨l, n, e⟩ :: w.left, w.right⟩

def linkRight (w : Walk κ β) : Walk κ β :=
  match w.tree with
  | .null => w
  | .node l n e r => ⟨l, w.left, ⟨n, e, r⟩ :: w.right⟩

def rotateLeft (w : Walk κ β) : Walk κ β :=
  match w.tree with
  | .node l n e (.node rl rn re rr) => { w with tree := .node (.node l n e rl) rn re rr }
  | _ => w

def rotateRight (w : Walk κ β) : Walk κ β :=
  match w.tree with
  | .node (.node ll ln le lr) n e r => { w with tree := .node ll ln le (.node lr n e r) }
  | _ => w

/-- `ipc_splay_prim_assemble`. -/
def assemble (w : Walk κ β) : TreeEntry κ β :=
  match w.tree with
  | .null => .null
  | .node l n e r => .node (closeLeft w.left l) n e (closeRight w.right r)

variable [LinearOrder κ]

/-- One turn of the loop of `ipc_splay_prim_lookup`; `none` when the loop is left. -/
def turn (name : κ) (w : Walk κ β) : Option (Walk κ β) :=
  match w.tree with
  | .null => none
  | .node lchild tname _ rchild =>
    if name = tname then none
    else if name < tname then
      match lchild with
      | .null => none
      | .node ll ltname _ lr =>
        let w := if name < ltname ∧ ll.isNull = false then w.rotateRight else w
        let w := w.linkRight
        some (if ltname < name ∧ lr.isNull = false then w.linkLeft else w)
    else
      match rchild with
      | .null => none
      | .node rl rtname _ rr =>
        let w := if rtname < name ∧ rr.isNull = false then w.rotateLeft else w
        let w := w.linkLeft
        some (if name < rtname ∧ rl.isNull = false then w.linkRight else w)

end Walk

/-! ## One turn of the lookup -/

/-- The entries of the left tree in order. -/
def leftList : List (LeftEntry κ β) → List (κ × β)
  | [] => []
  | f :: fs => leftList fs ++ (f.lchild.toList ++ [(f.name, f.entry)])

/-- The entries of the right tree in order. -/
def rightList : List (RightEntry κ β) → List (κ × β)
  | [] => []
  | f :: fs => (f.name, f.entry) :: (f.rchild.toList ++ rightList fs)

def Walk.toList (w : Walk κ β) : List (κ × β) :=
  leftList w.left ++ (w.tree.toList ++ rightList w.right)

section
variable [LinearOrder κ]

/-- What a turn does: two steps down in the same direction with a rotation, two steps in different
directions, or one step. -/
inductive TurnCase (name : κ) : Walk κ β → Walk κ β → Prop
  | leftLeft {ll lr r : TreeEntry κ β} {ln n : κ} {le e : β} {left : List (LeftEntry κ β)}
      {right : List (RightEntry κ β)} (h : name < ln) (hnull : ll.isNull = false) :
      TurnCase name ⟨.node (.node ll ln le lr) n e r, left, right⟩
        ⟨ll, left, ⟨ln, le, .node lr n e r⟩ :: right⟩
  | leftRight {ll lr r : TreeEntry κ β} {ln n : κ} {le e : β} {left : List (LeftEntry κ β)}
      {right : List (RightEntry κ β)} (h : name < n) (h' : ln < name) (hnull : lr.isNull = false) :
      TurnCase name ⟨.node (.node ll ln le lr) n e r, left, right⟩
        ⟨lr, ⟨ll, ln, le⟩ :: left, ⟨n, e, r⟩ :: right⟩
  | left {l r : TreeEntry κ β} {n : κ} {e : β} {left : List (LeftEntry κ β)}
      {right : List (RightEntry κ β)} (h : name < n) (hnull : l.isNull = false) :
      TurnCase name ⟨.node l n e r, left, right⟩ ⟨l, left, ⟨n, e, r⟩ :: right⟩
  | rightRight {l rl rr : TreeEntry κ β} {n rn : κ} {e re : β} {left : List (LeftEntry κ β)}
      {right : List (RightEntry κ β)} (h : rn < name) (hnull : rr.isNull = false) :
      TurnCase name ⟨.node l n e (.node rl rn re rr), left, right⟩
        ⟨rr, ⟨.node l n e rl, rn, re⟩ :: left, right⟩
  | rightLeft {l rl rr : TreeEntry κ β} {n rn : κ} {e re : β} {left : List (LeftEntry κ β)}
      {right : List (RightEntry κ β)} (h : n < name) (h' : name < rn) (hnull : rl.isNull = false) :
      TurnCase name ⟨.node l n e (.node rl rn re rr), left, right⟩
        ⟨rl, ⟨l, n, e⟩ :: left, ⟨rn, re, rr⟩ :: right⟩
  | right {l r : TreeEntry κ β} {n : κ} {e : β} {left : List (LeftEntry κ β)}
      {right : List (RightEntry κ β)} (h : n < name) (hnull : r.isNull = false) :
      TurnCase name ⟨.node l n e r, left, right⟩ ⟨r, ⟨l, n, e⟩ :: left, right⟩

theorem Walk.turn_cases {name : κ} {w w' : Walk κ β} (h : w.turn name = some w') :
    TurnCase name w w' := by
  obtain ⟨tree, left, right⟩ := w
  unfold Walk.turn at h
  cases tree with
  | null => cases h
  | node l n e r =>
    simp only at h
    split_ifs at h with heq hlt
    · cases l with
      | null => cases h
      | node ll ln le lr =>
        simp only [Option.some.injEq] at h
        by_cases h₁ : name < ln ∧ ll.isNull = false
        · have h₂ : ¬ (ln < name ∧ lr.isNull = false) := fun h' => lt_asymm h₁.1 h'.1
          rw [if_pos h₁, if_neg h₂] at h
          subst h
          exact .leftLeft h₁.1 h₁.2
        · rw [if_neg h₁] at h
          split_ifs at h with h₂
          · subst h
            exact .leftRight hlt h₂.1 h₂.2
          · subst h
            exact .left hlt rfl
    · have hgt : n < name := lt_of_le_of_ne (not_lt.mp hlt) (Ne.symm heq)
      cases r with
      | null => cases h
      | node rl rn re rr =>
        simp only [Option.some.injEq] at h
        by_cases h₁ : rn < name ∧ rr.isNull = false
        · have h₂ : ¬ (name < rn ∧ rl.isNull = false) := fun h' => lt_asymm h₁.1 h'.1
          rw [if_pos h₁, if_neg h₂] at h
          subst h
          exact .rightRight h₁.1 h₁.2
        · rw [if_neg h₁] at h
          split_ifs at h with h₂
          · subst h
            exact .rightLeft hgt h₂.1 h₂.2
          · subst h
            exact .right hgt rfl

theorem TurnCase.size_lt {name : κ} {w w' : Walk κ β} (h : TurnCase name w w') :
    w'.tree.size < w.tree.size := by
  cases h <;> simp only [size] <;> omega

end

/-! ## The operations -/

section
variable [LinearOrder κ]

/-- `ipc_splay_prim_lookup`. -/
def Walk.primLookup (name : κ) (w : Walk κ β) : Walk κ β :=
  match _h : w.turn name with
  | none => w
  | some w' => w'.primLookup name
termination_by w.tree.size
decreasing_by exact (Walk.turn_cases _h).size_lt

namespace SplayTree
variable (t : SplayTree κ β)

def walk : Walk κ β := ⟨t.root, t.left, t.right⟩

/-- The tree is assembled and splayed, unless the last lookup was for the same name. -/
def seek (name : κ) : SplayTree κ β :=
  if t.name ≠ name then
    let w := Walk.primLookup name ⟨t.walk.assemble, [], []⟩
    ⟨name, w.tree, w.left, w.right⟩
  else t

/-- A tree whose side trees are empty, with the name of its root. -/
def ofRoot (junk : κ) (root : TreeEntry κ β) : SplayTree κ β :=
  match root with
  | .null => ⟨junk, .null, [], []⟩
  | .node l n e r => ⟨n, .node l n e r, [], []⟩

/-- `ipc_splay_tree_init`: only the root is set. -/
def init : SplayTree κ β := { t with root := .null }

/-- `ipc_splay_tree_pick`. -/
def pick : Option (κ × β) :=
  match t.root with
  | .null => none
  | .node _ n e _ => some (n, e)

/-- `ipc_splay_tree_lookup`. -/
def lookup (name : κ) : Option β × SplayTree κ β :=
  match t.root with
  | .null => (none, t)
  | .node .. =>
    let t' := t.seek name
    match t'.root with
    | .null => (none, t')
    | .node _ n e _ => (if name ≠ n then none else some e, t')

/-- `ipc_splay_tree_insert`. -/
def insert (name : κ) (entry : β) : SplayTree κ β :=
  match t.root with
  | .null => ⟨name, .node .null name entry .null, [], []⟩
  | .node .. =>
    let t' := t.seek name
    match t'.root with
    | .null => t'
    | .node l n e r =>
      let root := node l n e r
      if name < n then
        ⟨name, .node (closeLeft t'.left .null) name entry (closeRight t'.right root), [], []⟩
      else ⟨name, .node (closeLeft t'.left root) name entry (closeRight t'.right .null), [], []⟩

/-- `ipc_splay_tree_split`: the tree and the new tree `small`. -/
def split (name : κ) (small : SplayTree κ β) : SplayTree κ β × SplayTree κ β :=
  match t.root with
  | .null => (t, small.init)
  | .node .. =>
    let t' := t.seek name
    match t'.root with
    | .null => (t', small.init)
    | .node l n e r =>
      if n < name then
        (ofRoot t.name (closeRight t'.right .null), ⟨n, .node (closeLeft t'.left l) n e r, [], []⟩)
      else
        (⟨name, .node .null n e r, [], t'.right⟩, ofRoot small.name (closeLeft t'.left l))

variable [BoundedOrder κ]

/-- `ipc_splay_tree_delete`: the largest entry of the left side becomes the root. -/
def delete (name : κ) : SplayTree κ β :=
  let t' := t.seek name
  match t'.root with
  | .null => t'
  | .node l _ _ r =>
    let root := closeLeft t'.left l
    let saved := closeRight t'.right r
    if root.isNull then ofRoot t'.name saved
    else if saved.isNull then ofRoot t'.name root
    else ofRoot t'.name ((Walk.primLookup ⊤ ⟨root, [], []⟩).assemble.setRchild saved)

/-- `ipc_splay_tree_join`: the tree, and `small`, which is left empty. -/
def join (small : SplayTree κ β) : SplayTree κ β × SplayTree κ β :=
  match small.root with
  | .null => (t, small)
  | .node .. =>
    let sroot := small.walk.assemble
    match t.root with
    | .null => (ofRoot t.name sroot, small.init)
    | .node .. =>
      (ofRoot t.name (((t.seek ⊥).walk.assemble).setLchild sroot), small.init)

/-- `ipc_splay_tree_bounds`. -/
def bounds (name : κ) : (κ × κ) × SplayTree κ β :=
  match t.root with
  | .null => ((⊤, ⊥), t)
  | .node .. =>
    let t' := t.seek name
    match t'.root with
    | .null => ((⊤, ⊥), t')
    | .node _ rname _ _ =>
      let lower := if rname ≤ name then rname else
        match t'.left with
        | [] => ⊤
        | f :: _ => f.name
      let upper := if name ≤ rname then rname else
        match t'.right with
        | [] => ⊥
        | f :: _ => f.name
      ((lower, upper), t')

end SplayTree

end

/-! ## The lookup -/

@[simp] theorem toList_closeLeft (fs : List (LeftEntry κ β)) (t : TreeEntry κ β) :
    (closeLeft fs t).toList = leftList fs ++ t.toList := by
  induction fs generalizing t with
  | nil => rfl
  | cons f fs ih => simp [closeLeft, leftList, ih, toList]

@[simp] theorem toList_closeRight (fs : List (RightEntry κ β)) (t : TreeEntry κ β) :
    (closeRight fs t).toList = t.toList ++ rightList fs := by
  induction fs generalizing t with
  | nil => simp [closeRight, rightList]
  | cons f fs ih => simp [closeRight, rightList, ih, toList]

theorem TreeEntry.eq_null_of_toList {t : TreeEntry κ β} (h : t.toList = []) : t = .null := by
  cases t with
  | null => rfl
  | node l n e r => simp [toList] at h

theorem TreeEntry.toList_of_isNull {t : TreeEntry κ β} (h : t.isNull = true) : t.toList = [] := by
  cases t with
  | null => rfl
  | node => cases h

theorem toList_assemble {w : Walk κ β} (h : w.tree.isNull = false) :
    w.assemble.toList = w.toList := by
  obtain ⟨tree, left, right⟩ := w
  cases tree with
  | null => cases h
  | node l n e r => simp [Walk.assemble, Walk.toList, toList]

theorem isNull_assemble {w : Walk κ β} (h : w.tree.isNull = false) : w.assemble.isNull = false := by
  obtain ⟨tree, left, right⟩ := w
  cases tree with
  | null => cases h
  | node l n e r => rfl

section
variable [LinearOrder κ] {name : κ} {w w' : Walk κ β}

/-- The entries of the left tree are below the name, those of the right tree above it. -/
structure Walk.Around (name : κ) (w : Walk κ β) : Prop where
  increasing : Increasing w.toList
  left : ∀ p ∈ leftList w.left, p.1 < name
  right : ∀ p ∈ rightList w.right, name < p.1

/-- Where a lookup for the name has ended. -/
structure Walk.Settled (name : κ) (w : Walk κ β) : Prop extends w.Around name where
  root : ∃ l n e r, w.tree = .node l n e r ∧
    (n = name ∨ (name < n ∧ l = .null) ∨ (n < name ∧ r = .null))

theorem TurnCase.toList_eq (h : TurnCase name w w') : w'.toList = w.toList := by
  cases h <;> simp [Walk.toList, toList, leftList, rightList]

theorem TurnCase.isNull_eq (h : TurnCase name w w') : w'.tree.isNull = false := by
  cases h <;> assumption

theorem leftList_lt {f : LeftEntry κ β} {fs : List (LeftEntry κ β)} {rest : List (κ × β)}
    (h : Increasing (leftList (f :: fs) ++ rest)) (hf : f.name < name) :
    ∀ p ∈ leftList (f :: fs), p.1 < name := by
  have hl : Increasing (leftList (f :: fs)) := (increasing_append.mp h).1
  rw [leftList, ← List.append_assoc] at hl ⊢
  intro p hp
  rcases List.mem_append.mp hp with hp | hp
  · exact ((increasing_append.mp hl).2.2 p hp _ (List.mem_singleton_self _)).trans hf
  · rw [List.mem_singleton.mp hp]
    exact hf

theorem lt_rightList {f : RightEntry κ β} {fs : List (RightEntry κ β)} {rest : List (κ × β)}
    (h : Increasing (rest ++ rightList (f :: fs))) (hf : name < f.name) :
    ∀ p ∈ rightList (f :: fs), name < p.1 := by
  have hr : Increasing (rightList (f :: fs)) := (increasing_append.mp h).2.1
  intro p hp
  rcases List.mem_cons.mp hp with rfl | hp
  · exact hf
  · exact hf.trans ((List.pairwise_cons.mp hr).1 p hp)

theorem TurnCase.around (h : TurnCase name w w') (hw : w.Around name) : w'.Around name := by
  have hinc : Increasing w'.toList := h.toList_eq ▸ hw.increasing
  have hinc' : Increasing ((leftList w'.left ++ w'.tree.toList) ++ rightList w'.right) := by
    rw [List.append_assoc]
    exact hinc
  refine ⟨hinc, ?_, ?_⟩
  · cases h with
    | leftLeft | left => exact hw.left
    | leftRight _ h' => exact leftList_lt hinc h'
    | rightRight h => exact leftList_lt hinc h
    | rightLeft h => exact leftList_lt hinc h
    | right h => exact leftList_lt hinc h
  · cases h with
    | rightRight | right => exact hw.right
    | leftLeft h => exact lt_rightList hinc' h
    | leftRight h => exact lt_rightList hinc' h
    | left h => exact lt_rightList hinc' h
    | rightLeft _ h' => exact lt_rightList hinc' h'

theorem Walk.settled_of_turn (hw : w.Around name) (hnull : w.tree.isNull = false)
    (h : w.turn name = none) : w.Settled name := by
  refine ⟨hw, ?_⟩
  obtain ⟨tree, left, right⟩ := w
  unfold Walk.turn at h
  cases tree with
  | null => cases hnull
  | node l n e r =>
    refine ⟨l, n, e, r, rfl, ?_⟩
    simp only at h
    split_ifs at h with heq hlt
    · exact .inl heq.symm
    · cases l with
      | null => exact .inr (.inl ⟨hlt, rfl⟩)
      | node => cases h
    · cases r with
      | null => exact .inr (.inr ⟨lt_of_le_of_ne (not_lt.mp hlt) (Ne.symm heq), rfl⟩)
      | node => cases h

theorem Walk.primLookup_spec (hw : w.Around name) (hnull : w.tree.isNull = false) :
    (w.primLookup name).Settled name ∧ (w.primLookup name).toList = w.toList := by
  induction hn : w.tree.size using Nat.strong_induction_on generalizing w with
  | _ n ih =>
    rw [Walk.primLookup]
    split
    · next h => exact ⟨Walk.settled_of_turn hw hnull h, rfl⟩
    · next w' h =>
      have hcase := Walk.turn_cases h
      obtain ⟨hs, hl⟩ := ih _ (hn ▸ hcase.size_lt) (hcase.around hw) hcase.isNull_eq rfl
      exact ⟨hs, hl.trans hcase.toList_eq⟩

theorem primLookup_assembled (name : κ) {t : TreeEntry κ β} (h : Increasing t.toList)
    (hnull : t.isNull = false) : (Walk.primLookup name ⟨t, [], []⟩).Settled name ∧
      (Walk.primLookup name ⟨t, [], []⟩).toList = t.toList := by
  have hlist : Walk.toList ⟨t, [], []⟩ = t.toList := by simp [Walk.toList, leftList, rightList]
  have hw : Walk.Around name ⟨t, [], []⟩ := ⟨hlist ▸ h, by simp [leftList], by simp [rightList]⟩
  rw [← hlist]
  exact Walk.primLookup_spec hw hnull

/-! ## Trees between operations -/

namespace SplayTree

/-- The entries in order. -/
def toList (t : SplayTree κ β) : List (κ × β) := if t.root.isNull then [] else t.walk.toList

omit [LinearOrder κ] in
theorem toList_of_not_null {t : SplayTree κ β} (h : t.root.isNull = false) :
    t.toList = t.walk.toList := by simp [toList, h]

omit [LinearOrder κ] in
theorem toList_of_null {t : SplayTree κ β} (h : t.root.isNull = true) : t.toList = [] := by
  simp [toList, h]

/-- The tree is empty or as a lookup has left it. -/
structure Ok (t : SplayTree κ β) : Prop where
  settled : t.root.isNull = false → t.walk.Settled t.name

variable {t small : SplayTree κ β} {e : β}

theorem Ok.increasing (h : t.Ok) : Increasing t.toList := by
  cases hn : t.root.isNull with
  | true =>
    rw [toList_of_null hn]
    exact .nil
  | false =>
    rw [toList_of_not_null hn]
    exact (h.settled hn).increasing

omit [LinearOrder κ] in
theorem toList_ofRoot (junk : κ) (root : TreeEntry κ β) : (ofRoot junk root).toList = root.toList := by
  cases root with
  | null => rfl
  | node => simp [toList, ofRoot, isNull, walk, Walk.toList, leftList, rightList]

theorem ofRoot_ok (junk : κ) (root : TreeEntry κ β) (h : Increasing root.toList) :
    (ofRoot junk root).Ok := by
  refine ⟨fun hn => ?_⟩
  have hinc : Increasing (ofRoot junk root).walk.toList := by
    rw [← toList_of_not_null hn, toList_ofRoot]
    exact h
  cases root with
  | null => cases hn
  | node l n e r =>
    exact ⟨⟨hinc, by simp [ofRoot, walk, leftList], by simp [ofRoot, walk, rightList]⟩,
      l, n, e, r, rfl, .inl rfl⟩

theorem Ok.seek (h : t.Ok) (hn : t.root.isNull = false) (name : κ) :
    (t.seek name).walk.Settled name ∧ (t.seek name).walk.toList = t.toList ∧
      (t.seek name).name = name := by
  have hs := h.settled hn
  rw [toList_of_not_null hn]
  unfold SplayTree.seek
  by_cases heq : t.name = name
  · rw [if_neg (by simpa using heq)]
    exact ⟨heq ▸ hs, rfl, heq⟩
  · rw [if_pos heq]
    have hassemble : t.walk.assemble.toList = t.walk.toList := toList_assemble hn
    obtain ⟨hset, hlist⟩ := primLookup_assembled name (hassemble ▸ hs.increasing)
      (isNull_assemble (w := t.walk) hn)
    exact ⟨hset, hlist.trans hassemble, rfl⟩

theorem parts {w : Walk κ β} {name : κ} (h : w.Settled name) : ∃ l n e r, w.tree = .node l n e r ∧
    w.toList = (leftList w.left ++ l.toList) ++ (n, e) :: (r.toList ++ rightList w.right) ∧
    Increasing (leftList w.left ++ l.toList) ∧ Increasing (r.toList ++ rightList w.right) ∧
    (∀ p ∈ leftList w.left ++ l.toList, p.1 < n) ∧ (∀ p ∈ r.toList ++ rightList w.right, n < p.1) ∧
    (n = name ∨ (name < n ∧ l = .null) ∨ (n < name ∧ r = .null)) := by
  obtain ⟨l, n, e, r, htree, hroot⟩ := h.root
  have hlist : w.toList =
      (leftList w.left ++ l.toList) ++ (n, e) :: (r.toList ++ rightList w.right) := by
    simp [Walk.toList, htree, TreeEntry.toList]
  have hinc := h.increasing
  rw [hlist] at hinc
  obtain ⟨hl, hr, hln, hnr⟩ := increasing_middle.mp hinc
  exact ⟨l, n, e, r, htree, hlist, hl, hr, hln, hnr, hroot⟩

theorem isNull_of_get {name : κ} {o : Option β} (h : get t.toList name = o) (ho : o ≠ none) :
    t.root.isNull = false := by
  cases hn : t.root.isNull with
  | false => rfl
  | true =>
    rw [toList_of_null hn] at h
    exact absurd h.symm ho

theorem get_of_settled {w : Walk κ β} {name n : κ} {l r : TreeEntry κ β} {e : β}
    (h : w.Settled name) (htree : w.tree = .node l n e r) :
    get w.toList name = if name ≠ n then none else some e := by
  obtain ⟨l', n', e', r', htree', hparts, -, -, hln, hnr, hcase⟩ := parts h
  rw [htree] at htree'
  cases htree'
  rw [hparts]
  rcases hcase with rfl | ⟨hlt, rfl⟩ | ⟨hlt, rfl⟩
  · rw [if_neg (by simp), get_middle hln _ rfl]
  · have hpre : ∀ p ∈ leftList w.left ++ TreeEntry.null.toList, p.1 ≠ name :=
      fun p hp => ne_of_lt (h.left p (by simpa [TreeEntry.toList] using hp))
    rw [if_pos (ne_of_lt hlt), get_append, get_cons, if_neg (ne_of_gt hlt), get_eq_none hpre,
      get_eq_none fun p hp => ne_of_gt (hlt.trans (hnr p hp))]
    rfl
  · have hpost : ∀ p ∈ TreeEntry.null.toList ++ rightList w.right, p.1 ≠ name :=
      fun p hp => ne_of_gt (h.right p (by simpa [TreeEntry.toList] using hp))
    rw [if_pos (ne_of_gt hlt), get_append, get_cons, if_neg (ne_of_lt hlt), get_eq_none hpost,
      get_eq_none fun p hp => ne_of_lt ((hln p hp).trans hlt)]
    rfl

theorem Ok.lookup (h : t.Ok) (name : κ) : (t.lookup name).1 = get t.toList name ∧
    (t.lookup name).2.toList = t.toList ∧ (t.lookup name).2.Ok := by
  unfold SplayTree.lookup
  cases hroot : t.root with
  | null =>
    have hn : t.root.isNull = true := by rw [hroot]; rfl
    rw [toList_of_null hn]
    exact ⟨rfl, rfl, h⟩
  | node =>
    have hn : t.root.isNull = false := by rw [hroot]; rfl
    obtain ⟨hset, hlist, hname⟩ := h.seek hn name
    obtain ⟨l, n, e, r, htree, -⟩ := hset.root
    have htree' : (t.seek name).root = .node l n e r := htree
    have hn' : (t.seek name).root.isNull = false := by rw [htree']; rfl
    simp only [htree']
    refine ⟨?_, by rw [toList_of_not_null hn', hlist], ⟨fun _ => by rwa [hname]⟩⟩
    rw [← hlist, get_of_settled hset htree]

theorem Ok.insert (h : t.Ok) {name : κ} (hfresh : get t.toList name = none) (e : β) :
    (t.insert name e).Ok ∧ ∃ pre post, t.toList = pre ++ post ∧ (∀ p ∈ pre, p.1 < name) ∧
      (∀ p ∈ post, name < p.1) ∧ (t.insert name e).toList = pre ++ (name, e) :: post := by
  unfold SplayTree.insert
  cases hroot : t.root with
  | null =>
    have hn : t.root.isNull = true := by rw [hroot]; rfl
    rw [toList_of_null hn]
    refine ⟨ofRoot_ok name (.node .null name e .null) (List.pairwise_singleton _ _), [], [], rfl,
      by simp, by simp, ?_⟩
    exact toList_ofRoot name (.node .null name e .null)
  | node =>
    have hn : t.root.isNull = false := by rw [hroot]; rfl
    obtain ⟨hset, hlist, hname⟩ := h.seek hn name
    obtain ⟨l, n, e', r, htree, hparts, hl, hr, hln, hnr, hcase⟩ := parts hset
    have htree' : (t.seek name).root = .node l n e' r := htree
    have hleft : (t.seek name).walk.left = (t.seek name).left := rfl
    have hright : (t.seek name).walk.right = (t.seek name).right := rfl
    rw [hleft, hright] at hparts
    simp only [htree', ← hlist, hparts]
    rw [hleft] at hl hln
    rw [hright] at hr hnr
    rcases hcase with rfl | ⟨hlt, rfl⟩ | ⟨hlt, rfl⟩
    · rw [← hlist, hparts, get_middle hln _ rfl] at hfresh
      cases hfresh
    · have hpost : ∀ p ∈ (n, e') :: (r.toList ++ rightList (t.seek name).right), name < p.1 := by
        intro p hp
        rcases List.mem_cons.mp hp with rfl | hp
        · exact hlt
        · exact hlt.trans (hnr p hp)
      have hlist' : (TreeEntry.node (closeLeft (t.seek name).left .null) name e
          (closeRight (t.seek name).right (.node .null n e' r))).toList =
          leftList (t.seek name).left ++ (name, e) ::
            ((n, e') :: (r.toList ++ rightList (t.seek name).right)) := by
        simp [TreeEntry.toList]
      rw [if_pos hlt]
      refine ⟨ofRoot_ok name (.node _ name e _) ?_, leftList (t.seek name).left, _,
        by simp [TreeEntry.toList], hset.left, hpost, ?_⟩
      · rw [hlist']
        exact increasing_middle.mpr ⟨by simpa [TreeEntry.toList] using hl,
          List.pairwise_cons.mpr ⟨hnr, hr⟩, hset.left, hpost⟩
      · exact (toList_ofRoot name (.node _ name e _)).trans hlist'
    · have hpre : ∀ p ∈ leftList (t.seek name).left ++ (l.toList ++ [(n, e')]), p.1 < name := by
        intro p hp
        rw [← List.append_assoc] at hp
        rcases List.mem_append.mp hp with hp | hp
        · exact (hln p hp).trans hlt
        · rw [List.mem_singleton.mp hp]
          exact hlt
      have hlist' : (TreeEntry.node (closeLeft (t.seek name).left (.node l n e' .null)) name e
          (closeRight (t.seek name).right .null)).toList =
          (leftList (t.seek name).left ++ (l.toList ++ [(n, e')])) ++ (name, e) ::
            rightList (t.seek name).right := by
        simp [TreeEntry.toList]
      rw [if_neg (not_lt.mpr hlt.le)]
      refine ⟨ofRoot_ok name (.node _ name e _) ?_, _, rightList (t.seek name).right,
        by simp [TreeEntry.toList], hpre, hset.right, ?_⟩
      · rw [hlist']
        refine increasing_middle.mpr ⟨?_, by simpa [TreeEntry.toList] using hr, hpre, hset.right⟩
        rw [← List.append_assoc]
        exact increasing_append.mpr ⟨hl, List.pairwise_singleton _ _, fun p hp q hq => by
          rw [List.mem_singleton.mp hq]
          exact hln p hp⟩
      · exact (toList_ofRoot name (.node _ name e _)).trans hlist'

theorem Ok.split (h : t.Ok) (name : κ) (small : SplayTree κ β) :
    (t.split name small).1.Ok ∧ (t.split name small).2.Ok ∧
      t.toList = (t.split name small).2.toList ++ (t.split name small).1.toList ∧
      (∀ p ∈ (t.split name small).2.toList, p.1 < name) ∧
      ∀ p ∈ (t.split name small).1.toList, name ≤ p.1 := by
  have hinit : small.init.Ok := ⟨fun hn => by cases hn⟩
  have hinitList : small.init.toList = [] := rfl
  unfold SplayTree.split
  cases hroot : t.root with
  | null =>
    have hn : t.root.isNull = true := by rw [hroot]; rfl
    simp only [toList_of_null hn, hinitList]
    exact ⟨h, hinit, rfl, by simp, by simp⟩
  | node =>
    have hn : t.root.isNull = false := by rw [hroot]; rfl
    obtain ⟨hset, hlist, hname⟩ := h.seek hn name
    obtain ⟨l, n, e', r, htree, hparts, hl, hr, hln, hnr, hcase⟩ := parts hset
    have htree' : (t.seek name).root = .node l n e' r := htree
    have hleft : (t.seek name).walk.left = (t.seek name).left := rfl
    have hright : (t.seek name).walk.right = (t.seek name).right := rfl
    rw [hleft, hright] at hparts
    rw [hleft] at hl hln
    rw [hright] at hr hnr
    simp only [htree', ← hlist, hparts]
    by_cases hlt : n < name
    · -- the root is below the name, and has no larger entries under it
      have hnull : r = .null := by
        rcases hcase with rfl | ⟨hgt, -⟩ | ⟨-, rfl⟩
        · exact absurd hlt (lt_irrefl _)
        · exact absurd hlt (lt_asymm hgt)
        · rfl
      subst hnull
      have hsmall : (TreeEntry.node (closeLeft (t.seek name).left l) n e' .null).toList =
          (leftList (t.seek name).left ++ l.toList) ++ [(n, e')] := by simp [TreeEntry.toList]
      have hlarge : (closeRight (t.seek name).right (.null : TreeEntry κ β)).toList =
          rightList (t.seek name).right := by simp [TreeEntry.toList]
      have hsmallList : toList (⟨n, .node (closeLeft (t.seek name).left l) n e' .null, [], []⟩ :
          SplayTree κ β) = (leftList (t.seek name).left ++ l.toList) ++ [(n, e')] :=
        (toList_ofRoot n (.node _ n e' _)).trans hsmall
      rw [if_pos hlt, hsmallList, toList_ofRoot, hlarge]
      refine ⟨ofRoot_ok _ _ ?_, ofRoot_ok n (.node _ n e' _) ?_, by simp [TreeEntry.toList], ?_,
        fun p hp => (hset.right p hp).le⟩
      · rw [hlarge]
        simpa [TreeEntry.toList] using hr
      · rw [hsmall]
        exact increasing_append.mpr ⟨hl, List.pairwise_singleton _ _, fun p hp q hq => by
          rw [List.mem_singleton.mp hq]
          exact hln p hp⟩
      · intro p hp
        rcases List.mem_append.mp hp with hp | hp
        · exact (hln p hp).trans hlt
        · rw [List.mem_singleton.mp hp]
          exact hlt
    · have hle : name ≤ n := not_lt.mp hlt
      have hlow : ∀ p ∈ leftList (t.seek name).left ++ l.toList, p.1 < name := by
        rcases hcase with rfl | ⟨-, rfl⟩ | ⟨hgt, -⟩
        · exact hln
        · intro p hp
          have hp' : p ∈ leftList (t.seek name).left := by simpa [TreeEntry.toList] using hp
          exact hset.left p hp'
        · exact absurd hgt hlt
      have hhigh : ∀ p ∈ (n, e') :: (r.toList ++ rightList (t.seek name).right), name ≤ p.1 := by
        intro p hp
        rcases List.mem_cons.mp hp with rfl | hp
        · exact hle
        · exact hle.trans (hnr p hp).le
      have hlarge : toList (⟨name, .node .null n e' r, [], (t.seek name).right⟩ : SplayTree κ β) =
          (n, e') :: (r.toList ++ rightList (t.seek name).right) := rfl
      have hsmall : (closeLeft (t.seek name).left l).toList =
          leftList (t.seek name).left ++ l.toList := toList_closeLeft _ _
      rw [if_neg hlt, hlarge, toList_ofRoot, hsmall]
      refine ⟨⟨fun _ => ⟨⟨?_, by simp [walk, leftList], hset.right⟩, .null, n, e', r, rfl, ?_⟩⟩,
        ofRoot_ok _ _ ?_, rfl, hlow, hhigh⟩
      · exact List.pairwise_cons.mpr ⟨hnr, hr⟩
      · rcases hcase with heq | ⟨hlt', -⟩ | ⟨hgt, -⟩
        · exact .inl heq
        · exact .inr (.inl ⟨hlt', rfl⟩)
        · exact absurd hgt hlt
      · rw [hsmall]
        exact hl

variable [BoundedOrder κ]

theorem assemble_top {w : Walk κ β} (h : w.Settled ⊤) : ∃ l n e, w.assemble = .node l n e .null := by
  obtain ⟨l, n, e, r, htree, -, -, -, -, hnr, hcase⟩ := parts h
  have hempty : (closeRight w.right r).toList = [] := by
    rw [toList_closeRight, List.eq_nil_iff_forall_not_mem]
    intro p hp
    rcases hcase with rfl | ⟨hlt, -⟩ | ⟨-, rfl⟩
    · exact not_top_lt (hnr p hp)
    · exact not_top_lt hlt
    · exact not_top_lt (h.right p (by simpa [TreeEntry.toList] using hp))
  exact ⟨closeLeft w.left l, n, e, by
    simp only [Walk.assemble, htree, TreeEntry.eq_null_of_toList hempty]⟩

theorem toList_setRchild {w : Walk κ β} (h : w.Settled ⊤) (saved : TreeEntry κ β) :
    (w.assemble.setRchild saved).toList = w.toList ++ saved.toList := by
  obtain ⟨l, n, e, heq⟩ := assemble_top h
  have hlist : w.assemble.toList = w.toList := by
    obtain ⟨l', n', e', r', htree, -⟩ := h.root
    exact toList_assemble (by rw [htree]; rfl)
  rw [← hlist, heq]
  simp [TreeEntry.setRchild, TreeEntry.toList]

theorem toList_setLchild {w : Walk κ β} (h : w.Settled ⊥) (small : TreeEntry κ β) :
    (w.assemble.setLchild small).toList = small.toList ++ w.toList := by
  obtain ⟨l, n, e, r, htree, hparts, -, -, hln, -, hcase⟩ := parts h
  have hempty : leftList w.left ++ l.toList = [] := by
    rw [List.eq_nil_iff_forall_not_mem]
    intro p hp
    rcases hcase with rfl | ⟨-, rfl⟩ | ⟨hlt, -⟩
    · exact not_lt_bot (hln p hp)
    · exact not_lt_bot (h.left p (by simpa [TreeEntry.toList] using hp))
    · exact not_lt_bot hlt
  rw [hparts, hempty]
  simp [Walk.assemble, htree, TreeEntry.setLchild, TreeEntry.toList]

theorem Ok.delete (h : t.Ok) {name : κ} (hin : get t.toList name ≠ none) :
    (t.delete name).Ok ∧ ∃ pre v post, t.toList = pre ++ (name, v) :: post ∧
      (t.delete name).toList = pre ++ post := by
  have hn : t.root.isNull = false := isNull_of_get rfl hin
  obtain ⟨hset, hlist, hname⟩ := h.seek hn name
  obtain ⟨l, n, e', r, htree, hparts, hl, hr, hln, hnr, hcase⟩ := parts hset
  have htree' : (t.seek name).root = .node l n e' r := htree
  have hleft : (t.seek name).walk.left = (t.seek name).left := rfl
  have hright : (t.seek name).walk.right = (t.seek name).right := rfl
  obtain rfl : n = name := by
    by_contra hne
    rw [← hlist, get_of_settled hset htree, if_pos (Ne.symm hne)] at hin
    exact hin rfl
  rw [hleft, hright] at hparts
  rw [hleft] at hl hln
  rw [hright] at hr hnr
  have hroot : (closeLeft (t.seek n).left l).toList = leftList (t.seek n).left ++ l.toList :=
    toList_closeLeft _ _
  have hsaved : (closeRight (t.seek n).right r).toList = r.toList ++ rightList (t.seek n).right :=
    toList_closeRight _ _
  have hlt : ∀ p ∈ leftList (t.seek n).left ++ l.toList, ∀ q ∈ r.toList ++ rightList (t.seek n).right,
      p.1 < q.1 := fun p hp q hq => (hln p hp).trans (hnr q hq)
  unfold SplayTree.delete
  simp only [htree']
  split_ifs with h₁ h₂
  · have hnil := toList_of_isNull h₁
    rw [hroot] at hnil
    refine ⟨ofRoot_ok _ _ (hsaved ▸ hr), _, e', _, by rw [← hlist, hparts], ?_⟩
    rw [toList_ofRoot, hsaved, hnil, List.nil_append]
  · have hnil := toList_of_isNull h₂
    rw [hsaved] at hnil
    refine ⟨ofRoot_ok _ _ (hroot ▸ hl), _, e', _, by rw [← hlist, hparts], ?_⟩
    rw [toList_ofRoot, hroot, hnil, List.append_nil]
  · obtain ⟨hmax, hmaxList⟩ := primLookup_assembled (⊤ : κ) (hroot ▸ hl) (by simpa using h₁)
    have hnew := toList_setRchild hmax (closeRight (t.seek n).right r)
    rw [hmaxList, hroot, hsaved] at hnew
    refine ⟨ofRoot_ok _ _ ?_, _, e', _, by rw [← hlist, hparts], ?_⟩
    · rw [hnew]
      exact increasing_append.mpr ⟨hl, hr, hlt⟩
    · rw [toList_ofRoot, hnew]

/-- A join puts the smaller entries in front, and leaves `small` empty. -/
theorem Ok.join (h : t.Ok) (hsmall : small.Ok)
    (hlt : ∀ p ∈ small.toList, ∀ q ∈ t.toList, p.1 < q.1) :
    (t.join small).1.Ok ∧ (t.join small).1.toList = small.toList ++ t.toList ∧
      (t.join small).2.Ok ∧ (t.join small).2.toList = [] := by
  have hinc : Increasing (small.toList ++ t.toList) :=
    increasing_append.mpr ⟨hsmall.increasing, h.increasing, hlt⟩
  have hinit : small.init.Ok := ⟨fun hn => by cases hn⟩
  unfold SplayTree.join
  cases hsroot : small.root with
  | null =>
    have hn : small.root.isNull = true := by rw [hsroot]; rfl
    simp only [toList_of_null hn, List.nil_append]
    exact ⟨h, trivial, hsmall, trivial⟩
  | node =>
    have hn : small.root.isNull = false := by rw [hsroot]; rfl
    have hassemble : small.walk.assemble.toList = small.toList := by
      rw [toList_of_not_null hn]
      exact toList_assemble hn
    cases hroot : t.root with
    | null =>
      have hn' : t.root.isNull = true := by rw [hroot]; rfl
      have hnil : t.toList = [] := toList_of_null hn'
      rw [hnil, List.append_nil] at hinc
      simp only [hnil, List.append_nil, toList_ofRoot, hassemble]
      exact ⟨ofRoot_ok _ _ (hassemble ▸ hinc), trivial, hinit, rfl⟩
    | node =>
      have hn' : t.root.isNull = false := by rw [hroot]; rfl
      obtain ⟨hset, hlist, -⟩ := h.seek hn' ⊥
      have hnew := toList_setLchild hset small.walk.assemble
      rw [hassemble, hlist] at hnew
      simp only [toList_ofRoot, hnew]
      exact ⟨ofRoot_ok _ _ (hnew ▸ hinc), trivial, hinit, rfl⟩

omit [BoundedOrder κ] in
theorem leftList_le {f : LeftEntry κ β} {fs : List (LeftEntry κ β)}
    (h : Increasing (leftList (f :: fs))) : ∀ p ∈ leftList (f :: fs), p.1 ≤ f.name := by
  rw [leftList, ← List.append_assoc] at h ⊢
  intro p hp
  rcases List.mem_append.mp hp with hp | hp
  · exact ((increasing_append.mp h).2.2 p hp _ (List.mem_singleton_self _)).le
  · rw [List.mem_singleton.mp hp]

omit [BoundedOrder κ] in
theorem le_rightList {f : RightEntry κ β} {fs : List (RightEntry κ β)}
    (h : Increasing (rightList (f :: fs))) : ∀ p ∈ rightList (f :: fs), f.name ≤ p.1 := by
  intro p hp
  rcases List.mem_cons.mp hp with rfl | hp
  · exact le_rfl
  · exact ((List.pairwise_cons.mp h).1 p hp).le

theorem lower_spec {w : Walk κ β} {name n : κ} {l r : TreeEntry κ β} {e : β}
    (h : w.Settled name) (htree : w.tree = .node l n e r) :
    let lower := if n ≤ name then n else match w.left with | [] => ⊤ | f :: _ => f.name
    ((∀ p ∈ w.toList, name < p.1) ∧ lower = ⊤) ∨
      IsGreatest {k | k ∈ w.toList.map Prod.fst ∧ k ≤ name} lower := by
  obtain ⟨l', n', e', r', htree', hparts, hl, -, hln, hnr, hcase⟩ := parts h
  rw [htree] at htree'
  cases htree'
  have hmem : ∀ p, p ∈ w.toList ↔ p ∈ leftList w.left ++ l.toList ∨ p = (n, e) ∨
      p ∈ r.toList ++ rightList w.right := fun p => by rw [hparts, List.mem_append, List.mem_cons]
  have habove : name ≤ n ∨ r = .null := by
    rcases hcase with rfl | ⟨hlt, -⟩ | ⟨-, rfl⟩
    · exact .inl le_rfl
    · exact .inl hlt.le
    · exact .inr rfl
  have hpost : ∀ p ∈ r.toList ++ rightList w.right, name < p.1 := by
    intro p hp
    rcases habove with hle | rfl
    · exact hle.trans_lt (hnr p hp)
    · exact h.right p (by simpa [TreeEntry.toList] using hp)
  split_ifs with hle
  · refine .inr ⟨⟨List.mem_map.mpr ⟨(n, e), (hmem _).mpr (.inr (.inl rfl)), rfl⟩, hle⟩, ?_⟩
    rintro k ⟨hk, hkn⟩
    obtain ⟨p, hp, rfl⟩ := List.mem_map.mp hk
    rcases (hmem p).mp hp with hp | rfl | hp
    · exact (hln p hp).le
    · exact le_rfl
    · exact absurd (hpost p hp) (not_lt.mpr hkn)
  · have hnull : l = .null := by
      rcases hcase with rfl | ⟨-, rfl⟩ | ⟨hlt, -⟩
      · exact absurd le_rfl hle
      · rfl
      · exact absurd hlt.le hle
    subst hnull
    have hgt : name < n := not_le.mp hle
    cases hleft : w.left with
    | nil =>
      refine .inl ⟨fun p hp => ?_, rfl⟩
      rcases (hmem p).mp hp with hp | rfl | hp
      · simp [hleft, leftList, TreeEntry.toList] at hp
      · exact hgt
      · exact hpost p hp
    | cons f fs =>
      have hf : (f.name, f.entry) ∈ leftList w.left := by simp [hleft, leftList]
      have hinc : Increasing (leftList w.left) := by simpa [TreeEntry.toList] using hl
      rw [hleft] at hinc
      refine .inr ⟨⟨List.mem_map.mpr ⟨(f.name, f.entry),
        (hmem _).mpr (.inl (List.mem_append_left _ hf)), rfl⟩, (h.left _ hf).le⟩, ?_⟩
      rintro k ⟨hk, hkn⟩
      obtain ⟨p, hp, rfl⟩ := List.mem_map.mp hk
      rcases (hmem p).mp hp with hp | rfl | hp
      · have hp' : p ∈ leftList (f :: fs) := by simpa [TreeEntry.toList, hleft] using hp
        exact leftList_le hinc p hp'
      · exact absurd hgt (not_lt.mpr hkn)
      · exact absurd (hpost p hp) (not_lt.mpr hkn)

theorem upper_spec {w : Walk κ β} {name n : κ} {l r : TreeEntry κ β} {e : β}
    (h : w.Settled name) (htree : w.tree = .node l n e r) :
    let upper := if name ≤ n then n else match w.right with | [] => ⊥ | f :: _ => f.name
    ((∀ p ∈ w.toList, p.1 < name) ∧ upper = ⊥) ∨
      IsLeast {k | k ∈ w.toList.map Prod.fst ∧ name ≤ k} upper := by
  obtain ⟨l', n', e', r', htree', hparts, -, hr, hln, hnr, hcase⟩ := parts h
  rw [htree] at htree'
  cases htree'
  have hmem : ∀ p, p ∈ w.toList ↔ p ∈ leftList w.left ++ l.toList ∨ p = (n, e) ∨
      p ∈ r.toList ++ rightList w.right := fun p => by rw [hparts, List.mem_append, List.mem_cons]
  have hbelow : n ≤ name ∨ l = .null := by
    rcases hcase with rfl | ⟨-, rfl⟩ | ⟨hlt, -⟩
    · exact .inl le_rfl
    · exact .inr rfl
    · exact .inl hlt.le
  have hpre : ∀ p ∈ leftList w.left ++ l.toList, p.1 < name := by
    intro p hp
    rcases hbelow with hle | rfl
    · exact (hln p hp).trans_le hle
    · exact h.left p (by simpa [TreeEntry.toList] using hp)
  split_ifs with hle
  · refine .inr ⟨⟨List.mem_map.mpr ⟨(n, e), (hmem _).mpr (.inr (.inl rfl)), rfl⟩, hle⟩, ?_⟩
    rintro k ⟨hk, hkn⟩
    obtain ⟨p, hp, rfl⟩ := List.mem_map.mp hk
    rcases (hmem p).mp hp with hp | rfl | hp
    · exact absurd (hpre p hp) (not_lt.mpr hkn)
    · exact le_rfl
    · exact (hnr p hp).le
  · have hnull : r = .null := by
      rcases hcase with rfl | ⟨hlt, -⟩ | ⟨-, rfl⟩
      · exact absurd le_rfl hle
      · exact absurd hlt.le hle
      · rfl
    subst hnull
    have hlt : n < name := not_le.mp hle
    cases hright : w.right with
    | nil =>
      refine .inl ⟨fun p hp => ?_, rfl⟩
      rcases (hmem p).mp hp with hp | rfl | hp
      · exact hpre p hp
      · exact hlt
      · simp [hright, rightList, TreeEntry.toList] at hp
    | cons f fs =>
      have hf : (f.name, f.entry) ∈ rightList w.right := by simp [hright, rightList]
      have hinc : Increasing (rightList w.right) := by simpa [TreeEntry.toList] using hr
      rw [hright] at hinc
      refine .inr ⟨⟨List.mem_map.mpr ⟨(f.name, f.entry),
        (hmem _).mpr (.inr (.inr (List.mem_append_right _ hf))), rfl⟩, (h.right _ hf).le⟩, ?_⟩
      rintro k ⟨hk, hkn⟩
      obtain ⟨p, hp, rfl⟩ := List.mem_map.mp hk
      rcases (hmem p).mp hp with hp | rfl | hp
      · exact absurd (hpre p hp) (not_lt.mpr hkn)
      · exact absurd hlt (not_lt.mpr hkn)
      · have hp' : p ∈ rightList (f :: fs) := by simpa [TreeEntry.toList, hright] using hp
        exact le_rightList hinc p hp'

theorem Ok.bounds (h : t.Ok) (name : κ) :
    (t.bounds name).2.Ok ∧ (t.bounds name).2.toList = t.toList ∧
      (((∀ p ∈ t.toList, name < p.1) ∧ (t.bounds name).1.1 = ⊤) ∨
        IsGreatest {k | k ∈ t.toList.map Prod.fst ∧ k ≤ name} (t.bounds name).1.1) ∧
      (((∀ p ∈ t.toList, p.1 < name) ∧ (t.bounds name).1.2 = ⊥) ∨
        IsLeast {k | k ∈ t.toList.map Prod.fst ∧ name ≤ k} (t.bounds name).1.2) := by
  unfold SplayTree.bounds
  cases hroot : t.root with
  | null =>
    have hn : t.root.isNull = true := by rw [hroot]; rfl
    simp only [toList_of_null hn]
    exact ⟨h, trivial, .inl ⟨by simp, trivial⟩, .inl ⟨by simp, trivial⟩⟩
  | node =>
    have hn : t.root.isNull = false := by rw [hroot]; rfl
    obtain ⟨hset, hlist, hname⟩ := h.seek hn name
    obtain ⟨l, n, e, r, htree, -⟩ := hset.root
    have htree' : (t.seek name).root = .node l n e r := htree
    have hn' : (t.seek name).root.isNull = false := by rw [htree']; rfl
    simp only [htree']
    refine ⟨⟨fun _ => by rwa [hname]⟩, by rw [toList_of_not_null hn', hlist], ?_, ?_⟩
    · rw [← hlist]
      exact lower_spec hset htree
    · rw [← hlist]
      exact upper_spec hset htree

end SplayTree

end

/-! ## Runs -/

/-- `mach_port_t`; `⊥` is 0 and `⊤` is ~0. -/
abbrev MachPort := Fin (2 ^ 32)

instance neZero_ports : NeZero (2 ^ 32) := ⟨by norm_num⟩

instance : Bot MachPort := (Fin.instBoundedOrder (n := 2 ^ 32)).toBot

instance : Top MachPort := (Fin.instBoundedOrder (n := 2 ^ 32)).toTop

/-- A tree after some sequence of operations, and the entries that it should have. -/
inductive Built : SplayTree MachPort β → (MachPort → Option β) → Prop
  | init (t : SplayTree MachPort β) : Built t.init fun _ => none
  | insert {t : SplayTree MachPort β} {m : MachPort → Option β} {name : MachPort} (e : β)
      (h : Built t m) (hfresh : m name = none) :
      Built (t.insert name e) (update m name (some e))
  | delete {t : SplayTree MachPort β} {m : MachPort → Option β} {name : MachPort} (h : Built t m)
      (hin : m name ≠ none) : Built (t.delete name) (update m name none)
  | lookup {t : SplayTree MachPort β} {m : MachPort → Option β} (name : MachPort) (h : Built t m) :
      Built (t.lookup name).2 m
  | split {t : SplayTree MachPort β} {m : MachPort → Option β} (name : MachPort)
      (small : SplayTree MachPort β) (h : Built t m) :
      Built (t.split name small).1 fun k => if k < name then none else m k
  | small {t : SplayTree MachPort β} {m : MachPort → Option β} (name : MachPort)
      (small : SplayTree MachPort β) (h : Built t m) :
      Built (t.split name small).2 fun k => if k < name then m k else none
  | join {t small : SplayTree MachPort β} {m m' : MachPort → Option β} (h : Built t m)
      (h' : Built small m') (hlt : ∀ a b, m' a ≠ none → m b ≠ none → a < b) :
      Built (t.join small).1 fun k => (m' k).or (m k)
  | emptied {t small : SplayTree MachPort β} {m m' : MachPort → Option β} (h : Built t m)
      (h' : Built small m') (hlt : ∀ a b, m' a ≠ none → m b ≠ none → a < b) :
      Built (t.join small).2 fun _ => none
  | bounds {t : SplayTree MachPort β} {m : MachPort → Option β} (name : MachPort) (h : Built t m) :
      Built (t.bounds name).2 m

section
variable {t small : SplayTree MachPort β} {m m' : MachPort → Option β}

theorem get_split (h : t.Ok) (name : MachPort) (small : SplayTree MachPort β) :
    (t.split name small).2.toList = t.toList.filter (fun p => p.1 < name) ∧
      (t.split name small).1.toList = t.toList.filter fun p => ¬ p.1 < name := by
  obtain ⟨-, -, hlist, hlow, hhigh⟩ := h.split name small
  rw [hlist, filter_lt_middle hlow hhigh, filter_ge_middle hlow hhigh]
  exact ⟨rfl, rfl⟩

theorem lists_lt (hm : ∀ k, get t.toList k = m k) (hm' : ∀ k, get small.toList k = m' k)
    (hlt : ∀ a b, m' a ≠ none → m b ≠ none → a < b) :
    ∀ p ∈ small.toList, ∀ q ∈ t.toList, p.1 < q.1 := by
  intro p hp q hq
  apply hlt
  · rw [← hm']
    exact get_ne_none hp
  · rw [← hm]
    exact get_ne_none hq

theorem Built.ok (h : Built t m) : t.Ok ∧ ∀ k, get t.toList k = m k := by
  induction h with
  | init t => exact ⟨⟨fun hn => by cases hn⟩, fun k => rfl⟩
  | @insert t m name e _ hfresh ih =>
    obtain ⟨hok, hm⟩ := ih
    obtain ⟨hok', pre, post, hlist, hpre, hpost, hlist'⟩ := hok.insert ((hm name).trans hfresh) e
    refine ⟨hok', fun k => ?_⟩
    rw [hlist']
    rcases eq_or_ne k name with rfl | hne
    · rw [update_self, get_middle hpre _ rfl]
    · rw [update_of_ne hne, ← hm, hlist, get_append, get_append, get_cons, if_neg hne.symm]
  | @delete t m name _ hin ih =>
    obtain ⟨hok, hm⟩ := ih
    obtain ⟨hok', pre, v, post, hlist, hlist'⟩ := hok.delete (hm name ▸ hin)
    refine ⟨hok', fun k => ?_⟩
    rw [hlist']
    rcases eq_or_ne k name with rfl | hne
    · have hinc := hok.increasing
      rw [hlist] at hinc
      obtain ⟨-, -, hpre, hpost⟩ := increasing_middle.mp hinc
      rw [update_self, get_append, get_eq_none fun p hp => ne_of_lt (hpre p hp),
        get_eq_none fun p hp => ne_of_gt (hpost p hp)]
      rfl
    · rw [update_of_ne hne, ← hm, hlist, get_append, get_append, get_cons, if_neg hne.symm]
  | lookup name _ ih =>
    obtain ⟨-, hlist, hok'⟩ := ih.1.lookup name
    exact ⟨hok', fun k => by rw [hlist, ih.2]⟩
  | split name small _ ih =>
    refine ⟨(ih.1.split name small).1, fun k => ?_⟩
    rw [(get_split ih.1 name small).2, ih.1.increasing.get_filter fun k => decide ¬ k < name, ih.2]
    by_cases hk : k < name <;> simp [hk]
  | small name small _ ih =>
    refine ⟨(ih.1.split name small).2.1, fun k => ?_⟩
    rw [(get_split ih.1 name small).1, ih.1.increasing.get_filter fun k => decide (k < name), ih.2]
    by_cases hk : k < name <;> simp [hk]
  | join _ _ hlt ih ih' =>
    obtain ⟨hok', hlist, -⟩ := ih.1.join ih'.1 (lists_lt ih.2 ih'.2 hlt)
    exact ⟨hok', fun k => by rw [hlist, get_append, ih'.2, ih.2]⟩
  | emptied _ _ hlt ih ih' =>
    obtain ⟨-, -, hok', hlist⟩ := ih.1.join ih'.1 (lists_lt ih.2 ih'.2 hlt)
    exact ⟨hok', fun k => by rw [hlist]; rfl⟩
  | bounds name _ ih =>
    obtain ⟨hok', hlist, -⟩ := ih.1.bounds name
    exact ⟨hok', fun k => by rw [hlist, ih.2]⟩

theorem mem_names_iff (hm : ∀ k, get t.toList k = m k) (k : MachPort) :
    k ∈ t.toList.map Prod.fst ↔ m k ≠ none := by
  rw [← hm]
  constructor
  · intro hk
    obtain ⟨⟨_, v⟩, hp, rfl⟩ := List.mem_map.mp hk
    exact get_ne_none hp
  · intro hk
    obtain ⟨v, hv⟩ := Option.ne_none_iff_exists'.mp hk
    exact List.mem_map.mpr ⟨(k, v), mem_of_get hv, rfl⟩

theorem SplayTree.pick_spec (t : SplayTree MachPort β) : (t.pick = none ↔ t.toList = []) ∧
    ∀ p, t.pick = some p → p ∈ t.toList := by
  unfold SplayTree.pick
  cases hroot : t.root with
  | null =>
    have hn : t.root.isNull = true := by rw [hroot]; rfl
    rw [SplayTree.toList_of_null hn]
    exact ⟨by simp, by simp⟩
  | node l n e r =>
    have hn : t.root.isNull = false := by rw [hroot]; rfl
    have hmem : (n, e) ∈ t.toList := by
      rw [SplayTree.toList_of_not_null hn]
      simp [SplayTree.walk, Walk.toList, hroot, TreeEntry.toList]
    refine ⟨⟨by simp, fun hnil => by simp [hnil] at hmem⟩, ?_⟩
    rintro p hp
    cases hp
    exact hmem

/-- A splay tree is a finite map: whatever the operations before, its entries are in order, and
lookups, picks, splits, joins and bounds answer as the map that was built. -/
theorem splayTree_refines (h : Built t m) :
    Increasing t.toList ∧ (t.root.isNull = false → t.walk.assemble.toList = t.toList) ∧
    (∀ name, get t.toList name = m name) ∧
    (∀ name, (t.lookup name).1 = m name ∧ (t.lookup name).2.toList = t.toList) ∧
    ((t.pick = none ↔ ∀ name, m name = none) ∧ ∀ p, t.pick = some p → m p.1 = some p.2) ∧
    (∀ name small, (t.split name small).2.toList = t.toList.filter (fun p => p.1 < name) ∧
      (t.split name small).1.toList = t.toList.filter (fun p => ¬ p.1 < name) ∧
      ((t.split name small).1.join (t.split name small).2).1.toList = t.toList) ∧
    (∀ small m', Built small m' → (∀ a b, m' a ≠ none → m b ≠ none → a < b) →
      (t.join small).1.toList = small.toList ++ t.toList ∧ (t.join small).2.toList = [] ∧
      ∀ name small', (∀ a, m' a ≠ none → a < name) → (∀ b, m b ≠ none → name ≤ b) →
        ((t.join small).1.split name small').2.toList = small.toList ∧
        ((t.join small).1.split name small').1.toList = t.toList) ∧
    ∀ name, (t.bounds name).2.toList = t.toList ∧
      (((∀ k, m k ≠ none → name < k) ∧ (t.bounds name).1.1 = ⊤) ∨
        IsGreatest {k | m k ≠ none ∧ k ≤ name} (t.bounds name).1.1) ∧
      (((∀ k, m k ≠ none → k < name) ∧ (t.bounds name).1.2 = ⊥) ∨
        IsLeast {k | m k ≠ none ∧ name ≤ k} (t.bounds name).1.2) := by
  obtain ⟨hok, hm⟩ := h.ok
  refine ⟨hok.increasing, fun hn => ?_, hm, fun name => ?_, ?_, fun name small => ?_, ?_,
    fun name => ?_⟩
  · rw [SplayTree.toList_of_not_null hn]
    exact toList_assemble hn
  · obtain ⟨hget, hlist, -⟩ := hok.lookup name
    exact ⟨hget.trans (hm name), hlist⟩
  · obtain ⟨hnone, hsome⟩ := t.pick_spec
    refine ⟨hnone.trans ⟨fun hnil k => by rw [← hm, hnil]; rfl, fun hall => ?_⟩, fun p hp => ?_⟩
    · rw [List.eq_nil_iff_forall_not_mem]
      exact fun p hp => get_ne_none hp ((hm p.1).trans (hall p.1))
    · rw [← hm]
      exact hok.increasing.get_eq_some.mpr (hsome p hp)
  · obtain ⟨hsmall, hlarge⟩ := get_split hok name small
    obtain ⟨hok', hokSmall, hlist, hlow, hhigh⟩ := hok.split name small
    refine ⟨hsmall, hlarge, ?_⟩
    rw [hlist]
    exact (hok'.join hokSmall fun p hp q hq => (hlow p hp).trans_le (hhigh q hq)).2.1
  · intro small m' hb hlt
    obtain ⟨hokSmall, hm'⟩ := hb.ok
    obtain ⟨hok', hlist, -, hempty⟩ := hok.join hokSmall (lists_lt hm hm' hlt)
    refine ⟨hlist, hempty, fun name small' hbelow habove => ?_⟩
    have hlow : ∀ p ∈ small.toList, p.1 < name := fun p hp =>
      hbelow p.1 (hm' p.1 ▸ get_ne_none hp)
    have hhigh : ∀ p ∈ t.toList, name ≤ p.1 := fun p hp =>
      habove p.1 (hm p.1 ▸ get_ne_none hp)
    obtain ⟨hsmall, hlarge⟩ := get_split hok' name small'
    rw [hsmall, hlarge, hlist, filter_lt_middle hlow hhigh, filter_ge_middle hlow hhigh]
    exact ⟨rfl, rfl⟩
  · obtain ⟨-, hlist, hlower, hupper⟩ := hok.bounds name
    have hall : ∀ q : MachPort → Prop, (∀ p ∈ t.toList, q p.1) ↔ ∀ k, m k ≠ none → q k := by
      intro q
      simp only [← mem_names_iff hm, List.mem_map, forall_exists_index, and_imp,
        forall_apply_eq_imp_iff₂]
    have habove : (∀ p ∈ t.toList, name < p.1) ↔ ∀ k, m k ≠ none → name < k :=
      hall fun k => name < k
    have hbelow : (∀ p ∈ t.toList, p.1 < name) ↔ ∀ k, m k ≠ none → k < name :=
      hall fun k => k < name
    simp only [mem_names_iff hm, habove] at hlower
    simp only [mem_names_iff hm, hbelow] at hupper
    exact ⟨hlist, hlower, hupper⟩

end

/-- The entries 10, 30 and 20, and a lookup for 25, which fails. -/
def threeNames : SplayTree MachPort ℕ :=
  (((((SplayTree.init ⟨0, .null, [], []⟩).insert 10 1).insert 30 3).insert 20 2).lookup 25).2

theorem splayTree_refines_threeNames : (threeNames.lookup 20).1 = some 2 := by
  have hb : Built threeNames _ := .lookup 25 (.insert 2 (.insert 3 (.insert 1
    (.init ⟨0, .null, [], []⟩) rfl) (by decide)) (by decide))
  rw [((splayTree_refines hb).2.2.2.1 20).1]
  decide

end MachKernel.Ipc
