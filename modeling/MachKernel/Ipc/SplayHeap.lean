import MachKernel.Ipc.Traverse

/-! Splay trees as they lie in memory: entries with child pointers, and the two pointers to fields
that keep a tree unassembled (`ipc/ipc_splay.c`). -/

namespace MachKernel.Ipc
open Assoc Function Option List TreeEntry

variable {κ β σ : Type*}

/-- `struct ipc_tree_entry`; `entry` is what is not used for the tree. -/
structure IpcTreeEntry (κ β : Type*) where
  name : κ
  entry : β
  lchild : Option ℕ
  rchild : Option ℕ

/-- The entries that have been allocated, by address. -/
abbrev Heap (κ β : Type*) := ℕ → Option (IpcTreeEntry κ β)

namespace Heap
variable (h : Heap κ β)

/-- A write to the `ite_lchild` of an entry; `none` if there is no entry. -/
def putLchild (a : ℕ) (p : Option ℕ) : Option (Heap κ β) :=
  (h a).map fun t => update h a (some { t with lchild := p })

/-- A write to the `ite_rchild` of an entry. -/
def putRchild (a : ℕ) (p : Option ℕ) : Option (Heap κ β) :=
  (h a).map fun t => update h a (some { t with rchild := p })

/-- `ite_free`. -/
def free (a : ℕ) : Option (Heap κ β) := (h a).map fun _ => update h a none

end Heap

/-- A field that holds a pointer to an entry: a variable, or a field of an entry. -/
inductive Place
  | variable
  | lchild (a : ℕ)
  | rchild (a : ℕ)
  deriving DecidableEq

/-- The variables of `ipc_splay_prim_lookup`. `ltreep` and `rtreep` are the places of the pointers
that come next, `ltree` and `rtree` the variables that they point to at first. -/
structure Lookup (κ β : Type*) where
  heap : Heap κ β
  tree : ℕ
  ltree : Option ℕ
  ltreep : Place
  rtree : Option ℕ
  rtreep : Place

namespace Lookup
variable (s : Lookup κ β)

/-- `*ltreep = p`. -/
def putLeft (p : Option ℕ) : Option (Lookup κ β) :=
  match s.ltreep with
  | .variable => some { s with ltree := p }
  | .lchild a => (s.heap.putLchild a p).map fun h => { s with heap := h }
  | .rchild a => (s.heap.putRchild a p).map fun h => { s with heap := h }

/-- `*rtreep = p`. -/
def putRight (p : Option ℕ) : Option (Lookup κ β) :=
  match s.rtreep with
  | .variable => some { s with rtree := p }
  | .lchild a => (s.heap.putLchild a p).map fun h => { s with heap := h }
  | .rchild a => (s.heap.putRchild a p).map fun h => { s with heap := h }

def linkLeft : Option (Lookup κ β) :=
  (s.putLeft (some s.tree)).bind fun s' =>
    ((s'.heap s.tree).bind IpcTreeEntry.rchild).map fun tree =>
      { s' with ltreep := .rchild s.tree, tree := tree }

def linkRight : Option (Lookup κ β) :=
  (s.putRight (some s.tree)).bind fun s' =>
    ((s'.heap s.tree).bind IpcTreeEntry.lchild).map fun tree =>
      { s' with rtreep := .lchild s.tree, tree := tree }

def rotateLeft : Option (Lookup κ β) :=
  ((s.heap s.tree).bind IpcTreeEntry.rchild).bind fun tree =>
    (s.heap tree).bind fun t =>
      (s.heap.putRchild s.tree t.lchild).bind fun h =>
        (h.putLchild tree (some s.tree)).map fun h => { s with heap := h, tree := tree }

def rotateRight : Option (Lookup κ β) :=
  ((s.heap s.tree).bind IpcTreeEntry.lchild).bind fun tree =>
    (s.heap tree).bind fun t =>
      (s.heap.putLchild s.tree t.rchild).bind fun h =>
        (h.putRchild tree (some s.tree)).map fun h => { s with heap := h, tree := tree }

/-- `ipc_splay_prim_assemble`. -/
def primAssemble : Option (Lookup κ β) :=
  (s.heap s.tree).bind fun t =>
    (s.putLeft t.lchild).bind fun s =>
      (s.heap s.tree).bind fun t =>
        (s.putRight t.rchild).bind fun s =>
          (s.heap.putLchild s.tree s.ltree).bind fun h =>
            (h.putRchild s.tree s.rtree).map fun h => { s with heap := h }

variable [LinearOrder κ]

/-- One turn of the loop of `ipc_splay_prim_lookup`: the variables, and whether the loop goes on. -/
def turn (name : κ) : Option (Lookup κ β × Bool) :=
  (s.heap s.tree).bind fun t =>
    if name = t.name then some (s, false)
    else if name < t.name then
      match t.lchild with
      | none => some (s, false)
      | some lchild =>
        (s.heap lchild).bind fun tl =>
          (if name < tl.name ∧ tl.lchild.isSome then s.rotateRight else some s).bind fun s =>
            s.linkRight.bind fun s =>
              (s.heap lchild).bind fun tl' =>
                (if tl.name < name ∧ tl'.rchild.isSome then s.linkLeft else some s).map fun s =>
                  (s, true)
    else
      match t.rchild with
      | none => some (s, false)
      | some rchild =>
        (s.heap rchild).bind fun tr =>
          (if tr.name < name ∧ tr.rchild.isSome then s.rotateLeft else some s).bind fun s =>
            s.linkLeft.bind fun s =>
              (s.heap rchild).bind fun tr' =>
                (if name < tr.name ∧ tr'.lchild.isSome then s.linkRight else some s).map fun s =>
                  (s, true)

/-- `ipc_splay_prim_lookup`, cut off after a number of turns of its loop. -/
def primLookup (name : κ) : ℕ → Lookup κ β → Option (Lookup κ β)
  | 0, _ => none
  | n + 1, s => (s.turn name).bind fun r => if r.2 then primLookup name n r.1 else some r.1

end Lookup

/-! ## Trees in memory -/

/-- The pointer to a tree whose entries carry their addresses. -/
def TreeEntry.ptr : TreeEntry κ (ℕ × β) → Option ℕ
  | .null => none
  | .node _ _ e _ => some e.1

@[simp] theorem TreeEntry.ptr_null : (null : TreeEntry κ (ℕ × β)).ptr = none := rfl

@[simp] theorem TreeEntry.ptr_node (l : TreeEntry κ (ℕ × β)) (n : κ) (e : ℕ × β)
    (r : TreeEntry κ (ℕ × β)) : (node l n e r).ptr = some e.1 := rfl

/-- The addresses of a list of entries. -/
def addrs (l : List (κ × ℕ × β)) : List ℕ := l.map fun p => p.2.1

/-- A tree lies in memory. -/
def Heap.Holds (h : Heap κ β) : TreeEntry κ (ℕ × β) → Prop
  | .null => True
  | .node l n e r => h e.1 = some ⟨n, e.2, l.ptr, r.ptr⟩ ∧ h.Holds l ∧ h.Holds r

/-- The entries of a left tree above the pointer `p`: each leads to the one before it. -/
def Heap.Left (h : Heap κ β) (root : Option ℕ) : Option ℕ → List (LeftEntry κ (ℕ × β)) → Prop
  | p, [] => root = p
  | p, f :: fs => h f.entry.1 = some ⟨f.name, f.entry.2, f.lchild.ptr, p⟩ ∧ h.Holds f.lchild ∧
      h.Left root (some f.entry.1) fs

def Heap.Right (h : Heap κ β) (root : Option ℕ) : Option ℕ → List (RightEntry κ (ℕ × β)) → Prop
  | p, [] => root = p
  | p, f :: fs => h f.entry.1 = some ⟨f.name, f.entry.2, p, f.rchild.ptr⟩ ∧ h.Holds f.rchild ∧
      h.Right root (some f.entry.1) fs

/-- The place where a left tree is open. -/
def leftPlace : List (LeftEntry κ (ℕ × β)) → Place
  | [] => .variable
  | f :: _ => .rchild f.entry.1

def rightPlace : List (RightEntry κ (ℕ × β)) → Place
  | [] => .variable
  | f :: _ => .lchild f.entry.1

/-- A walk lies in memory; the two open places may hold anything. -/
structure Lookup.Holds (s : Lookup κ β) (w : Walk κ (ℕ × β)) : Prop where
  tree : w.tree.ptr = some s.tree
  holds : s.heap.Holds w.tree
  left : ∃ p, s.heap.Left s.ltree p w.left
  leftPlace : s.ltreep = leftPlace w.left
  right : ∃ p, s.heap.Right s.rtree p w.right
  rightPlace : s.rtreep = rightPlace w.right
  apart : (addrs w.toList).Nodup

/-! ## What is not written stays -/

section
variable {h h' : Heap κ β} {t : TreeEntry κ (ℕ × β)} {l l' : List (κ × ℕ × β)} {a : ℕ}
  {root p q : Option ℕ}

@[simp] theorem addrs_nil : addrs ([] : List (κ × ℕ × β)) = [] := rfl

@[simp] theorem addrs_append (l l' : List (κ × ℕ × β)) : addrs (l ++ l') = addrs l ++ addrs l' :=
  map_append

@[simp] theorem addrs_cons (x : κ × ℕ × β) (l : List (κ × ℕ × β)) :
    addrs (x :: l) = x.2.1 :: addrs l := rfl

theorem Heap.Holds.congr (hh : h.Holds t) (heq : ∀ a ∈ addrs t.toList, h' a = h a) :
    h'.Holds t := by
  induction t with
  | null => trivial
  | node l n e r ihl ihr =>
    obtain ⟨he, hl, hr⟩ := hh
    simp only [TreeEntry.toList, addrs_append, addrs_cons, mem_append, mem_cons] at heq
    exact ⟨(heq _ (.inr (.inl rfl))).trans he, ihl hl fun a ha => heq a (.inl ha),
      ihr hr fun a ha => heq a (.inr (.inr ha))⟩

variable {fs : List (LeftEntry κ (ℕ × β))}

theorem Heap.Left.congr (hl : h.Left root p fs)
    (heq : ∀ a ∈ addrs (leftList fs), h' a = h a) : h'.Left root p fs := by
  induction fs generalizing p with
  | nil => exact hl
  | cons f fs ih =>
    obtain ⟨hf, hc, hrest⟩ := hl
    simp only [leftList, addrs_append, addrs_cons, addrs_nil, mem_append, mem_cons,
      not_mem_nil, or_false] at heq
    exact ⟨(heq _ (.inr (.inr rfl))).trans hf, hc.congr fun a ha => heq a (.inr (.inl ha)),
      ih hrest fun a ha => heq a (.inl ha)⟩

theorem Heap.Right.congr {fs : List (RightEntry κ (ℕ × β))} (hr : h.Right root p fs)
    (heq : ∀ a ∈ addrs (rightList fs), h' a = h a) : h'.Right root p fs := by
  induction fs generalizing p with
  | nil => exact hr
  | cons f fs ih =>
    obtain ⟨hf, hc, hrest⟩ := hr
    simp only [rightList, addrs_append, addrs_cons, mem_append, mem_cons] at heq
    exact ⟨(heq _ (.inl rfl)).trans hf, hc.congr fun a ha => heq a (.inr (.inl ha)),
      ih hrest fun a ha => heq a (.inr (.inr ha))⟩

theorem Heap.Left.close (hl : h.Left root t.ptr fs)
    (ht : h.Holds t) : h.Holds (closeLeft fs t) ∧ (closeLeft fs t).ptr = root := by
  induction fs generalizing t with
  | nil => exact ⟨ht, hl.symm⟩
  | cons f fs ih =>
    obtain ⟨hf, hc, hrest⟩ := hl
    exact ih (t := .node f.lchild f.name f.entry t) hrest ⟨hf, hc, ht⟩

theorem Heap.Right.close {fs : List (RightEntry κ (ℕ × β))} (hr : h.Right root t.ptr fs)
    (ht : h.Holds t) : h.Holds (closeRight fs t) ∧ (closeRight fs t).ptr = root := by
  induction fs generalizing t with
  | nil => exact ⟨ht, hr.symm⟩
  | cons f fs ih =>
    obtain ⟨hf, hc, hrest⟩ := hr
    exact ih (t := .node t f.name f.entry f.rchild) hrest ⟨hf, ht, hc⟩

theorem TreeEntry.ptr_isSome : t.ptr.isSome ↔ t.isNull = false := by
  cases t <;> simp [ptr, isNull]

end

/-! ## The steps of a lookup -/

/-- A step from one walk to another of the same entries, which writes to no other. -/
structure Lookup.Steps (s : Lookup κ β) (w : Walk κ (ℕ × β)) (s' : Lookup κ β)
    (w' : Walk κ (ℕ × β)) : Prop where
  holds : s'.Holds w'
  toList : w'.toList = w.toList
  frame : ∀ a ∉ addrs w.toList, s'.heap a = s.heap a

theorem Lookup.Steps.trans {s s' s'' : Lookup κ β} {w w' w'' : Walk κ (ℕ × β)}
    (h : s.Steps w s' w') (h' : s'.Steps w' s'' w'') : s.Steps w s'' w'' :=
  ⟨h'.holds, h'.toList.trans h.toList, fun a ha =>
    (h'.frame a (h.toList ▸ ha)).trans (h.frame a ha)⟩

namespace Lookup
variable {s : Lookup κ β} {w : Walk κ (ℕ × β)}

theorem Holds.refl (hs : s.Holds w) : s.Steps w s w := ⟨hs, rfl, fun _ _ => rfl⟩

variable {left : List (LeftEntry κ (ℕ × β))} {p : Option ℕ} {right : List (RightEntry κ (ℕ × β))}
  {e : ℕ × β} {l r : TreeEntry κ (ℕ × β)} {n : κ}

theorem putLeft_spec (hleft : s.heap.Left s.ltree p left) (hplace : s.ltreep = leftPlace left)
    (hapart : (addrs (leftList left)).Nodup) (q : Option ℕ) :
    ∃ s', s.putLeft q = some s' ∧ s'.heap.Left s'.ltree q left ∧
      (∀ a ∉ addrs (leftList left), s'.heap a = s.heap a) ∧ s'.tree = s.tree ∧
      s'.ltreep = s.ltreep ∧ s'.rtree = s.rtree ∧ s'.rtreep = s.rtreep := by
  unfold putLeft
  cases left with
  | nil =>
    rw [hplace]
    exact ⟨_, rfl, rfl, fun _ _ => rfl, rfl, rfl, rfl, rfl⟩
  | cons f fs =>
    obtain ⟨hf, hc, hrest⟩ := hleft
    rw [hplace]
    simp only [leftPlace, Heap.putRchild, hf, map_some]
    simp only [leftList, addrs_append, addrs_cons, addrs_nil] at hapart ⊢
    have hfs : f.entry.1 ∉ addrs (leftList fs) := by grind
    have hfc : f.entry.1 ∉ addrs f.lchild.toList := by grind
    have hother : ∀ (x : IpcTreeEntry κ β) a, a ≠ f.entry.1 →
        update s.heap f.entry.1 (some x) a = s.heap a :=
      fun x a ha => update_of_ne ha _ _
    refine ⟨_, rfl, ⟨update_self _ _ _, hc.congr fun a ha => hother _ a ?_,
      hrest.congr fun a ha => hother _ a ?_⟩, fun a ha => hother _ a ?_, rfl, rfl, rfl, rfl⟩
    · exact fun h => hfc (h ▸ ha)
    · exact fun h => hfs (h ▸ ha)
    · exact fun h => ha (by simp [h])

theorem putRight_spec (hright : s.heap.Right s.rtree p right) (hplace : s.rtreep = rightPlace right)
    (hapart : (addrs (rightList right)).Nodup) (q : Option ℕ) :
    ∃ s', s.putRight q = some s' ∧ s'.heap.Right s'.rtree q right ∧
      (∀ a ∉ addrs (rightList right), s'.heap a = s.heap a) ∧ s'.tree = s.tree ∧
      s'.rtreep = s.rtreep ∧ s'.ltree = s.ltree ∧ s'.ltreep = s.ltreep := by
  unfold putRight
  cases right with
  | nil =>
    rw [hplace]
    exact ⟨_, rfl, rfl, fun _ _ => rfl, rfl, rfl, rfl, rfl⟩
  | cons f fs =>
    obtain ⟨hf, hc, hrest⟩ := hright
    rw [hplace]
    simp only [rightPlace, Heap.putLchild, hf, map_some]
    simp only [rightList, addrs_append, addrs_cons] at hapart ⊢
    have hfs : f.entry.1 ∉ addrs (rightList fs) := by grind
    have hfc : f.entry.1 ∉ addrs f.rchild.toList := by grind
    have hother : ∀ (x : IpcTreeEntry κ β) a, a ≠ f.entry.1 →
        update s.heap f.entry.1 (some x) a = s.heap a :=
      fun x a ha => update_of_ne ha _ _
    refine ⟨_, rfl, ⟨update_self _ _ _, hc.congr fun a ha => hother _ a ?_,
      hrest.congr fun a ha => hother _ a ?_⟩, fun a ha => hother _ a ?_, rfl, rfl, rfl, rfl⟩
    · exact fun h => hfc (h ▸ ha)
    · exact fun h => hfs (h ▸ ha)
    · exact fun h => ha (by simp [h])

theorem linkLeft_spec (hs : s.Holds ⟨.node l n e r, left, right⟩) (hr : r.isNull = false) :
    ∃ s', s.linkLeft = some s' ∧
      s.Steps ⟨.node l n e r, left, right⟩ s' (Walk.linkLeft ⟨.node l n e r, left, right⟩) := by
  obtain ⟨htree, ⟨he, hl, hrh⟩, ⟨p, hleft⟩, hlp, ⟨q, hright⟩, hrp, hapart⟩ := hs
  have htree : s.tree = e.1 := (some.inj htree).symm
  obtain ⟨a, ha⟩ := isSome_iff_exists.mp (ptr_isSome.mpr hr)
  simp only [Walk.toList, TreeEntry.toList, addrs_append, addrs_cons] at hapart
  obtain ⟨s₁, hput, hleft₁, hframe, htree₁, -, hrt₁, hrp₁⟩ :=
    putLeft_spec hleft hlp (by grind) (some s.tree)
  have he₁ : s₁.heap e.1 = some ⟨n, e.2, l.ptr, r.ptr⟩ := (hframe e.1 (by grind)).trans he
  refine ⟨{ s₁ with ltreep := .rchild s.tree, tree := a }, ?_, ⟨ha, ?_, ⟨r.ptr, ?_⟩, ?_, ⟨q, ?_⟩,
    ?_, ?_⟩, ?_, fun a ha => hframe a ?_⟩
  · rw [linkLeft, hput, bind_some, htree, he₁]
    simp only [bind_some, ha, map_some]
  · exact hrh.congr fun a ha => hframe a (by grind)
  · exact ⟨he₁, hl.congr fun a ha => hframe a (by grind), htree ▸ hleft₁⟩
  · rw [htree]
    rfl
  · rw [hrt₁]
    exact hright.congr fun a ha => hframe a (by grind)
  · exact hrp₁.trans hrp
  · simpa [Walk.toList, Walk.linkLeft, leftList] using hapart
  · simp [Walk.toList, Walk.linkLeft, leftList, TreeEntry.toList]
  · simp only [Walk.toList, addrs_append] at ha
    grind

theorem linkRight_spec (hs : s.Holds ⟨.node l n e r, left, right⟩) (hl : l.isNull = false) :
    ∃ s', s.linkRight = some s' ∧
      s.Steps ⟨.node l n e r, left, right⟩ s' (Walk.linkRight ⟨.node l n e r, left, right⟩) := by
  obtain ⟨htree, ⟨he, hlh, hr⟩, ⟨p, hleft⟩, hlp, ⟨q, hright⟩, hrp, hapart⟩ := hs
  have htree : s.tree = e.1 := (some.inj htree).symm
  obtain ⟨a, ha⟩ := isSome_iff_exists.mp (ptr_isSome.mpr hl)
  simp only [Walk.toList, TreeEntry.toList, addrs_append, addrs_cons] at hapart
  obtain ⟨s₁, hput, hright₁, hframe, htree₁, -, hlt₁, hlp₁⟩ :=
    putRight_spec hright hrp (by grind) (some s.tree)
  have he₁ : s₁.heap e.1 = some ⟨n, e.2, l.ptr, r.ptr⟩ := (hframe e.1 (by grind)).trans he
  refine ⟨{ s₁ with rtreep := .lchild s.tree, tree := a }, ?_, ⟨ha, ?_, ⟨p, ?_⟩, ?_, ⟨l.ptr, ?_⟩,
    ?_, ?_⟩, ?_, fun a ha => hframe a ?_⟩
  · rw [linkRight, hput, bind_some, htree, he₁]
    simp only [bind_some, ha, map_some]
  · exact hlh.congr fun a ha => hframe a (by grind)
  · rw [hlt₁]
    exact hleft.congr fun a ha => hframe a (by grind)
  · exact hlp₁.trans hlp
  · exact ⟨he₁, hr.congr fun a ha => hframe a (by grind), htree ▸ hright₁⟩
  · rw [htree]
    rfl
  · simpa [Walk.toList, Walk.linkRight, rightList] using hapart
  · simp [Walk.toList, Walk.linkRight, rightList, TreeEntry.toList]
  · simp only [Walk.toList, addrs_append] at ha
    grind

theorem rotateLeft_spec {rl rr : TreeEntry κ (ℕ × β)} {rn : κ} {re : ℕ × β}
        (hs : s.Holds ⟨.node l n e (.node rl rn re rr), left, right⟩) :
    ∃ s', s.rotateLeft = some s' ∧ s.Steps ⟨.node l n e (.node rl rn re rr), left, right⟩ s'
      (Walk.rotateLeft ⟨.node l n e (.node rl rn re rr), left, right⟩) := by
  obtain ⟨htree, ⟨he, hl, hre, hrl, hrr⟩, ⟨p, hleft⟩, hlp, ⟨q, hright⟩, hrp, hapart⟩ := hs
  have htree : s.tree = e.1 := (some.inj htree).symm
  simp only [Walk.toList, TreeEntry.toList, addrs_append, addrs_cons] at hapart
  have hne : re.1 ≠ e.1 := by grind
  have hframe : ∀ (x y : IpcTreeEntry κ β) a, a ≠ e.1 → a ≠ re.1 →
      update (update s.heap e.1 (some x)) re.1 (some y) a = s.heap a :=
    fun x y a ha ha' => by rw [update_of_ne ha', update_of_ne ha]
  refine ⟨{ s with
    heap := update (update s.heap e.1 (some ⟨n, e.2, l.ptr, rl.ptr⟩)) re.1
      (some ⟨rn, re.2, some e.1, rr.ptr⟩)
    tree := re.1 }, ?_, ⟨rfl, ⟨?_, ⟨?_, ?_, ?_⟩, ?_⟩, ⟨p, ?_⟩, hlp, ⟨q, ?_⟩, hrp, ?_⟩, ?_,
    fun a ha => hframe _ _ a ?_ ?_⟩
  · simp only [rotateLeft, htree, he, ptr, bind_some, hre, Heap.putRchild,
      map_some, Heap.putLchild, update_of_ne hne]
  · exact update_self _ _ _
  · exact (update_of_ne hne.symm _ _).trans (update_self _ _ _)
  · exact hl.congr fun a ha => hframe _ _ a (by grind) (by grind)
  · exact hrl.congr fun a ha => hframe _ _ a (by grind) (by grind)
  · exact hrr.congr fun a ha => hframe _ _ a (by grind) (by grind)
  · exact hleft.congr fun a ha => hframe _ _ a (by grind) (by grind)
  · exact hright.congr fun a ha => hframe _ _ a (by grind) (by grind)
  · simpa [Walk.toList, Walk.rotateLeft, TreeEntry.toList] using hapart
  · simp [Walk.toList, Walk.rotateLeft, TreeEntry.toList]
  all_goals
    simp only [Walk.toList, TreeEntry.toList, addrs_append, addrs_cons] at ha
    grind

theorem rotateRight_spec {ll lr : TreeEntry κ (ℕ × β)} {ln : κ} {le : ℕ × β}
        (hs : s.Holds ⟨.node (.node ll ln le lr) n e r, left, right⟩) :
    ∃ s', s.rotateRight = some s' ∧ s.Steps ⟨.node (.node ll ln le lr) n e r, left, right⟩ s'
      (Walk.rotateRight ⟨.node (.node ll ln le lr) n e r, left, right⟩) := by
  obtain ⟨htree, ⟨he, ⟨hle, hll, hlr⟩, hr⟩, ⟨p, hleft⟩, hlp, ⟨q, hright⟩, hrp, hapart⟩ := hs
  have htree : s.tree = e.1 := (some.inj htree).symm
  simp only [Walk.toList, TreeEntry.toList, addrs_append, addrs_cons] at hapart
  have hne : le.1 ≠ e.1 := by grind
  have hframe : ∀ (x y : IpcTreeEntry κ β) a, a ≠ e.1 → a ≠ le.1 →
      update (update s.heap e.1 (some x)) le.1 (some y) a = s.heap a :=
    fun x y a ha ha' => by rw [update_of_ne ha', update_of_ne ha]
  refine ⟨{ s with
    heap := update (update s.heap e.1 (some ⟨n, e.2, lr.ptr, r.ptr⟩)) le.1
      (some ⟨ln, le.2, ll.ptr, some e.1⟩)
    tree := le.1 }, ?_, ⟨rfl, ⟨?_, ?_, ⟨?_, ?_, ?_⟩⟩, ⟨p, ?_⟩, hlp, ⟨q, ?_⟩, hrp, ?_⟩, ?_,
    fun a ha => hframe _ _ a ?_ ?_⟩
  · simp only [rotateRight, htree, he, ptr, bind_some, hle, Heap.putRchild,
      map_some, Heap.putLchild, update_of_ne hne]
  · exact update_self _ _ _
  · exact hll.congr fun a ha => hframe _ _ a (by grind) (by grind)
  · exact (update_of_ne hne.symm _ _).trans (update_self _ _ _)
  · exact hlr.congr fun a ha => hframe _ _ a (by grind) (by grind)
  · exact hr.congr fun a ha => hframe _ _ a (by grind) (by grind)
  · exact hleft.congr fun a ha => hframe _ _ a (by grind) (by grind)
  · exact hright.congr fun a ha => hframe _ _ a (by grind) (by grind)
  · simpa [Walk.toList, Walk.rotateRight, TreeEntry.toList] using hapart
  · simp [Walk.toList, Walk.rotateRight, TreeEntry.toList]
  all_goals
    simp only [Walk.toList, TreeEntry.toList, addrs_append, addrs_cons] at ha
    grind

section
variable [LinearOrder κ] {name : κ}

theorem turn_spec (hs : s.Holds w) (name : κ) :
    (w.turn name = none ∧ s.turn name = some (s, false)) ∨
      ∃ w' s', w.turn name = some w' ∧ s.turn name = some (s', true) ∧ s.Steps w s' w' := by
  obtain ⟨tree, left, right⟩ := w
  cases tree with
  | null => cases hs.tree
  | node l n e r =>
    have htree : s.tree = e.1 := (some.inj hs.tree).symm
    have he : s.heap s.tree = some ⟨n, e.2, l.ptr, r.ptr⟩ := htree ▸ hs.holds.1
    unfold Walk.turn turn
    simp only [he, bind_some]
    by_cases heq : name = n
    · rw [if_pos heq, if_pos heq]
      exact .inl ⟨rfl, rfl⟩
    rw [if_neg heq, if_neg heq]
    by_cases hlt : name < n
    · rw [if_pos hlt, if_pos hlt]
      cases l with
      | null => exact .inl ⟨rfl, rfl⟩
      | node ll ln le lr =>
        right
        have hle : s.heap le.1 = some ⟨ln, le.2, ll.ptr, lr.ptr⟩ := hs.holds.2.1.1
        simp only [ptr_node, hle, bind_some]
        by_cases hzig : name < ln ∧ ll.isNull = false
        · have hzig' : name < ln ∧ ll.ptr.isSome := ⟨hzig.1, ptr_isSome.mpr hzig.2⟩
          have hzag : ∀ P : Prop, ¬ (ln < name ∧ P) := fun P h => lt_asymm hzig.1 h.1
          obtain ⟨s₁, h₁, hstep₁⟩ := rotateRight_spec hs
          obtain ⟨s₂, h₂, hstep₂⟩ := linkRight_spec hstep₁.holds hzig.2
          obtain ⟨q, hle₂, -⟩ := hstep₂.holds.right
          rw [if_pos hzig, if_pos hzig', if_neg (hzag _), h₁, bind_some, h₂,
            bind_some, hle₂, bind_some, if_neg (hzag _)]
          exact ⟨_, s₂, rfl, rfl, hstep₁.trans hstep₂⟩
        · have hzig' : ¬ (name < ln ∧ ll.ptr.isSome) := fun h =>
            hzig ⟨h.1, ptr_isSome.mp h.2⟩
          obtain ⟨s₁, h₁, hstep₁⟩ := linkRight_spec hs rfl
          have hle₁ : s₁.heap le.1 = some ⟨ln, le.2, ll.ptr, lr.ptr⟩ := hstep₁.holds.holds.1
          rw [if_neg hzig, if_neg hzig', bind_some, h₁, bind_some, hle₁, bind_some]
          by_cases hzag : ln < name ∧ lr.isNull = false
          · obtain ⟨s₂, h₂, hstep₂⟩ := linkLeft_spec hstep₁.holds hzag.2
            rw [if_pos hzag, if_pos (show ln < name ∧ lr.ptr.isSome from
              ⟨hzag.1, ptr_isSome.mpr hzag.2⟩), h₂]
            exact ⟨_, s₂, rfl, rfl, hstep₁.trans hstep₂⟩
          · rw [if_neg hzag, if_neg (show ¬ (ln < name ∧ lr.ptr.isSome) from fun h =>
              hzag ⟨h.1, ptr_isSome.mp h.2⟩)]
            exact ⟨_, s₁, rfl, rfl, hstep₁⟩
    · rw [if_neg hlt, if_neg hlt]
      cases r with
      | null => exact .inl ⟨rfl, rfl⟩
      | node rl rn re rr =>
        right
        have hre : s.heap re.1 = some ⟨rn, re.2, rl.ptr, rr.ptr⟩ := hs.holds.2.2.1
        simp only [ptr_node, hre, bind_some]
        by_cases hzig : rn < name ∧ rr.isNull = false
        · have hzig' : rn < name ∧ rr.ptr.isSome := ⟨hzig.1, ptr_isSome.mpr hzig.2⟩
          have hzag : ∀ P : Prop, ¬ (name < rn ∧ P) := fun P h => lt_asymm hzig.1 h.1
          obtain ⟨s₁, h₁, hstep₁⟩ := rotateLeft_spec hs
          obtain ⟨s₂, h₂, hstep₂⟩ := linkLeft_spec hstep₁.holds hzig.2
          obtain ⟨q, hre₂, -⟩ := hstep₂.holds.left
          rw [if_pos hzig, if_pos hzig', if_neg (hzag _), h₁, bind_some, h₂,
            bind_some, hre₂, bind_some, if_neg (hzag _)]
          exact ⟨_, s₂, rfl, rfl, hstep₁.trans hstep₂⟩
        · have hzig' : ¬ (rn < name ∧ rr.ptr.isSome) := fun h =>
            hzig ⟨h.1, ptr_isSome.mp h.2⟩
          obtain ⟨s₁, h₁, hstep₁⟩ := linkLeft_spec hs rfl
          have hre₁ : s₁.heap re.1 = some ⟨rn, re.2, rl.ptr, rr.ptr⟩ := hstep₁.holds.holds.1
          rw [if_neg hzig, if_neg hzig', bind_some, h₁, bind_some, hre₁, bind_some]
          by_cases hzag : name < rn ∧ rl.isNull = false
          · obtain ⟨s₂, h₂, hstep₂⟩ := linkRight_spec hstep₁.holds hzag.2
            rw [if_pos hzag, if_pos (show name < rn ∧ rl.ptr.isSome from
              ⟨hzag.1, ptr_isSome.mpr hzag.2⟩), h₂]
            exact ⟨_, s₂, rfl, rfl, hstep₁.trans hstep₂⟩
          · rw [if_neg hzag, if_neg (show ¬ (name < rn ∧ rl.ptr.isSome) from fun h =>
              hzag ⟨h.1, ptr_isSome.mp h.2⟩)]
            exact ⟨_, s₁, rfl, rfl, hstep₁⟩

theorem primLookup_spec (hs : s.Holds w) (name : κ) {bound : ℕ} (hb : w.tree.size < bound) :
    ∃ s', primLookup name bound s = some s' ∧ s.Steps w s' (w.primLookup name) := by
  induction bound generalizing s w with
  | zero => cases hb
  | succ bound ih =>
    rw [primLookup, Walk.primLookup]
    rcases turn_spec hs name with ⟨hw, hturn⟩ | ⟨w', s₁, hw, hturn, hstep⟩
    · rw [hturn]
      split
      · exact ⟨s, rfl, hs.refl⟩
      · next h =>
        rw [hw] at h
        cases h
    · rw [hturn]
      split
      · next h =>
        rw [hw] at h
        cases h
      · next w'' h =>
        obtain rfl := some.inj (hw.symm.trans h)
        have hlt := (Walk.turn_cases hw).size_lt
        obtain ⟨s', hs', hstep'⟩ := ih hstep.holds (by omega)
        exact ⟨s', hs', hstep.trans hstep'⟩

end

theorem primAssemble_spec (hs : s.Holds w) :
    ∃ s', s.primAssemble = some s' ∧ s'.tree = s.tree ∧ s'.heap.Holds w.assemble ∧
      w.assemble.ptr = some s.tree ∧ ∀ a ∉ addrs w.toList, s'.heap a = s.heap a := by
  obtain ⟨tree, left, right⟩ := w
  obtain ⟨htree, hh, ⟨p, hleft⟩, hlp, ⟨q, hright⟩, hrp, hapart⟩ := hs
  cases tree with
  | null => cases htree
  | node l n e r =>
    have htree : s.tree = e.1 := (some.inj htree).symm
    obtain ⟨he, hl, hr⟩ := hh
    simp only [Walk.toList, TreeEntry.toList, addrs_append, addrs_cons] at hapart ⊢
    obtain ⟨s₁, hput₁, hleft₁, hframe₁, htree₁, -, hrt₁, hrp₁⟩ :=
      putLeft_spec hleft hlp (by grind) l.ptr
    have hright₁ : s₁.heap.Right s₁.rtree q right :=
      hrt₁ ▸ hright.congr fun a ha => hframe₁ a (by grind)
    obtain ⟨s₂, hput₂, hright₂, hframe₂, htree₂, -, hlt₂, -⟩ :=
      putRight_spec hright₁ (hrp₁.trans hrp) (by grind) r.ptr
    have hleft₂ : s₂.heap.Left s₂.ltree l.ptr left :=
      hlt₂ ▸ hleft₁.congr fun a ha => hframe₂ a (by grind)
    have hframe : ∀ a ∉ addrs (leftList left), a ∉ addrs (rightList right) →
        s₂.heap a = s.heap a := fun a ha ha' => (hframe₂ a ha').trans (hframe₁ a ha)
    have he₁ : s₁.heap e.1 = some ⟨n, e.2, l.ptr, r.ptr⟩ := (hframe₁ _ (by grind)).trans he
    have he₂ : s₂.heap e.1 = some ⟨n, e.2, l.ptr, r.ptr⟩ :=
      (hframe _ (by grind) (by grind)).trans he
    obtain ⟨hcl, hclp⟩ := hleft₂.close (hl.congr fun a ha => hframe a (by grind) (by grind))
    obtain ⟨hcr, hcrp⟩ := hright₂.close (hr.congr fun a ha => hframe a (by grind) (by grind))
    have hwrite : ∀ (x : IpcTreeEntry κ β) a, a ≠ e.1 → update s₂.heap e.1 (some x) a = s₂.heap a :=
      fun x a ha => update_of_ne ha _ _
    refine ⟨{ s₂ with
      heap := update s₂.heap e.1 (some ⟨n, e.2, s₂.ltree, s₂.rtree⟩) }, ?_,
      htree₂.trans htree₁, ⟨?_, hcl.congr fun a ha => hwrite _ a ?_,
      hcr.congr fun a ha => hwrite _ a ?_⟩, congrArg some htree.symm,
      fun a ha => (hwrite _ a ?_).trans (hframe a ?_ ?_)⟩
    · rw [primAssemble, htree, he, bind_some, hput₁, bind_some, htree₁, htree, he₁,
        bind_some, hput₂, bind_some, htree₂, htree₁, htree]
      simp only [Heap.putLchild, he₂, map_some, bind_some, Heap.putRchild, update_self, update_idem]
    · rw [hclp, hcrp]
      exact update_self _ _ _
    · simp only [toList_closeLeft, addrs_append] at ha
      grind
    · simp only [toList_closeRight, addrs_append] at ha
      grind
    all_goals grind

end Lookup

end MachKernel.Ipc
