import MachKernel.Ipc.SplayHeap

/-! The traversal of a splay tree by pointer inversion (`ipc_splay_traverse_start`,
`ipc_splay_traverse_next`, `ipc_splay_traverse_finish`). -/

namespace MachKernel.Ipc
open Assoc Function List Option TreeEntry

variable {κ β σ : Type*}

/-- `struct ipc_splay_tree`. -/
structure IpcSplayTree (κ : Type*) where
  name : κ
  root : Option ℕ
  ltree : Option ℕ
  ltreep : Place
  rtree : Option ℕ
  rtreep : Place

/-- The entries, and a splay tree of some of them. -/
structure Memory (κ β : Type*) where
  heap : Heap κ β
  splay : IpcSplayTree κ

/-- `traverse_entry`: the current entry and its parent are kept in the splay tree. -/
def traverseEntry (splay : IpcSplayTree κ) (h : Heap κ β) (current : ℕ) (parent : Option ℕ) :
    Option ℕ × Memory κ β :=
  (some current, ⟨h, { splay with ltree := some current, rtree := parent }⟩)

/-- `traverse_left`, and the loop of `ipc_splay_traverse_start`, cut off after a number of turns. -/
def traverseLeft (splay : IpcSplayTree κ) :
    ℕ → Heap κ β → ℕ → Option ℕ → Option (Option ℕ × Memory κ β)
  | 0, _, _, _ => none
  | n + 1, h, current, parent =>
    (h current).bind fun t =>
      match t.lchild with
      | none => some (traverseEntry splay h current parent)
      | some next => (h.putLchild current parent).bind fun h =>
          traverseLeft splay n h next (some current)

section
variable [LinearOrder κ]

def traverseBack (splay : IpcSplayTree κ) :
    ℕ → Heap κ β → ℕ → Option ℕ → Option (Option ℕ × Memory κ β)
  | 0, _, _, _ => none
  | _ + 1, h, current, none => some (none, ⟨h, { splay with root := some current }⟩)
  | n + 1, h, current, some parent =>
    (h current).bind fun c =>
      (h parent).bind fun p =>
        if c.name < p.name then
          (h.putLchild parent (some current)).map fun h => traverseEntry splay h parent p.lchild
        else
          (h.putRchild parent (some current)).bind fun h =>
            traverseBack splay n h parent p.rchild

def traverseRight (splay : IpcSplayTree κ) (bound : ℕ) (h : Heap κ β) (current : ℕ)
    (parent : Option ℕ) : Option (Option ℕ × Memory κ β) :=
  (h current).bind fun t =>
    match t.rchild with
    | some next => (h.putRchild current parent).bind fun h =>
        traverseLeft splay bound h next (some current)
    | none => traverseBack splay bound h current parent

namespace Memory
variable (m : Memory κ β)

omit [LinearOrder κ] in
/-- `ipc_splay_traverse_start`. -/
def traverseStart (bound : ℕ) : Option (Option ℕ × Memory κ β) :=
  match m.splay.root with
  | none => some (none, m)
  | some root =>
    (Lookup.primAssemble ⟨m.heap, root, m.splay.ltree, m.splay.ltreep, m.splay.rtree,
      m.splay.rtreep⟩).bind fun s =>
        traverseLeft { m.splay with ltree := s.ltree, rtree := s.rtree } bound s.heap root none

/-- `ipc_splay_traverse_next`, each of its loops cut off after a number of turns. -/
def traverseNext [BoundedOrder κ] (bound : ℕ) (delete : Bool) : Option (Option ℕ × Memory κ β) :=
  m.splay.ltree.bind fun current =>
    if delete = false then traverseRight m.splay bound m.heap current m.splay.rtree
    else
      (m.heap current).bind fun t =>
        match t.lchild, t.rchild with
        | none, none =>
          match m.splay.rtree with
          | none => (m.heap.free current).map fun h => (none, ⟨h, { m.splay with root := none }⟩)
          | some parent =>
            (m.heap parent).bind fun p =>
              if t.name < p.name then
                (m.heap.free current).bind fun h =>
                  (h.putLchild parent none).map fun h => traverseEntry m.splay h parent p.lchild
              else
                (m.heap.free current).bind fun h =>
                  (h.putRchild parent none).bind fun h =>
                    traverseBack m.splay bound h parent p.rchild
        | none, some rchild =>
          (m.heap.free current).bind fun h => traverseLeft m.splay bound h rchild m.splay.rtree
        | some lchild, none =>
          (m.heap.free current).bind fun h => traverseBack m.splay bound h lchild m.splay.rtree
        | some lchild, some _ =>
          -- the largest entry on the left takes the place of the current one
          (Lookup.primLookup ⊤ bound ⟨m.heap, lchild, none, .variable, none, .variable⟩).bind
            fun s => s.primAssemble.bind fun s =>
              (s.heap current).bind fun prev =>
                (s.heap.putRchild s.tree prev.rchild).bind fun h =>
                  (h.free current).bind fun h =>
                    traverseRight m.splay bound h s.tree m.splay.rtree

omit [LinearOrder κ] in
/-- `ipc_splay_traverse_finish`. -/
def traverseFinish : Option (Memory κ β) :=
  match m.splay.root with
  | none => some m
  | some root => (m.heap root).map fun t =>
      { m with splay := { m.splay with name := t.name, ltreep := .variable, rtreep := .variable } }

end Memory

/-- The loop of a caller: what it does with an entry says whether the entry is deleted. -/
def traverseLoop [BoundedOrder κ] (visit : σ → κ → ℕ × β → Bool × σ) (bound : ℕ) :
    ℕ → Option ℕ × Memory κ β → σ → Option (Memory κ β × σ)
  | _, (none, m), s => some (m, s)
  | 0, (some _, _), _ => none
  | n + 1, (some a, m), s =>
    (m.heap a).bind fun t =>
      (m.traverseNext bound (visit s t.name (a, t.entry)).1).bind fun r =>
        traverseLoop visit bound n r (visit s t.name (a, t.entry)).2

/-- A traversal from start to finish. -/
def Memory.traverse [BoundedOrder κ] (m : Memory κ β) (visit : σ → κ → ℕ × β → Bool × σ)
    (bound : ℕ) (s : σ) : Option (Memory κ β × σ) :=
  (m.traverseStart bound).bind fun r =>
    (traverseLoop visit bound bound r s).bind fun r => r.1.traverseFinish.map fun m => (m, r.2)

end

/-! ## The inverted part of the tree -/

/-- An entry above the current one: the traversal has gone down to its left or its right child, and
the pointer to that child leads to the parent meanwhile. -/
inductive Above (κ β : Type*)
  | left (name : κ) (entry : ℕ × β) (rchild : TreeEntry κ (ℕ × β))
  | right (lchild : TreeEntry κ (ℕ × β)) (name : κ) (entry : ℕ × β)

/-- The entries above the pointer lie in memory, inverted. -/
def Heap.Inverted (h : Heap κ β) : Option ℕ → List (Above κ β) → Prop
  | p, [] => p = none
  | p, .left n e r :: fs =>
    p = some e.1 ∧ ∃ q, h e.1 = some ⟨n, e.2, q, r.ptr⟩ ∧ h.Holds r ∧ h.Inverted q fs
  | p, .right l n e :: fs =>
    p = some e.1 ∧ ∃ q, h e.1 = some ⟨n, e.2, l.ptr, q⟩ ∧ h.Holds l ∧ h.Inverted q fs

/-- The entries above that come before the current tree, in order. -/
def before : List (Above κ β) → List (κ × ℕ × β)
  | [] => []
  | .left .. :: fs => before fs
  | .right l n e :: fs => before fs ++ (l.toList ++ [(n, e)])

/-- The entries above that come after the current tree, in order. -/
def after : List (Above κ β) → List (κ × ℕ × β)
  | [] => []
  | .left n e r :: fs => (n, e) :: (r.toList ++ after fs)
  | .right .. :: fs => after fs

section
variable {h h' : Heap κ β} {t l r : TreeEntry κ (ℕ × β)} {n : κ} {e : ℕ × β}
  {parent q : Option ℕ} {fs : List (Above κ β)}

theorem Heap.Inverted.congr (hi : h.Inverted q fs) (hb : ∀ a ∈ addrs (before fs), h' a = h a)
    (ha : ∀ a ∈ addrs (after fs), h' a = h a) : h'.Inverted q fs := by
  induction fs generalizing q with
  | nil => exact hi
  | cons f fs ih =>
    cases f with
    | left n e r =>
      obtain ⟨hq, q', he, hr, hrest⟩ := hi
      simp only [before] at hb
      simp only [after, addrs_cons, addrs_append, mem_cons, mem_append] at ha
      exact ⟨hq, q', (ha _ (.inl rfl)).trans he, hr.congr fun a h => ha a (.inr (.inl h)),
        ih hrest hb fun a h => ha a (.inr (.inr h))⟩
    | right l n e =>
      obtain ⟨hq, q', he, hl, hrest⟩ := hi
      simp only [before, addrs_append, addrs_cons, addrs_nil, mem_append, mem_cons,
        not_mem_nil, or_false] at hb
      simp only [after] at ha
      exact ⟨hq, q', (hb _ (.inr (.inr rfl))).trans he, hl.congr fun a h => hb a (.inr (.inl h)),
        ih hrest (fun a h => hb a (.inl h)) ha⟩

variable [LinearOrder κ]

/-- A tree lies in memory under the entries above it. -/
structure Heap.Stands (h : Heap κ β) (t : TreeEntry κ (ℕ × β)) (parent : Option ℕ)
    (fs : List (Above κ β)) : Prop where
  holds : h.Holds t
  inverted : h.Inverted parent fs
  order : Increasing (before fs ++ (t.toList ++ after fs))
  apart : (addrs (before fs ++ (t.toList ++ after fs))).Nodup

theorem Heap.Stands.down_left (hs : h.Stands (.node l n e r) parent fs) :
    ∃ h', h.putLchild e.1 parent = some h' ∧ h'.Stands l (some e.1) (.left n e r :: fs) ∧
      ∀ a, a ≠ e.1 → h' a = h a := by
  obtain ⟨⟨he, hl, hr⟩, hinv, horder, hapart⟩ := hs
  simp only [TreeEntry.toList, addrs_append, addrs_cons] at hapart
  have hother : ∀ (x : IpcTreeEntry κ β) a, a ≠ e.1 → update h e.1 (some x) a = h a :=
    fun x a ha => update_of_ne ha _ _
  refine ⟨update h e.1 (some ⟨n, e.2, parent, r.ptr⟩), ?_, ⟨?_, ⟨rfl, parent, ?_, ?_, ?_⟩,
    ?_, ?_⟩, hother _⟩
  · rw [Heap.putLchild, he]
    rfl
  · exact hl.congr fun a ha => hother _ a (by grind)
  · exact update_self _ _ _
  · exact hr.congr fun a ha => hother _ a (by grind)
  · exact hinv.congr (fun a ha => hother _ a (by grind)) fun a ha => hother _ a (by grind)
  · simpa [before, after, TreeEntry.toList] using horder
  · simpa [before, after] using hapart

theorem Heap.Stands.down_right (hs : h.Stands (.node l n e r) parent fs) :
    ∃ h', h.putRchild e.1 parent = some h' ∧ h'.Stands r (some e.1) (.right l n e :: fs) ∧
      ∀ a, a ≠ e.1 → h' a = h a := by
  obtain ⟨⟨he, hl, hr⟩, hinv, horder, hapart⟩ := hs
  simp only [TreeEntry.toList, addrs_append, addrs_cons] at hapart
  have hother : ∀ (x : IpcTreeEntry κ β) a, a ≠ e.1 → update h e.1 (some x) a = h a :=
    fun x a ha => update_of_ne ha _ _
  refine ⟨update h e.1 (some ⟨n, e.2, l.ptr, parent⟩), ?_, ⟨?_, ⟨rfl, parent, ?_, ?_, ?_⟩,
    ?_, ?_⟩, hother _⟩
  · rw [Heap.putRchild, he]
    rfl
  · exact hr.congr fun a ha => hother _ a (by grind)
  · exact update_self _ _ _
  · exact hl.congr fun a ha => hother _ a (by grind)
  · exact hinv.congr (fun a ha => hother _ a (by grind)) fun a ha => hother _ a (by grind)
  · simpa [before, after, TreeEntry.toList] using horder
  · simpa [before, after] using hapart

theorem Heap.Stands.up_left (hs : h.Stands t parent (.left n e r :: fs)) :
    parent = some e.1 ∧ ∃ q h', h e.1 = some ⟨n, e.2, q, r.ptr⟩ ∧
      h.putLchild e.1 t.ptr = some h' ∧ h'.Stands (.node t n e r) q fs ∧
      ∀ a, a ≠ e.1 → h' a = h a := by
  obtain ⟨ht, ⟨hparent, q, he, hr, hinv⟩, horder, hapart⟩ := hs
  simp only [before, after, addrs_append, addrs_cons] at hapart
  have hother : ∀ (x : IpcTreeEntry κ β) a, a ≠ e.1 → update h e.1 (some x) a = h a :=
    fun x a ha => update_of_ne ha _ _
  refine ⟨hparent, q, update h e.1 (some ⟨n, e.2, t.ptr, r.ptr⟩), he, ?_,
    ⟨⟨?_, ?_, ?_⟩, ?_, ?_, ?_⟩, hother _⟩
  · rw [Heap.putLchild, he]
    rfl
  · exact update_self _ _ _
  · exact ht.congr fun a ha => hother _ a (by grind)
  · exact hr.congr fun a ha => hother _ a (by grind)
  · exact hinv.congr (fun a ha => hother _ a (by grind)) fun a ha => hother _ a (by grind)
  · simpa [before, after, TreeEntry.toList] using horder
  · simpa [TreeEntry.toList] using hapart

theorem Heap.Stands.up_right (hs : h.Stands t parent (.right l n e :: fs)) :
    parent = some e.1 ∧ ∃ q h', h e.1 = some ⟨n, e.2, l.ptr, q⟩ ∧
      h.putRchild e.1 t.ptr = some h' ∧ h'.Stands (.node l n e t) q fs ∧
      ∀ a, a ≠ e.1 → h' a = h a := by
  obtain ⟨ht, ⟨hparent, q, he, hl, hinv⟩, horder, hapart⟩ := hs
  simp only [before, after, addrs_append, addrs_cons, addrs_nil] at hapart
  have hother : ∀ (x : IpcTreeEntry κ β) a, a ≠ e.1 → update h e.1 (some x) a = h a :=
    fun x a ha => update_of_ne ha _ _
  refine ⟨hparent, q, update h e.1 (some ⟨n, e.2, l.ptr, t.ptr⟩), he, ?_,
    ⟨⟨?_, ?_, ?_⟩, ?_, ?_, ?_⟩, hother _⟩
  · rw [Heap.putRchild, he]
    rfl
  · exact update_self _ _ _
  · exact hl.congr fun a ha => hother _ a (by grind)
  · exact ht.congr fun a ha => hother _ a (by grind)
  · exact hinv.congr (fun a ha => hother _ a (by grind)) fun a ha => hother _ a (by grind)
  · simpa [before, after, TreeEntry.toList] using horder
  · simpa [TreeEntry.toList] using hapart

end

/-! ## What is left to do -/

section
variable [LinearOrder κ] [BoundedOrder κ] (visit : σ → κ → ℕ × β → Bool × σ)

/-- The rest of a traversal of a tree when its left subtree has become `l`. -/
def visitNode (l : TreeEntry κ (ℕ × β)) (n : κ) (e : ℕ × β) (r : TreeEntry κ (ℕ × β)) (s : σ) :
    TreeEntry κ (ℕ × β) × σ :=
  let (delete, s) := visit s n e
  let (r', s) := r.traverse visit s
  if delete = true then
    if l.isNull then (r', s)
    else if r.isNull then (l, s)
    else ((Walk.primLookup ⊤ ⟨l, [], []⟩).assemble.setRchild r', s)
  else (.node l n e r', s)

/-- The rest of a traversal when the current tree has become `t`. -/
def complete : List (Above κ β) → TreeEntry κ (ℕ × β) × σ → TreeEntry κ (ℕ × β) × σ
  | [], x => x
  | .left n e r :: fs, x => complete fs (visitNode visit x.1 n e r x.2)
  | .right l n e :: fs, x => complete fs (.node l n e x.1, x.2)

/-- Where the code stands when it returns: at the next entry, or with the tree put together again.
`kept` and `rest` are the entries that have stayed and those to come, `x` what the traversal makes
of the tree in the end, and no address but theirs has been written to since the heap `h`. -/
inductive Resumed (s : σ) (x : TreeEntry κ (ℕ × β) × σ) (h : Heap κ β)
    (kept rest : List (κ × ℕ × β)) : Option ℕ × Memory κ β → Prop
  | entry {m : Memory κ β} {l r : TreeEntry κ (ℕ × β)} {n : κ} {e : ℕ × β}
      {fs : List (Above κ β)} (hcurrent : m.splay.ltree = some e.1)
      (hstands : m.heap.Stands (.node l n e r) m.splay.rtree fs)
      (hx : complete visit fs (visitNode visit l n e r s) = x)
      (hkept : before fs ++ l.toList = kept) (hrest : (n, e) :: (r.toList ++ after fs) = rest)
      (hframe : ∀ a ∉ addrs (kept ++ rest), m.heap a = h a) :
      Resumed s x h kept rest (some e.1, m)
  | done {m : Memory κ β} {t : TreeEntry κ (ℕ × β)} (hroot : m.splay.root = t.ptr)
      (hholds : m.heap.Holds t) (hx : (t, s) = x) (hkept : t.toList = kept) (hrest : rest = [])
      (hframe : ∀ a ∉ addrs (kept ++ rest), m.heap a = h a) :
      Resumed s x h kept rest (none, m)

variable {visit} {s : σ} {x : TreeEntry κ (ℕ × β) × σ} {h h' : Heap κ β}
  {kept rest : List (κ × ℕ × β)} {out : Option ℕ × Memory κ β}

theorem Resumed.of_frame (hr : Resumed visit s x h' kept rest out)
    (hframe : ∀ a ∉ addrs (kept ++ rest), h' a = h a) : Resumed visit s x h kept rest out := by
  cases hr with
  | entry hcurrent hstands hx hkept hrest hf =>
    exact .entry hcurrent hstands hx hkept hrest fun a ha => (hf a ha).trans (hframe a ha)
  | done hroot hholds hx hkept hrest hf =>
    exact .done hroot hholds hx hkept hrest fun a ha => (hf a ha).trans (hframe a ha)

variable {t l r : TreeEntry κ (ℕ × β)} {n : κ} {e : ℕ × β} {parent : Option ℕ}
  {fs : List (Above κ β)}

variable (visit s) (splay : IpcSplayTree κ)

theorem traverseLeft_spec {bound current : ℕ} (hs : h.Stands t parent fs)
    (hcurrent : t.ptr = some current) (hbound : t.size ≤ bound) :
    ∃ out, traverseLeft splay bound h current parent = some out ∧
      Resumed visit s (complete visit fs (t.traverse visit s)) h (before fs)
        (t.toList ++ after fs) out := by
  induction t generalizing h current parent fs bound with
  | null => cases hcurrent
  | node l n e r ihl =>
    cases hcurrent
    obtain ⟨bound, rfl⟩ : ∃ b, bound = b + 1 := by
      simp only [TreeEntry.size] at hbound
      exact ⟨bound - 1, by omega⟩
    rw [traverseLeft, hs.holds.1, bind_some]
    cases l with
    | null =>
      refine ⟨_, rfl, .entry (l := .null) (e := e) rfl hs rfl ?_ ?_ fun _ _ => rfl⟩
      · simp [TreeEntry.toList]
      · simp [TreeEntry.toList]
    | node ll ln le lr =>
      obtain ⟨h', hput, hs', hframe⟩ := hs.down_left
      simp only [ptr_node, hput, bind_some]
      have hb : (node ll ln le lr).size ≤ bound := by
        simp only [TreeEntry.size] at hbound ⊢
        omega
      obtain ⟨out, hout, hr⟩ := ihl hs' rfl hb
      refine ⟨out, hout, ?_⟩
      have hlist : (node (.node ll ln le lr) n e r).toList ++ after fs =
          (node ll ln le lr).toList ++ after (.left n e r :: fs) := by
        simp [TreeEntry.toList, after]
      rw [hlist]
      refine Resumed.of_frame hr fun a ha => hframe a ?_
      rintro rfl
      simp [after] at ha

theorem traverseBack_spec {bound current : ℕ} (hs : h.Stands t parent fs)
    (hcurrent : t.ptr = some current) (hbound : fs.length < bound) :
    ∃ out, traverseBack splay bound h current parent = some out ∧
      Resumed visit s (complete visit fs (t, s)) h (before fs ++ t.toList) (after fs) out := by
  induction fs generalizing h current parent t bound with
  | nil =>
    obtain ⟨bound, rfl⟩ : ∃ b, bound = b + 1 := ⟨bound - 1, by omega⟩
    have hparent : parent = none := hs.inverted
    rw [hparent]
    exact ⟨_, rfl, .done hcurrent.symm hs.holds rfl rfl rfl fun _ _ => rfl⟩
  | cons f fs ih =>
    obtain ⟨bound, rfl⟩ : ∃ b, bound = b + 1 := ⟨bound - 1, by omega⟩
    cases t with
    | null => cases hcurrent
    | node tl tn te tr =>
    cases hcurrent
    have hte := hs.holds.1
    have horder := hs.order
    cases f with
    | left n e r =>
      obtain ⟨rfl, q, h', he, hput, hs', hframe⟩ := hs.up_left
      have hlt : tn < n := by
        simp only [after, TreeEntry.toList] at horder
        exact (increasing_append.mp (increasing_append.mp horder).2.1).2.2 (tn, te) (by simp)
          (n, e) (by simp)
      rw [traverseBack, hte, bind_some, he, bind_some]
      simp only [if_pos hlt]
      rw [show some te.1 = (node tl tn te tr).ptr from rfl, hput]
      refine ⟨_, rfl, .entry (e := e) rfl hs' rfl rfl rfl fun a ha => hframe a ?_⟩
      rintro rfl
      simp [after] at ha
    | right l n e =>
      obtain ⟨rfl, q, h', he, hput, hs', hframe⟩ := hs.up_right
      have hlt : n < tn := by
        simp only [before, TreeEntry.toList] at horder
        exact (increasing_append.mp horder).2.2 (n, e) (by simp) (tn, te) (by simp)
      rw [traverseBack, hte, bind_some, he, bind_some]
      simp only [if_neg (not_lt.mpr hlt.le)]
      rw [show some te.1 = (node tl tn te tr).ptr from rfl, hput, bind_some]
      obtain ⟨out, hout, hr⟩ := ih hs' rfl (Nat.lt_of_succ_lt_succ hbound)
      refine ⟨out, hout, ?_⟩
      have hlist : before (.right l n e :: fs) ++ (node tl tn te tr).toList =
          before fs ++ (node l n e (.node tl tn te tr)).toList := by
        simp [before, TreeEntry.toList]
      rw [hlist]
      refine Resumed.of_frame hr fun a ha => hframe a ?_
      rintro rfl
      simp [TreeEntry.toList] at ha

theorem traverseRight_spec {bound : ℕ} (hs : h.Stands (.node l n e r) parent fs)
    (hbound : r.size ≤ bound ∧ fs.length < bound) :
    ∃ out, traverseRight splay bound h e.1 parent = some out ∧ Resumed visit s
        (complete visit fs (.node l n e (r.traverse visit s).1, (r.traverse visit s).2)) h
        (before fs ++ (l.toList ++ [(n, e)])) (r.toList ++ after fs) out := by
  rw [traverseRight, hs.holds.1, bind_some]
  cases r with
  | null =>
    obtain ⟨out, hout, hr⟩ := traverseBack_spec visit s splay hs rfl hbound.2
    refine ⟨out, hout, ?_⟩
    simpa [TreeEntry.toList, TreeEntry.traverse] using hr
  | node rl rn re rr =>
    obtain ⟨h', hput, hs', hframe⟩ := hs.down_right
    simp only [ptr_node, hput, bind_some]
    obtain ⟨out, hout, hr⟩ := traverseLeft_spec visit s splay hs' rfl hbound.1
    refine ⟨out, hout, Resumed.of_frame hr fun a ha => hframe a ?_⟩
    rintro rfl
    simp at ha

omit [LinearOrder κ] [BoundedOrder κ] in
theorem TreeEntry.size_eq (t : TreeEntry κ β) : t.size = t.toList.length := by
  induction t with
  | null => rfl
  | node l n e r ihl ihr =>
    simp only [size, toList, length_append, length_cons, ihl, ihr]
    omega

omit [LinearOrder κ] [BoundedOrder κ] in
theorem length_le_above (fs : List (Above κ β)) :
    fs.length ≤ (before fs).length + (after fs).length := by
  induction fs with
  | nil => exact Nat.zero_le _
  | cons f fs ih =>
    cases f with
    | left n e r =>
      simp only [before, after, length_cons, length_append]
      omega
    | right l n e =>
      simp only [before, after, length_cons, length_append, length_nil]
      omega

omit [BoundedOrder κ] in
theorem Heap.Stands.free (hs : h.Stands (.node l n e r) parent fs) :
    ∃ h', h.free e.1 = some h' ∧ h' e.1 = none ∧ (∀ a, a ≠ e.1 → h' a = h a) ∧ h'.Holds l ∧
      h'.Holds r ∧ h'.Inverted parent fs := by
  obtain ⟨⟨he, hl, hr⟩, hinv, -, hapart⟩ := hs
  simp only [TreeEntry.toList, addrs_append, addrs_cons] at hapart
  have hother : ∀ a, a ≠ e.1 → update h e.1 none a = h a :=
    fun a ha => update_of_ne ha _ _
  refine ⟨update h e.1 none, ?_, update_self _ _ _, hother,
    hl.congr fun a ha => hother a (by grind), hr.congr fun a ha => hother a (by grind),
    hinv.congr (fun a ha => hother a (by grind)) fun a ha => hother a (by grind)⟩
  rw [Heap.free, he]
  rfl

omit [BoundedOrder κ] in
theorem Heap.Stands.smaller (hs : h.Stands t parent fs) {t' : TreeEntry κ (ℕ × β)}
    (hholds : h'.Holds t') (hinv : h'.Inverted parent fs) (hsub : t'.toList.Sublist t.toList) :
    h'.Stands t' parent fs := by
  have hlist := (hsub.append_right (after fs)).append_left (before fs)
  exact ⟨hholds, hinv, hs.order.sublist hlist, hs.apart.sublist (hlist.map _)⟩

/-- Where the entry has been deleted, `h'` is the memory without it. -/
structure Freed (m : Memory κ β) (e : ℕ × β) (delete : Bool) (h' : Heap κ β) : Prop where
  other : ∀ a, a ≠ e.1 → h' a = m.heap a
  freed : delete = true → h' e.1 = none

variable {m : Memory κ β} {bound : ℕ}

theorem traverseNext_leaf (hcurrent : m.splay.ltree = some e.1)
    (hs : m.heap.Stands (.node .null n e .null) m.splay.rtree fs) (hbound : fs.length < bound) :
    ∃ h' out, Freed m e true h' ∧ m.traverseNext bound true = some out ∧
      Resumed visit s (complete visit fs (.null, s)) h' (before fs) (after fs) out := by
  obtain ⟨h', hfree, hnone, hother, -, -, hinv⟩ := hs.free
  have hs' : h'.Stands .null m.splay.rtree fs :=
    hs.smaller trivial hinv (nil_sublist _)
  refine ⟨h', ?_⟩
  rw [Memory.traverseNext, hcurrent, bind_some, if_neg (by simp), hs.holds.1, bind_some]
  simp only [ptr_null]
  cases fs with
  | nil =>
    have hparent : m.splay.rtree = none := hs.inverted
    simp only [hparent, hfree, map_some]
    exact ⟨_, ⟨hother, fun _ => hnone⟩, rfl,
      .done (t := .null) rfl trivial rfl rfl rfl fun _ _ => rfl⟩
  | cons f fs =>
    have horder := hs.order
    have hapart := hs.apart
    cases f with
    | left n₀ e₀ r₀ =>
      obtain ⟨hparent, q, h'', he₀, hput, hs'', hframe⟩ := hs'.up_left
      simp only [after, TreeEntry.toList, addrs_append, addrs_cons, addrs_nil] at horder hapart
      have hlt : n < n₀ := by
        exact (increasing_append.mp (increasing_append.mp horder).2.1).2.2 (n, e) (by simp)
          (n₀, e₀) (by simp)
      have hne : e₀.1 ≠ e.1 := by grind
      simp only [hparent, ← hother _ hne, he₀, bind_some, if_pos hlt, hfree]
      rw [show none = (null : TreeEntry κ (ℕ × β)).ptr from rfl, hput]
      refine ⟨_, ⟨hother, fun _ => hnone⟩, rfl, .entry (e := e₀) rfl hs'' rfl ?_ rfl
        fun a ha => hframe a ?_⟩
      · simp [before, TreeEntry.toList]
      · rintro rfl
        simp [after] at ha
    | right l₀ n₀ e₀ =>
      obtain ⟨hparent, q, h'', he₀, hput, hs'', hframe⟩ := hs'.up_right
      simp only [before, TreeEntry.toList, addrs_append, addrs_cons, addrs_nil] at horder hapart
      have hlt : n₀ < n :=
        (increasing_append.mp horder).2.2 (n₀, e₀) (by simp) (n, e) (by simp)
      have hne : e₀.1 ≠ e.1 := by grind
      obtain ⟨out, hout, hr⟩ := traverseBack_spec visit s m.splay hs'' rfl
        (Nat.lt_of_succ_lt hbound)
      simp only [hparent, ← hother _ hne, he₀, bind_some, if_neg (not_lt.mpr hlt.le), hfree]
      rw [show none = (null : TreeEntry κ (ℕ × β)).ptr from rfl, hput, bind_some]
      have hlist : before (.right l₀ n₀ e₀ :: fs) =
          before fs ++ (node l₀ n₀ e₀ .null).toList := by
        simp [before, TreeEntry.toList]
      refine ⟨out, ⟨hother, fun _ => hnone⟩, hout, ?_⟩
      rw [hlist]
      refine Resumed.of_frame hr fun a ha => hframe a ?_
      rintro rfl
      simp [TreeEntry.toList] at ha

/-- An entry with children on both sides is deleted: the largest entry on its left takes its
place, and the traversal goes on to the right. -/
theorem traverseNext_replaced {ll lr rl rr : TreeEntry κ (ℕ × β)} {ln rn : κ} {le re : ℕ × β}
    (hcurrent : m.splay.ltree = some e.1)
    (hs : m.heap.Stands (.node (.node ll ln le lr) n e (.node rl rn re rr)) m.splay.rtree fs)
    (hbound : (node ll ln le lr).size < bound ∧
      (node rl rn re rr).size ≤ bound ∧ fs.length < bound) :
    ∃ h' out, Freed m e true h' ∧ m.traverseNext bound true = some out ∧
      Resumed visit s (complete visit fs
        ((Walk.primLookup ⊤ ⟨.node ll ln le lr, [], []⟩).assemble.setRchild
          ((node rl rn re rr).traverse visit s).1,
          ((node rl rn re rr).traverse visit s).2))
        h' (before fs ++ (node ll ln le lr).toList)
        ((node rl rn re rr).toList ++ after fs) out := by
  set l := node ll ln le lr with hl
  set r := node rl rn re rr with hr
  have hapart := hs.apart
  have horder := hs.order
  simp only [TreeEntry.toList, addrs_append, addrs_cons] at hapart horder
  have hlookup : Lookup.Holds ⟨m.heap, le.1, none, .variable, none, .variable⟩ ⟨l, [], []⟩ :=
    ⟨rfl, hs.holds.2.1, ⟨none, rfl⟩, rfl, ⟨none, rfl⟩, rfl, by
      simp only [Walk.toList, leftList, rightList, nil_append, append_nil]
      grind⟩
  obtain ⟨s₁, hprim, hstep⟩ := Lookup.primLookup_spec hlookup ⊤ hbound.1
  obtain ⟨s₂, hassemble, htree, hholds, hptr, hframe⟩ := Lookup.primAssemble_spec hstep.holds
  have hinc : Increasing l.toList :=
    (increasing_append.mp (increasing_append.mp (increasing_append.mp horder).2.1).1).1
  obtain ⟨hsettled, hlist⟩ := primLookup_assembled (⊤ : κ) hinc rfl
  obtain ⟨al, an, ae, hassembled⟩ := SplayTree.assemble_top hsettled
  have hal : al.toList ++ [(an, ae)] = l.toList := by
    obtain ⟨_, _, _, _, hroot, -⟩ := hsettled.root
    rw [← hlist, ← toList_assemble (by rw [hroot]; rfl), hassembled]
    rfl
  have haddrs : ∀ a, a ∈ addrs al.toList ∨ a = ae.1 ↔ a ∈ addrs l.toList := by
    intro a
    rw [← hal]
    simp
  rw [hassembled] at hholds hptr ⊢
  obtain ⟨hae, halh, -⟩ := hholds
  have htree₂ : s₂.tree = ae.1 := htree.trans (some.inj hptr).symm
  have hwalk : Walk.toList ⟨l, [], []⟩ = l.toList := by simp [Walk.toList, leftList, rightList]
  have hother : ∀ a ∉ addrs l.toList, s₂.heap a = m.heap a := fun a ha =>
    (hframe a (by rwa [hlist])).trans (hstep.frame a (by rwa [hwalk]))
  have he₂ : s₂.heap e.1 = some ⟨n, e.2, l.ptr, r.ptr⟩ :=
    (hother _ (by grind)).trans hs.holds.1
  have hne : ae.1 ≠ e.1 := by grind
  -- the memory when the new entry has taken the right child and the old one is gone
  set h' : Heap κ β := update (update s₂.heap ae.1
    (some ⟨an, ae.2, al.ptr, r.ptr⟩)) e.1 none with hh'
  have hh'_other : ∀ a, a ≠ ae.1 → a ≠ e.1 → h' a = s₂.heap a := fun a ha ha' => by
    rw [hh', update_of_ne ha', update_of_ne ha]
  have hmem : ∀ a ∉ addrs l.toList, a ≠ e.1 → h' a = m.heap a := fun a ha ha' =>
    (hh'_other a (fun h => ha ((haddrs a).mp (.inr h))) ha').trans (hother a ha)
  have hapart' : (addrs l.toList).Nodup := by grind
  rw [← hal, addrs_append, addrs_cons, addrs_nil] at hapart'
  have hs' : h'.Stands (.node al an ae r) m.splay.rtree fs := by
    refine hs.smaller ⟨?_, ?_, ?_⟩ ?_ ?_
    · rw [hh', update_of_ne hne, update_self]
    · exact halh.congr fun a ha => hh'_other a (by grind) (by grind)
    · exact hs.holds.2.2.congr fun a ha => hmem a (by grind) (by grind)
    · exact hs.inverted.congr (fun a ha => hmem a (by grind) (by grind))
        fun a ha => hmem a (by grind) (by grind)
    · simp only [TreeEntry.toList]
      rw [show al.toList ++ (an, ae) :: r.toList = l.toList ++ r.toList by rw [← hal]; simp]
      exact (sublist_cons_self _ _).append_left _
  obtain ⟨out, hout, hresumed⟩ := traverseRight_spec visit s m.splay hs' hbound.2
  rw [hal] at hresumed
  refine ⟨update m.heap e.1 none, out, ⟨fun a ha => update_of_ne ha _ _,
    fun _ => update_self _ _ _⟩, ?_, Resumed.of_frame hresumed fun a ha => ?_⟩
  · have hlp : l.ptr = some le.1 := rfl
    have hrp : r.ptr = some re.1 := rfl
    rw [Memory.traverseNext, hcurrent, bind_some, if_neg (by simp), hs.holds.1, bind_some]
    simp only [hlp, hrp, hprim, bind_some, hassemble, he₂, htree₂, Heap.putRchild, hae,
      map_some, Heap.free, update_of_ne hne.symm]
    exact hout
  · simp only [addrs_append, mem_append, not_or] at ha
    by_cases hae' : a = e.1
    · rw [hae', hh', update_self, update_self]
    · rw [hmem a ha.1.2 hae', update_of_ne hae']

variable {visit s}

/-- One call of `ipc_splay_traverse_next` keeps or deletes the current entry and comes to the next
one, or to the end. -/
theorem traverseNext_spec {delete : Bool} {s' : σ} (hcurrent : m.splay.ltree = some e.1)
    (hs : m.heap.Stands (.node l n e r) m.splay.rtree fs)
    (hbound : (before fs ++ ((node l n e r).toList ++ after fs)).length < bound)
    (hvisit : visit s n e = (delete, s')) :
    ∃ h' out, Freed m e delete h' ∧ m.traverseNext bound delete = some out ∧
      Resumed visit s' (complete visit fs (visitNode visit l n e r s)) h'
        (before fs ++ (l.toList ++ if delete = true then [] else [(n, e)]))
        (r.toList ++ after fs) out := by
  have hlength := length_le_above fs
  simp only [TreeEntry.toList, length_append, length_cons] at hbound
  have hl := l.size_eq
  have hr := r.size_eq
  cases delete with
  | false =>
    obtain ⟨out, hout, hresumed⟩ := traverseRight_spec visit s' m.splay hs
      (show r.size ≤ bound ∧ fs.length < bound by omega)
    refine ⟨m.heap, out, ⟨fun _ _ => rfl, fun hd => by cases hd⟩, ?_, ?_⟩
    · rw [Memory.traverseNext, hcurrent, bind_some, if_pos rfl]
      exact hout
    · have hx : visitNode visit l n e r s =
          (.node l n e (r.traverse visit s').1, (r.traverse visit s').2) := by
        simp [visitNode, hvisit]
      rw [hx]
      exact hresumed
  | true =>
    have hx : visitNode visit l n e r s = (if l.isNull then r.traverse visit s'
        else if r.isNull then (l, (r.traverse visit s').2)
        else ((Walk.primLookup ⊤ ⟨l, [], []⟩).assemble.setRchild (r.traverse visit s').1,
          (r.traverse visit s').2)) := by
      simp [visitNode, hvisit]
    have hnull : (null : TreeEntry κ (ℕ × β)).isNull = true := rfl
    rw [hx, if_pos rfl, append_nil]
    cases l with
    | null =>
      rw [if_pos hnull]
      cases r with
      | null =>
        obtain ⟨h', out, hfreed, hout, hresumed⟩ := traverseNext_leaf visit s' hcurrent hs
          (show fs.length < bound by omega)
        refine ⟨h', out, hfreed, hout, ?_⟩
        simpa [TreeEntry.toList, TreeEntry.traverse] using hresumed
      | node rl rn re rr =>
        obtain ⟨h', hfree, hnone, hother, -, hright, hinv⟩ := hs.free
        have hs' : h'.Stands (.node rl rn re rr) m.splay.rtree fs :=
          hs.smaller hright hinv
            ((sublist_cons_self _ _).trans (sublist_append_right _ _))
        obtain ⟨out, hout, hresumed⟩ := traverseLeft_spec visit s' m.splay hs' rfl
          (show (node rl rn re rr).size ≤ bound by omega)
        refine ⟨h', out, ⟨hother, fun _ => hnone⟩, ?_, by simpa [TreeEntry.toList] using hresumed⟩
        rw [Memory.traverseNext, hcurrent, bind_some, if_neg (by simp), hs.holds.1, bind_some]
        simp only [ptr_null, ptr_node, hfree, bind_some]
        exact hout
    | node ll ln le lr =>
      rw [if_neg (by simp [TreeEntry.isNull])]
      cases r with
      | null =>
        rw [if_pos hnull]
        obtain ⟨h', hfree, hnone, hother, hleft, -, hinv⟩ := hs.free
        have hs' : h'.Stands (.node ll ln le lr) m.splay.rtree fs :=
          hs.smaller hleft hinv (sublist_append_left _ _)
        obtain ⟨out, hout, hresumed⟩ := traverseBack_spec visit s' m.splay hs' rfl
          (show fs.length < bound by omega)
        refine ⟨h', out, ⟨hother, fun _ => hnone⟩, ?_, ?_⟩
        · rw [Memory.traverseNext, hcurrent, bind_some, if_neg (by simp), hs.holds.1, bind_some]
          simp only [ptr_null, ptr_node, hfree, bind_some]
          exact hout
        · simpa [TreeEntry.traverse, TreeEntry.toList] using hresumed
      | node rl rn re rr =>
        rw [if_neg (by simp [TreeEntry.isNull])]
        exact traverseNext_replaced visit s' hcurrent hs (by omega)

end

/-! ## From start to finish -/

section
variable [LinearOrder κ] [BoundedOrder κ] {visit : σ → κ → ℕ × β → Bool × σ} {s : σ}
  {h h' : Heap κ β} {m : Memory κ β} {l l' : List (κ × ℕ × β)}

/-- Entries of the list have been freed: those that are not in the list `l'` any more. -/
structure Frees (h : Heap κ β) (l : List (κ × ℕ × β)) (h' : Heap κ β) (l' : List (κ × ℕ × β)) :
    Prop where
  frame : ∀ a ∉ addrs l, h' a = h a
  gone : ∀ a ∈ addrs l, a ∉ addrs l' → h' a = none
  sublist : l'.Sublist l

theorem traverseLoop_spec {x : TreeEntry κ (ℕ × β) × σ} {kept rest : List (κ × ℕ × β)}
    {out : Option ℕ × Memory κ β} {bound : ℕ} (n : ℕ) (hr : Resumed visit s x h kept rest out)
    (hn : rest.length ≤ n) (hbound : (kept ++ rest).length < bound) :
    ∃ m, traverseLoop visit bound n out s = some (m, x.2) ∧ m.splay.root = x.1.ptr ∧
      m.heap.Holds x.1 ∧ Frees h (kept ++ rest) m.heap x.1.toList := by
  induction n generalizing s kept rest out h with
  | zero =>
    cases hr with
    | entry _ _ _ _ hrest => simp [← hrest] at hn
    | @done m t hroot hholds hx hkept hrest hframe =>
      subst hx hkept hrest
      refine ⟨m, by rw [traverseLoop], hroot, hholds, hframe, fun a ha hno => ?_, ?_⟩
      · exact absurd (by simpa using ha) hno
      · rw [append_nil]
  | succ k ih =>
    cases hr with
    | @done m t hroot hholds hx hkept hrest hframe =>
      subst hx hkept hrest
      refine ⟨m, by rw [traverseLoop], hroot, hholds, hframe, fun a ha hno => ?_, ?_⟩
      · exact absurd (by simpa using ha) hno
      · rw [append_nil]
    | @entry m l r n e fs hcurrent hstands hx hkept hrest hframe =>
      have hlist : before fs ++ ((node l n e r).toList ++ after fs) = kept ++ rest := by
        rw [← hkept, ← hrest]
        simp [TreeEntry.toList]
      obtain ⟨h', out, hfreed, hout, hnext⟩ := traverseNext_spec hcurrent hstands (hlist ▸ hbound)
        (show visit s n e = ((visit s n e).1, (visit s n e).2) from rfl)
      set kept' := before fs ++ (l.toList ++ if (visit s n e).1 = true then [] else [(n, e)])
        with hkept'
      set rest' := r.toList ++ after fs with hrest'
      have hsub : (kept' ++ rest').Sublist (kept ++ rest) := by
        rw [← hkept, ← hrest, hkept', append_assoc, append_assoc, append_assoc]
        refine List.Sublist.append_left (List.Sublist.append_left ?_ _) _
        split_ifs
        · exact sublist_cons_self _ _
        · exact List.Sublist.refl _
      have hgone : ∀ a ∈ addrs (kept ++ rest), a ∉ addrs (kept' ++ rest') →
          a = e.1 ∧ (visit s n e).1 = true := by
        intro a ha hno
        rw [← hkept, ← hrest] at ha
        simp only [hkept', addrs_append, addrs_cons, mem_append, mem_cons, not_or] at ha hno
        cases hdelete : (visit s n e).1 with
        | true => exact ⟨by tauto, rfl⟩
        | false =>
          simp only [hdelete, Bool.false_eq_true, if_false, addrs_cons, addrs_nil,
            mem_singleton] at hno
          tauto
      have hmem : e.1 ∈ addrs (kept ++ rest) := by
        rw [← hrest]
        simp
      have hkeep : ∀ a ∉ addrs (kept' ++ rest'), a ≠ e.1 → a ∉ addrs (kept ++ rest) :=
        fun a hno hne ha => hne (hgone a ha hno).1
      rw [hx] at hnext
      obtain ⟨m', hloop, hroot, hholds, hfrees⟩ := ih hnext
        (by rw [← hrest] at hn; exact Nat.le_of_succ_le_succ hn) (hsub.length_le.trans_lt hbound)
      refine ⟨m', ?_, hroot, hholds, fun a ha => ?_, fun a ha hno => ?_, hfrees.sublist.trans hsub⟩
      · rw [traverseLoop, hstands.holds.1, bind_some, hout, bind_some]
        exact hloop
      · have ha' : a ∉ addrs (kept' ++ rest') := fun h => ha ((hsub.map _).subset h)
        have hne : a ≠ e.1 := fun h => ha (h ▸ hmem)
        exact (hfrees.frame a ha').trans ((hfreed.other a hne).trans (hframe a ha))
      · by_cases ha' : a ∈ addrs (kept' ++ rest')
        · exact hfrees.gone a ha' hno
        · obtain ⟨rfl, hdelete⟩ := hgone a ha ha'
          exact (hfrees.frame _ ha').trans (hfreed.freed hdelete)

/-- A splay tree lies in memory. -/
structure Memory.Holds (m : Memory κ β) (t : SplayTree κ (ℕ × β)) : Prop where
  empty : t.root.isNull = true → m.splay.root = none
  walk : t.root.isNull = false → m.splay.name = t.name ∧ ∃ root, m.splay.root = some root ∧
    Lookup.Holds ⟨m.heap, root, m.splay.ltree, m.splay.ltreep, m.splay.rtree, m.splay.rtreep⟩ t.walk

omit [LinearOrder κ] [BoundedOrder κ] in
theorem Memory.Holds.finish {t : TreeEntry κ (ℕ × β)} (hroot : m.splay.root = t.ptr)
    (hholds : m.heap.Holds t) (hapart : (addrs t.toList).Nodup) (junk : κ) :
    ∃ m', m.traverseFinish = some m' ∧ m'.heap = m.heap ∧ m'.Holds (.ofRoot junk t) := by
  unfold traverseFinish
  rw [hroot]
  cases t with
  | null => exact ⟨m, rfl, rfl, fun _ => hroot, nofun⟩
  | node l n e r =>
    simp only [ptr_node, hholds.1, map_some]
    refine ⟨_, rfl, rfl, nofun, fun _ =>
      ⟨rfl, e.1, hroot, rfl, hholds, ⟨_, rfl⟩, rfl, ⟨_, rfl⟩, rfl, ?_⟩⟩
    simpa [SplayTree.walk, SplayTree.ofRoot, Walk.toList, leftList, rightList] using hapart

variable (visit s) in
theorem Memory.Holds.traverse {t : SplayTree κ (ℕ × β)} (hm : m.Holds t) (hok : t.Ok)
    {bound : ℕ} (hbound : t.toList.length < bound) :
    ∃ m', m.traverse visit bound s = some (m', (t.traverse visit s).2) ∧
      m'.Holds (t.traverse visit s).1 ∧
      Frees m.heap t.toList m'.heap (t.traverse visit s).1.toList := by
  unfold Memory.traverse SplayTree.traverse
  cases hroot : t.root with
  | null =>
    have hn : t.root.isNull = true := by rw [hroot]; rfl
    have hnone := hm.empty hn
    refine ⟨m, ?_, hm, fun _ _ => rfl, ?_, ?_⟩
    · rw [traverseStart, hnone, bind_some, traverseLoop, bind_some, traverseFinish, hnone]
      rfl
    · rw [SplayTree.toList_of_null hn]
      nofun
    · exact List.Sublist.refl _
  | node l₀ n₀ e₀ r₀ =>
    have hn : t.root.isNull = false := by rw [hroot]; rfl
    obtain ⟨hname, root, hsome, hlookup⟩ := hm.walk hn
    obtain ⟨s₁, hassemble, htree, hholds, hptr, hframe⟩ := Lookup.primAssemble_spec hlookup
    have hlist : t.walk.assemble.toList = t.toList := by
      rw [SplayTree.toList_of_not_null hn]
      exact toList_assemble hn
    have happ : t.walk.toList = t.toList := (SplayTree.toList_of_not_null hn).symm
    have hapart := hlookup.apart
    rw [happ] at hapart hframe
    have hs : s₁.heap.Stands t.walk.assemble none [] := by
      refine ⟨hholds, rfl, ?_, ?_⟩
      · simpa [before, after, hlist] using hok.increasing
      · simpa [before, after, hlist] using hapart
    obtain ⟨out, hout, hresumed⟩ := traverseLeft_spec visit s
      { m.splay with ltree := s₁.ltree, rtree := s₁.rtree } hs hptr
      (show t.walk.assemble.size ≤ bound by rw [size_eq, hlist]; exact hbound.le)
    simp only [before, after, complete, append_nil, hlist] at hresumed
    obtain ⟨m', hloop, hroot', hholds', hfrees⟩ := traverseLoop_spec bound hresumed hbound.le
      (by simpa using hbound)
    rw [nil_append] at hfrees
    obtain ⟨m'', hfinish, hheap, hm''⟩ := Memory.Holds.finish hroot' hholds'
      (hapart.sublist (hfrees.sublist.map _)) t.name
    refine ⟨m'', ?_, hm'', ?_⟩
    · rw [traverseStart, hsome]
      simp only [hassemble, bind_some, hout, hloop, hfinish, map_some]
    · rw [hheap]
      refine ⟨fun a ha => (hfrees.frame a ha).trans (hframe a ha), ?_, ?_⟩
      · simpa [SplayTree.toList_ofRoot] using hfrees.gone
      · simpa [SplayTree.toList_ofRoot] using hfrees.sublist

/-- A caller that writes down the entries it is given and deletes those whose turn is chosen. -/
def choosing (choice : ℕ → Bool) (visited : List (κ × ℕ × β)) (n : κ) (e : ℕ × β) :
    Bool × List (κ × ℕ × β) := (choice visited.length, visited ++ [(n, e)])

omit [LinearOrder κ] [BoundedOrder κ] in
theorem visitList_choosing (choice : ℕ → Bool) (l visited : List (κ × ℕ × β)) :
    visitList (choosing choice) l visited =
      (((l.zipIdx visited.length).filter fun p => choice p.2 = false).map Prod.fst,
        visited ++ l) := by
  induction l generalizing visited with
  | nil => simp [visitList]
  | cons p l ih =>
    simp only [visitList, choosing, ih, zipIdx_cons, filter_cons]
    cases choice visited.length <;> simp

theorem TreeEntry.traverse_kept (hvisit : ∀ s n e, (visit s n e).1 = false)
    (t : TreeEntry κ (ℕ × β)) (s : σ) : (t.traverse visit s).1 = t := by
  induction t generalizing s with
  | null => rfl
  | node l n e r ihl ihr =>
    simp only [traverse, hvisit, ihl, ihr, Bool.false_eq_true, if_false]

/-- Whichever entries are deleted, the traversal ends, has come to every entry once and in order,
and leaves the tree with the entries kept, the links restored; without deletions it is the tree
assembled. -/
theorem ipcSplayTraverse_visits {t : SplayTree κ (ℕ × β)} (hm : m.Holds t) (hok : t.Ok)
    (choice : ℕ → Bool) {bound : ℕ} (hbound : t.toList.length < bound) :
    Increasing t.toList ∧ ∃ m' t', m.traverse (choosing choice) bound [] = some (m', t.toList) ∧
      m'.Holds t' ∧ t'.Ok ∧
      t'.toList = (t.toList.zipIdx.filter fun p => choice p.2 = false).map Prod.fst ∧
      Frees m.heap t.toList m'.heap t'.toList ∧
      ((∀ i, choice i = false) → t.root.isNull = false → t' = .ofRoot t.name t.walk.assemble) := by
  obtain ⟨m', hrun, hm', hfrees⟩ := hm.traverse (choosing choice) [] hok hbound
  obtain ⟨hok', hlist, hstate⟩ := hok.traverse (choosing choice) []
  rw [visitList_choosing] at hlist hstate
  rw [hstate] at hrun
  refine ⟨hok.increasing, m', _, hrun, hm', hok', hlist, hfrees, fun hkeep hn => ?_⟩
  unfold SplayTree.traverse
  cases hroot : t.root with
  | null =>
    rw [hroot] at hn
    cases hn
  | node =>
    simp only
    rw [TreeEntry.traverse_kept fun _ _ _ => hkeep _]

end

/-! ## A tree of three entries -/

/-- Entries 1, 2 and 3 after a lookup for 2; the places where the side trees are open hold what a
lookup happens to leave there. -/
def threeEntries : Memory (Fin 8) Unit where
  heap
    | 10 => some ⟨1, (), none, some 20⟩
    | 20 => some ⟨2, (), none, none⟩
    | 30 => some ⟨3, (), some 20, none⟩
    | _ => none
  splay := ⟨2, some 20, some 10, .rchild 10, some 30, .lchild 30⟩

def threeTree : SplayTree (Fin 8) (ℕ × Unit) where
  name := 2
  root := .node .null 2 (20, ()) .null
  left := [⟨.null, 1, (10, ())⟩]
  right := [⟨3, (30, ()), .null⟩]

theorem threeEntries_holds : threeEntries.Holds threeTree where
  empty := nofun
  walk _ := ⟨rfl, 20, rfl, rfl, ⟨rfl, trivial, trivial⟩, ⟨_, rfl, trivial, rfl⟩, rfl,
    ⟨_, rfl, trivial, rfl⟩, rfl, by decide⟩

theorem threeTree_ok : threeTree.Ok where
  settled _ := ⟨⟨by unfold Increasing; decide, by decide, by decide⟩, .null, 2, (20, ()), .null,
    rfl, .inl rfl⟩

theorem ipcSplayTraverse_visits_three :
    ∃ m' t', threeEntries.traverse (choosing fun i => i = 1) 4 [] =
        some (m', [(1, 10, ()), (2, 20, ()), (3, 30, ())]) ∧
      m'.Holds t' ∧ t'.toList = [(1, 10, ()), (3, 30, ())] := by
  obtain ⟨-, m', t', hrun, hm', -, hlist, -, -⟩ :=
    ipcSplayTraverse_visits threeEntries_holds threeTree_ok (fun i => i = 1) (by decide : 3 < 4)
  exact ⟨m', t', hrun, hm', hlist⟩

end MachKernel.Ipc
