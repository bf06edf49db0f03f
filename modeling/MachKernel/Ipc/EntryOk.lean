import MachKernel.Ipc.Entry

/-! What the operations on the entries of a space keep. -/

namespace MachKernel.Ipc
open Assoc Function

/-! ## Names -/

namespace MachPort

theorem index_le (n : MachPort) : n.index ≤ 2 ^ 24 - 1 := by
  have := n.isLt
  unfold index
  omega

theorem val_eq (n : MachPort) : n.val = n.index * 256 + n.gen.val := by
  have hgen : n.gen.val = n.val % 256 := rfl
  rw [hgen, index]
  omega

variable {n n' : MachPort}

theorem ext (hi : n.index = n'.index) (hg : n.gen = n'.gen) : n = n' := by
  apply Fin.ext
  rw [val_eq, val_eq n', hi, hg]

theorem index_mono (h : n ≤ n') : n.index ≤ n'.index :=
  Nat.div_le_div_right h

theorem lt_of_index_lt (h : n.index < n'.index) : n < n' :=
  not_le.mp fun hle => absurd (index_mono hle) (not_le.mpr h)

variable {i : ℕ} {g : Fin 256}

theorem val_make (hi : i ≤ 2 ^ 24 - 1) : (make i g).val = i * 256 + g.val := by
  have := g.isLt
  exact Nat.mod_eq_of_lt (by omega)

theorem index_make (hi : i ≤ 2 ^ 24 - 1) : (make i g).index = i := by
  have := g.isLt
  rw [index, val_make hi]
  omega

theorem gen_make (hi : i ≤ 2 ^ 24 - 1) : (make i g).gen = g := by
  have hg := g.isLt
  apply Fin.ext
  have hgen : (make i g).gen.val = (make i g).val % 256 := rfl
  rw [hgen, val_make hi]
  omega

theorem lt_make (n : MachPort) (hi : i ≤ 2 ^ 24 - 1) : n < make i 0 ↔ n.index < i := by
  have hlt : n < make i 0 ↔ n.val < (make i 0).val := Iff.rfl
  rw [hlt, val_make hi, index]
  have : ((0 : Fin 256) : ℕ) = 0 := rfl
  omega

theorem index_bot : (⊥ : MachPort).index = 0 := rfl

theorem index_top : (⊤ : MachPort).index = 2 ^ 24 - 1 := rfl

end MachPort

/-! ## Trees with their maps -/

/-- Some name of the map has the index. -/
def Collides {β : Type*} (tm : MachPort → Option β) (i : ℕ) : Prop := ∃ n, tm n ≠ none ∧ n.index = i

/-- The indices in a range that some name of the map has. -/
def smallIndices {β : Type*} (tm : MachPort → Option β) (lo hi : ℕ) : Set ℕ :=
  {i | lo ≤ i ∧ i < hi ∧ Collides tm i}

section
variable {β : Type*} {tm tm' : MachPort → Option β} {lo hi i : ℕ} {name : MachPort}

theorem collides_congr (h : ∀ n, n.index = i → (tm' n = none ↔ tm n = none)) :
    Collides tm' i ↔ Collides tm i := by
  constructor
  · rintro ⟨n, hn, hi⟩
    exact ⟨n, fun hnone => hn ((h n hi).mpr hnone), hi⟩
  · rintro ⟨n, hn, hi⟩
    exact ⟨n, fun hnone => hn ((h n hi).mp hnone), hi⟩

theorem collides_update {o : Option β} (hi : i ≠ name.index) :
    Collides (update tm name o) i ↔ Collides tm i := by
  refine collides_congr fun n hn => ?_
  have hne : n ≠ name := by
    rintro rfl
    exact hi hn.symm
  rw [update_of_ne hne]

theorem collides_insert {e : β} : Collides (update tm name (some e)) name.index :=
  ⟨name, by simp, rfl⟩

theorem smallIndices_finite (tm : MachPort → Option β) (lo hi : ℕ) :
    (smallIndices tm lo hi).Finite :=
  (Set.finite_Ico lo hi).subset fun _ hi => ⟨hi.1, hi.2.1⟩

theorem smallIndices_congr (h : ∀ i, lo ≤ i → i < hi → (Collides tm' i ↔ Collides tm i)) :
    smallIndices tm' lo hi = smallIndices tm lo hi := by
  ext i
  constructor
  · exact fun hi => ⟨hi.1, hi.2.1, (h i hi.1 hi.2.1).mp hi.2.2⟩
  · exact fun hi => ⟨hi.1, hi.2.1, (h i hi.1 hi.2.1).mpr hi.2.2⟩

theorem ncard_smallIndices_insert (hother : ∀ j, j ≠ i → (Collides tm' j ↔ Collides tm j))
    (hin : lo ≤ i ∧ i < hi) (hc' : Collides tm' i) (hc : ¬ Collides tm i) :
    (smallIndices tm' lo hi).ncard = (smallIndices tm lo hi).ncard + 1 := by
  have hset : smallIndices tm' lo hi = insert i (smallIndices tm lo hi) := by
    ext j
    rcases eq_or_ne j i with rfl | hne
    · exact ⟨fun _ => .inl rfl, fun _ => ⟨hin.1, hin.2, hc'⟩⟩
    · constructor
      · exact fun hj => .inr ⟨hj.1, hj.2.1, (hother j hne).mp hj.2.2⟩
      · rintro (hj | hj)
        · exact absurd hj hne
        · exact ⟨hj.1, hj.2.1, (hother j hne).mpr hj.2.2⟩
  rw [hset, Set.ncard_insert_of_notMem (fun hi => hc hi.2.2) (smallIndices_finite tm lo hi)]

end

/-- The tree is in order and has the entries of the map, so many. -/
structure Holds {β : Type*} (t : SplayTree MachPort β) (tm : MachPort → Option β) (k : ℕ) : Prop where
  ok : t.Ok
  get_eq : ∀ n, get t.toList n = tm n
  length : t.toList.length = k

namespace Holds
variable {β : Type*} {t small : SplayTree MachPort β} {tm tm' : MachPort → Option β} {k k' : ℕ}
  {name : MachPort}

theorem init (t : SplayTree MachPort β) : Holds t.init (fun _ => none) 0 :=
  ⟨⟨fun hn => by cases hn⟩, fun _ => rfl, rfl⟩

theorem insert (h : Holds t tm k) (hfresh : tm name = none) (e : β) :
    Holds (t.insert name e) (update tm name (some e)) (k + 1) := by
  obtain ⟨hok, pre, post, hlist, hpre, hpost, hlist'⟩ := h.ok.insert ((h.get_eq name).trans hfresh) e
  refine ⟨hok, fun n => ?_, ?_⟩
  · rw [hlist']
    rcases eq_or_ne n name with rfl | hne
    · rw [update_self, get_middle hpre _ rfl]
    · rw [update_of_ne hne, ← h.get_eq, hlist, get_append, get_append, get_cons, if_neg hne.symm]
  · have hlen := h.length
    rw [hlist, List.length_append] at hlen
    rw [hlist', List.length_append, List.length_cons]
    omega

theorem delete (h : Holds t tm k) (hin : tm name ≠ none) :
    0 < k ∧ Holds (t.delete name) (update tm name none) (k - 1) := by
  obtain ⟨hok, pre, v, post, hlist, hlist'⟩ := h.ok.delete (h.get_eq name ▸ hin)
  have hlen := h.length
  rw [hlist, List.length_append, List.length_cons] at hlen
  refine ⟨by omega, hok, fun n => ?_, ?_⟩
  · rw [hlist']
    rcases eq_or_ne n name with rfl | hne
    · have hinc := h.ok.increasing
      rw [hlist] at hinc
      obtain ⟨-, -, hpre, hpost⟩ := increasing_middle.mp hinc
      rw [update_self, get_append, get_eq_none fun p hp => ne_of_lt (hpre p hp),
        get_eq_none fun p hp => ne_of_gt (hpost p hp)]
      rfl
    · rw [update_of_ne hne, ← h.get_eq, hlist, get_append, get_append, get_cons, if_neg hne.symm]
  · rw [hlist', List.length_append]
    omega

theorem lookup (h : Holds t tm k) (name : MachPort) :
    (t.lookup name).1 = tm name ∧ Holds (t.lookup name).2 tm k := by
  obtain ⟨hget, hlist, hok⟩ := h.ok.lookup name
  exact ⟨hget.trans (h.get_eq name), hok, fun n => by rw [hlist, h.get_eq], by rw [hlist, h.length]⟩

theorem split (h : Holds t tm k) (name : MachPort) (small : SplayTree MachPort β) : ∃ i j, i + j = k ∧
    Holds (t.split name small).1 (fun n => if n < name then none else tm n) i ∧
    Holds (t.split name small).2 (fun n => if n < name then tm n else none) j := by
  obtain ⟨hok, hok', hlist, -, -⟩ := h.ok.split name small
  obtain ⟨hsmall, hlarge⟩ := get_split h.ok name small
  have hlen := congrArg List.length hlist
  rw [h.length, List.length_append] at hlen
  refine ⟨_, _, by omega, ⟨hok, fun n => ?_, rfl⟩, ⟨hok', fun n => ?_, rfl⟩⟩
  · rw [hlarge, h.ok.increasing.get_filter fun n => decide ¬ n < name, h.get_eq]
    by_cases hn : n < name <;> simp [hn]
  · rw [hsmall, h.ok.increasing.get_filter fun n => decide (n < name), h.get_eq]
    by_cases hn : n < name <;> simp [hn]

theorem join (h : Holds t tm k) (h' : Holds small tm' k')
    (hlt : ∀ a b, tm' a ≠ none → tm b ≠ none → a < b) :
    Holds (t.join small).1 (fun n => (tm' n).or (tm n)) (k' + k) := by
  obtain ⟨hok, hlist, -⟩ := h.ok.join h'.ok (lists_lt h.get_eq h'.get_eq hlt)
  exact ⟨hok, fun n => by rw [hlist, get_append, h'.get_eq, h.get_eq],
    by rw [hlist, List.length_append, h'.length, h.length]⟩

theorem modify (h : Holds t tm k) (name : MachPort) (f : β → β) :
    Holds (t.modify name f) (update tm name ((tm name).map f)) k := by
  refine ⟨h.ok.modify name f, fun n => ?_, ?_⟩
  · rw [SplayTree.toList_modify, get_modifyList, h.get_eq]
    rcases eq_or_ne n name with rfl | hne
    · simp
    · simp [hne]
  · rw [SplayTree.toList_modify, modifyList, List.length_map, h.length]

theorem ext (h : Holds t tm k) (heq : ∀ n, tm n = tm' n) (hk : k = k') : Holds t tm' k' :=
  (funext heq : tm = tm') ▸ hk ▸ h

theorem eq_zero (h : Holds t tm 0) (n : MachPort) : tm n = none := by
  rw [← h.get_eq, List.length_eq_zero_iff.mp h.length]
  rfl

theorem pick_some (h : Holds t tm k) {p : MachPort × β} (hp : t.pick = some p) :
    tm p.1 = some p.2 := by
  rw [← h.get_eq]
  exact h.ok.increasing.get_eq_some.mpr (t.pick_spec.2 p hp)

theorem pick_none (h : Holds t tm k) : t.pick = none ↔ ∀ n, tm n = none := by
  refine t.pick_spec.1.trans ⟨fun hnil n => by rw [← h.get_eq, hnil]; rfl, fun hall => ?_⟩
  rw [List.eq_nil_iff_forall_not_mem]
  exact fun p hp => get_ne_none hp ((h.get_eq p.1).trans (hall p.1))

theorem bounds (h : Holds t tm k) (hbot : tm ⊥ = none) (htop : tm ⊤ = none) (name : MachPort) :
    Holds (t.bounds name).2 tm k ∧
    (((t.bounds name).1.1 ≠ ⊤ ∧ (t.bounds name).1.1.index = name.index) ∨
      ((t.bounds name).1.2 ≠ ⊥ ∧ (t.bounds name).1.2.index = name.index) ↔
      Collides tm name.index) := by
  obtain ⟨hok, hlist, hlower, hupper⟩ := h.ok.bounds name
  have hmem := fun n => mem_names_iff h.get_eq n
  refine ⟨⟨hok, fun n => by rw [hlist, h.get_eq], by rw [hlist, h.length]⟩, ?_, ?_⟩
  · rintro (⟨hne, hidx⟩ | ⟨hne, hidx⟩)
    · rcases hlower with ⟨-, heq⟩ | hgreatest
      · exact absurd heq hne
      · exact ⟨_, (hmem _).mp hgreatest.1.1, hidx⟩
    · rcases hupper with ⟨-, heq⟩ | hleast
      · exact absurd heq hne
      · exact ⟨_, (hmem _).mp hleast.1.1, hidx⟩
  · rintro ⟨n, hn, hidx⟩
    have hin := (hmem n).mpr hn
    obtain ⟨p, hp, rfl⟩ := List.mem_map.mp hin
    rcases le_total p.1 name with hle | hle
    · refine .inl ?_
      rcases hlower with ⟨hall, -⟩ | hgreatest
      · exact absurd hle (not_le.mpr (hall p hp))
      · refine ⟨fun heq => (hmem _).mp hgreatest.1.1 (heq ▸ htop), le_antisymm ?_ ?_⟩
        · exact MachPort.index_mono hgreatest.1.2
        · rw [← hidx]
          exact MachPort.index_mono (hgreatest.2 ⟨hin, hle⟩)
    · refine .inr ?_
      rcases hupper with ⟨hall, -⟩ | hleast
      · exact absurd hle (not_le.mpr (hall p hp))
      · refine ⟨fun heq => (hmem _).mp hleast.1.1 (heq ▸ hbot), le_antisymm ?_ ?_⟩
        · rw [← hidx]
          exact MachPort.index_mono (hleast.2 ⟨hin, hle⟩)
        · exact MachPort.index_mono hleast.1.2

end Holds

/-! ## The invariant -/

/-- The slot is as `ipc_space_create` and `ipc_entry_dealloc` leave it. -/
def IpcEntry.IsFree (e : IpcEntry) : Prop := e.setNext 0 = ⟨.zero, e.gen, false⟩

namespace IpcSpace
variable [TableSizes]

/-- The name is that of a slot that is not free. -/
def InTable (s : IpcSpace) (l : List ℕ) (n : MachPort) : Prop :=
  0 < n.index ∧ n.index < s.tableSize ∧ n.index ∉ l ∧ (s.table n.index).gen = n.gen

instance (s : IpcSpace) (l : List ℕ) (n : MachPort) : Decidable (s.InTable l n) := by
  unfold InTable
  infer_instance

/-- What the space has for a name, given the entries of the tree and the free list. -/
def contents (s : IpcSpace) (tm : MachPort → Option Capability) (l : List ℕ) (n : MachPort) :
    Option Capability :=
  if s.InTable l n then some (s.table n.index).cap else tm n

/-- The free list has unused slots only, the tree has the entries of the map, and the collision
bits and the counters say what is in the tree. -/
structure Rep (s : IpcSpace) (tm : MachPort → Option Capability) (l : List ℕ) : Prop where
  level : s.level < TableSizes.last
  head : (s.table 0).cap.type = .none
  headGen : (s.table 0).gen = 255
  chain : FreeList.Chain (fun i => (s.table i).next) (s.table 0).next l
  range : ∀ i ∈ l, i < s.tableSize
  free : ∀ i ∈ l, (s.table i).IsFree
  tree : Holds s.tree tm s.treeTotal
  bot : tm ⊥ = none
  top : tm ⊤ = none
  disjoint : ∀ n, s.InTable l n → tm n = none
  collision : ∀ i < s.tableSize, ((s.table i).collision = true ↔ Collides tm i)
  small : s.treeSmall = (smallIndices tm s.tableSize s.tableNext).ncard

/-- The pointer is to the entry of the name. -/
def RefOf (s : IpcSpace) (tm : MachPort → Option Capability) (l : List ℕ) (n : MachPort) :
    EntryRef → Prop
  | .table i => i = n.index ∧ s.InTable l n
  | .tree k => k = n ∧ tm n ≠ none

variable {s s' : IpcSpace} {tm tm' : MachPort → Option Capability} {l l' : List ℕ} {n k : MachPort}

theorem tableSize_le (h : s.level < TableSizes.last) : s.tableSize ≤ 2 ^ 24 - 1 :=
  TableSizes.bound _ (le_of_lt h)

theorem tableNext_le (h : s.level < TableSizes.last) : s.tableNext ≤ 2 ^ 24 - 1 :=
  TableSizes.bound _ h

theorem tableSize_le_tableNext (h : s.level < TableSizes.last) : s.tableSize ≤ s.tableNext := by
  unfold tableSize tableNext
  rcases Nat.lt_or_ge (s.level + 1) TableSizes.last with hlt | hge
  · exact le_of_lt (TableSizes.increasing _ hlt)
  · have hlast : s.level + 1 = TableSizes.last := by omega
    rw [TableSizes.final _ hlast, hlast]

theorem its_pos {i : ℕ} (h : i ≤ TableSizes.last) : 0 < TableSizes.its i := by
  induction i with
  | zero => exact TableSizes.pos
  | succ i ih =>
    have hpos := ih (by omega)
    rcases Nat.lt_or_ge (i + 1) TableSizes.last with hlt | hge
    · exact hpos.trans (TableSizes.increasing _ hlt)
    · have hlast : i + 1 = TableSizes.last := by omega
      rw [hlast, ← TableSizes.final _ hlast]
      exact hpos

theorem RefOf.unique {r r' : EntryRef} (hd : ∀ n, s.InTable l n → tm n = none)
    (h : s.RefOf tm l n r) (h' : s.RefOf tm l n r') : r = r' := by
  cases r <;> cases r'
  · rw [h.1, h'.1]
  · exact absurd (hd n h.2) h'.2
  · exact absurd (hd n h'.2) h.2
  · rw [h.1, h'.1]

theorem contents_of_inTable (h : s.InTable l n) : s.contents tm l n = some (s.table n.index).cap :=
  if_pos h

theorem contents_of_not (h : ¬ s.InTable l n) : s.contents tm l n = tm n := if_neg h

omit [TableSizes] in
theorem treeCollision_of {total : ℕ} (h : Holds s.tree tm total) (hbot : tm ⊥ = none)
    (htop : tm ⊤ = none) (n : MachPort) : ((s.treeCollision n).1 = true ↔ Collides tm n.index) ∧
      ∃ tree, (s.treeCollision n).2 = { s with tree := tree } ∧ Holds tree tm total := by
  obtain ⟨hholds, hiff⟩ := h.bounds hbot htop n
  refine ⟨?_, _, rfl, hholds⟩
  rw [← hiff]
  simp only [IpcSpace.treeCollision, Bool.or_eq_true, Bool.and_eq_true, decide_eq_true_eq]

namespace Rep

theorem tableSize_pos (h : s.Rep tm l) : 0 < s.tableSize := its_pos (le_of_lt h.level)

theorem entry_eq (h : s.Rep tm l) {r : EntryRef} (hr : s.RefOf tm l n r) :
    s.entry r = s.contents tm l n := by
  cases r with
  | table i =>
    obtain ⟨rfl, hin⟩ := hr
    rw [contents_of_inTable hin]
    rfl
  | tree k =>
    obtain ⟨rfl, hk⟩ := hr
    have hnot : ¬ s.InTable l k := fun hin => hk (h.disjoint k hin)
    rw [contents_of_not hnot]
    exact h.tree.get_eq k

theorem collision_false (h : s.Rep tm l) {i : ℕ} (hi : i < s.tableSize)
    (hc : (s.table i).collision = false) (hn : n.index = i) : tm n = none := by
  by_contra hne
  have := (h.collision i hi).mpr ⟨n, hne, hn⟩
  rw [hc] at this
  cases this

theorem free_collision (h : s.Rep tm l) {i : ℕ} (hi : i ∈ l) : (s.table i).collision = false :=
  congrArg IpcEntry.collision (h.free i hi)

theorem free_none (h : s.Rep tm l) (hi : n.index ∈ l) : tm n = none :=
  h.collision_false (h.range _ hi) (h.free_collision hi) rfl

theorem reshape (h : s.Rep tm l) {tree : SplayTree MachPort Capability}
    (ht : Holds tree tm s.treeTotal) : ({ s with tree := tree } : IpcSpace).Rep tm l :=
  ⟨h.level, h.head, h.headGen, h.chain, h.range, h.free, ht, h.bot, h.top, h.disjoint, h.collision,
    h.small⟩

theorem treeLookup (h : s.Rep tm l) (n : MachPort) :
    (s.treeLookup n).1 = (tm n).map (fun _ => .tree n) ∧
      ∃ tree, (s.treeLookup n).2 = { s with tree := tree } ∧ Holds tree tm s.treeTotal := by
  obtain ⟨hfound, hholds⟩ := h.tree.lookup n
  refine ⟨?_, _, rfl, hholds⟩
  unfold IpcSpace.treeLookup
  rw [← hfound]

theorem treeCollision (h : s.Rep tm l) (n : MachPort) :
    ((s.treeCollision n).1 = true ↔ Collides tm n.index) ∧
      ∃ tree, (s.treeCollision n).2 = { s with tree := tree } ∧ Holds tree tm s.treeTotal :=
  treeCollision_of h.tree h.bot h.top n

end Rep

/-! ## Lookups -/

/-- The name 0xff, which has the index and the generation of the list head. -/
def headName : MachPort := .make 0 255

theorem Rep.lookup_state (h : s.Rep tm l) (n : MachPort) :
    ∃ tree, (s.lookup n).2 = { s with tree := tree } ∧ Holds tree tm s.treeTotal := by
  have hself : ∃ tree, s = { s with tree := tree } ∧ Holds tree tm s.treeTotal := ⟨_, rfl, h.tree⟩
  have htree := (h.treeLookup n).2
  unfold IpcSpace.lookup
  dsimp only
  split_ifs
  · exact htree
  · exact hself
  · exact hself
  · exact hself
  · exact hself
  · exact htree

theorem Rep.lookup_none (h : s.Rep tm l) (hc : s.contents tm l n = none) : (s.lookup n).1 = none := by
  have hnot : ¬ s.InTable l n := fun hin => by
    rw [contents_of_inTable hin] at hc
    cases hc
  have hnone := hc
  rw [contents_of_not hnot] at hnone
  have htree : (s.treeLookup n).1 = none := by rw [(h.treeLookup n).1, hnone, Option.map_none]
  unfold IpcSpace.lookup
  dsimp only
  split_ifs with hlt hgen hcol htype htotal
  · exact htree
  · rfl
  · rfl
  · rcases Nat.eq_zero_or_pos n.index with h0 | h0
    · rw [h0] at htype
      exact absurd h.head htype
    · by_cases hmem : n.index ∈ l
      · have hfree := congrArg (fun e => e.cap.type) (h.free _ hmem)
        exact absurd hfree htype
      · exact absurd ⟨h0, hlt, hmem, not_not.mp hgen⟩ hnot
  · rfl
  · exact htree

theorem Rep.lookup_some (h : s.Rep tm l) {c : Capability} (hc : s.contents tm l n = some c)
    (htype : c.type ≠ .none) (hhead : n ≠ headName) :
    ∃ r, (s.lookup n).1 = some r ∧ s.RefOf tm l n r := by
  unfold IpcSpace.lookup
  dsimp only
  by_cases hin : s.InTable l n
  · rw [contents_of_inTable hin] at hc
    obtain rfl := Option.some.inj hc
    rw [if_pos hin.2.1, if_neg (by simpa using hin.2.2.2), if_neg htype]
    exact ⟨_, rfl, rfl, hin⟩
  · rw [contents_of_not hin] at hc
    have hne : tm n ≠ none := by rw [hc]; simp
    have htree : (s.treeLookup n).1 = some (.tree n) := by rw [(h.treeLookup n).1, hc, Option.map_some]
    have href : s.RefOf tm l n (.tree n) := ⟨rfl, hne⟩
    split_ifs with hlt hgen hcol htype' htotal
    · exact ⟨_, htree, href⟩
    · exact absurd (h.collision_false hlt (by simpa using hcol) rfl) hne
    · -- the slot has the generation, so it is free or the list head
      have hgen := not_not.mp hgen
      rcases Nat.eq_zero_or_pos n.index with h0 | h0
      · rw [h0, h.headGen] at hgen
        have hle : 0 ≤ 2 ^ 24 - 1 := Nat.zero_le _
        exact absurd (MachPort.ext (by rw [h0]; exact (MachPort.index_make hle).symm)
          (hgen.symm.trans (MachPort.gen_make hle).symm)) hhead
      · by_cases hmem : n.index ∈ l
        · exact absurd (h.free_none hmem) hne
        · exact absurd ⟨h0, hlt, hmem, hgen⟩ hin
    · have hgen := not_not.mp hgen
      rcases Nat.eq_zero_or_pos n.index with h0 | h0
      · rw [h0] at htype'
        exact absurd h.head htype'
      · by_cases hmem : n.index ∈ l
        · exact absurd (h.free_none hmem) hne
        · exact absurd ⟨h0, hlt, hmem, hgen⟩ hin
    · have := h.tree
      rw [htotal] at this
      exact absurd (this.eq_zero n) hne
    · exact ⟨_, htree, href⟩

end IpcSpace

namespace IpcSpace
variable [TableSizes] {s : IpcSpace} {tm tm' : MachPort → Option Capability} {l : List ℕ}
  {n k : MachPort} {i : ℕ}

/-! ## Changes of one slot or of the tree -/

variable {total : ℕ} {tree : SplayTree MachPort Capability} {e : IpcEntry}

theorem Rep.setSlot (h : s.Rep tm l) (hi : i < s.tableSize) (hfree : i ∉ l) (e : IpcEntry)
    (hhead : i = 0 → e.cap = (s.table 0).cap ∧ e.gen = (s.table 0).gen)
    (ht : Holds tree tm' total)
    (hbot : tm' ⊥ = none) (hsame : ∀ n, n.index ≠ i → tm' n = tm n)
    (hdisj : ∀ n, n.index = i → 0 < i → e.gen = n.gen → tm' n = none)
    (hcol : e.collision = true ↔ Collides tm' i) :
    ({ s with table := update s.table i e, tree := tree, treeTotal := total } :
      IpcSpace).Rep tm' l := by
  have hzero : ∀ {α : Type} (f : IpcEntry → α), f e = f (s.table i) ∨ i ≠ 0 →
      f (update s.table i e 0) = f (s.table 0) := by
    intro α f hf
    rcases eq_or_ne i 0 with rfl | hne
    · rw [update_self]
      exact hf.resolve_right (by simp)
    · rw [update_of_ne hne.symm]
  have hcap : e.cap = (s.table i).cap ∨ i ≠ 0 := by
    rcases eq_or_ne i 0 with rfl | hne
    · exact .inl (hhead rfl).1
    · exact .inr hne
  have hgen : e.gen = (s.table i).gen ∨ i ≠ 0 := by
    rcases eq_or_ne i 0 with rfl | hne
    · exact .inl (hhead rfl).2
    · exact .inr hne
  have hcap' := hzero IpcEntry.cap hcap
  have hother : ∀ j ∈ l, update s.table i e j = s.table j := fun j hj =>
    update_of_ne (by rintro rfl; exact hfree hj) _ _
  have hcollides : ∀ j, j ≠ i → (Collides tm' j ↔ Collides tm j) := fun j hj =>
    collides_congr fun n hn => by rw [hsame n (hn ▸ hj)]
  refine ⟨h.level, (congrArg Capability.type hcap').trans h.head,
    (hzero IpcEntry.gen hgen).trans h.headGen, ?_, h.range, ?_, ht, hbot, ?_, ?_, ?_, ?_⟩
  · dsimp only
    rw [show (update s.table i e 0).next = (s.table 0).next from
      congrArg Capability.request hcap']
    exact h.chain.congr fun j hj => congrArg IpcEntry.next (hother j hj)
  · intro j hj
    dsimp only
    rw [hother j hj]
    exact h.free j hj
  · rw [hsame ⊤ ?_, h.top]
    rw [MachPort.index_top]
    have := tableSize_le h.level
    omega
  · rintro n ⟨hpos, hlt, hmem, hgen⟩
    dsimp only at hgen
    by_cases hn : n.index = i
    · rw [hn, update_self] at hgen
      exact hdisj n hn (hn ▸ hpos) hgen
    · rw [update_of_ne hn] at hgen
      rw [hsame n hn]
      exact h.disjoint n ⟨hpos, hlt, hmem, hgen⟩
  · intro j hj
    dsimp only
    by_cases hji : j = i
    · rw [hji, update_self]
      exact hcol
    · rw [update_of_ne hji, hcollides j hji]
      exact h.collision j hj
  · have hset : smallIndices tm' s.tableSize s.tableNext = smallIndices tm s.tableSize s.tableNext :=
      smallIndices_congr fun j hj _ => hcollides j (by omega)
    exact h.small.trans (congrArg Set.ncard hset.symm)

theorem contents_setSlot_of_ne (hsame : tm' n = tm n) (hn : n.index ≠ i) :
    ({ s with table := update s.table i e, tree := tree, treeTotal := total } :
      IpcSpace).contents tm' l n = s.contents tm l n := by
  simp only [contents, InTable, hsame, update_of_ne hn]
  rfl

theorem contents_setSlot_of_eq (hi : i < s.tableSize) (hfree : i ∉ l) (hn : n.index = i) :
    ({ s with table := update s.table i e, tree := tree, treeTotal := total } :
      IpcSpace).contents tm' l n = if 0 < i ∧ e.gen = n.gen then some e.cap else tm' n := by
  have hi' : n.index < s.tableSize := hn ▸ hi
  have hfree' : n.index ∉ l := hn ▸ hfree
  simp only [contents, InTable, hn, update_self]
  exact if_congr ⟨fun h => ⟨h.1, h.2.2.2⟩, fun h => ⟨h.1, hi, hfree, h.2⟩⟩ rfl rfl

theorem Rep.setTree (h : s.Rep tm l) {small : ℕ}
    (ht : Holds tree tm' total) (hbot : tm' ⊥ = none) (htop : tm' ⊤ = none)
    (hdisj : ∀ n, s.InTable l n → tm' n = none)
    (hcol : ∀ j < s.tableSize, (Collides tm' j ↔ Collides tm j))
    (hsmall : small = (smallIndices tm' s.tableSize s.tableNext).ncard) :
    ({ s with tree := tree, treeTotal := total, treeSmall := small } : IpcSpace).Rep tm' l :=
  ⟨h.level, h.head, h.headGen, h.chain, h.range, h.free, ht, hbot, htop, hdisj,
    fun j hj => (h.collision j hj).trans (hcol j hj).symm, hsmall⟩

/-! ## Writes -/

theorem Rep.write (h : s.Rep tm l) {r : EntryRef} (hr : s.RefOf tm l n r)
    (f : Capability → Capability) : ∃ tm', (s.write f r).Rep tm' l ∧ (s.write f r).contents tm' l =
        update (s.contents tm l) n ((s.contents tm l n).map f) ∧
      ∀ k r', s.RefOf tm l k r' → (s.write f r).RefOf tm' l k r' := by
  cases r with
  | table i =>
    obtain ⟨rfl, hin⟩ := hr
    obtain ⟨hpos, hlt, hmem, hgen⟩ := hin
    refine ⟨tm, h.setSlot hlt hmem _ (by omega) h.tree h.bot (fun _ _ => rfl) ?_
      (h.collision _ hlt), ?_, ?_⟩
    · intro k hk _ hgen'
      exact h.disjoint k ⟨hk ▸ hpos, hk ▸ hlt, hk ▸ hmem, hk ▸ hgen'⟩
    · funext k
      by_cases hk : k.index = n.index
      · refine (contents_setSlot_of_eq hlt hmem hk).trans ?_
        rcases eq_or_ne k n with rfl | hne
        · rw [update_self, contents_of_inTable ⟨hpos, hlt, hmem, hgen⟩, if_pos ⟨hpos, hgen⟩]
          rfl
        · have hgenk : (s.table n.index).gen ≠ k.gen := fun heq =>
            hne (MachPort.ext hk (heq.symm.trans hgen))
          rw [update_of_ne hne, if_neg fun hc => hgenk hc.2,
            contents_of_not fun hc => hgenk (hk ▸ hc.2.2.2)]
      · rw [update_of_ne fun heq => hk (congrArg _ heq)]
        exact contents_setSlot_of_ne rfl hk
    · intro k r' hr'
      cases r' with
      | tree => exact hr'
      | table j =>
        obtain ⟨rfl, hpos', hlt', hmem', hgen'⟩ := hr'
        refine ⟨rfl, hpos', hlt', hmem', ?_⟩
        change (update s.table n.index _ k.index).gen = k.gen
        by_cases hk : k.index = n.index
        · rw [hk, update_self]
          exact hk ▸ hgen'
        · rw [update_of_ne hk]
          exact hgen'
  | tree k =>
    obtain ⟨rfl, hk⟩ := hr
    obtain ⟨c, hc⟩ := Option.ne_none_iff_exists'.mp hk
    have hnone : ∀ j, update tm k ((tm k).map f) j = none ↔ tm j = none := by
      intro j
      rcases eq_or_ne j k with rfl | hne
      · simp
      · rw [update_of_ne hne]
    have hcol : ∀ i, Collides (update tm k ((tm k).map f)) i ↔ Collides tm i := fun i =>
      collides_congr fun j _ => hnone j
    have hin : ¬ s.InTable l k := fun hin => hk (h.disjoint k hin)
    refine ⟨update tm k ((tm k).map f), h.setTree (h.tree.modify k f) ((hnone _).mpr h.bot)
      ((hnone _).mpr h.top) (fun j hj => (hnone j).mpr (h.disjoint j hj)) (fun j _ => hcol j) ?_,
      ?_, ?_⟩
    · rw [smallIndices_congr fun j _ _ => hcol j]
      exact h.small
    · funext j
      have hsame : (s.write f (.tree k)).contents (update tm k ((tm k).map f)) l j =
        if s.InTable l j then some (s.table j.index).cap
        else update tm k ((tm k).map f) j := rfl
      rw [hsame]
      rcases eq_or_ne j k with rfl | hne
      · rw [if_neg hin, update_self, update_self, contents_of_not hin]
      · rw [update_of_ne hne, update_of_ne hne]
        rfl
    · intro j r' hr'
      cases r' with
      | table => exact hr'
      | tree => exact ⟨hr'.1, fun hj => hr'.2 ((hnone j).mp hj)⟩

/-! ## Slots that leave the free list -/

theorem Rep.takeFree {pre post : List ℕ} (h : s.Rep tm (pre ++ i :: post)) {p : ℕ}
    (hp : p ∈ 0 :: pre) {g : Fin 256} {t : ℕ → IpcEntry} (hti : t i = ⟨.zero, g, false⟩)
    (htp : p ≠ i → t p = (s.table p).setNext (s.table i).next)
    (ht : ∀ j, j ≠ i → j ≠ p → t j = s.table j)
    (hchain : ∀ next' : ℕ → ℕ, next' p = (s.table i).next →
      (∀ k ∈ 0 :: (pre ++ post), k ≠ p → next' k = (s.table k).next) →
      FreeList.Chain next' (next' 0) (pre ++ post)) :
    ({ s with table := t } : IpcSpace).Rep tm (pre ++ post) ∧
      s.contents tm (pre ++ i :: post) (.make i g) = none ∧
      ({ s with table := t } : IpcSpace).contents tm (pre ++ post) =
        update (s.contents tm (pre ++ i :: post)) (.make i g) (some .zero) ∧
      ({ s with table := t } : IpcSpace).RefOf tm (pre ++ post) (.make i g) (.table i) := by
  have hmem : i ∈ pre ++ i :: post := by simp
  have hnodup := h.chain.nodup
  have hipos := h.chain.pos i hmem
  have hilt := h.range i hmem
  have hile : i ≤ 2 ^ 24 - 1 := le_of_lt (hilt.trans_le (tableSize_le h.level))
  have hi : i ∉ pre ++ post := (List.nodup_cons.mp (List.perm_middle.nodup_iff.mp hnodup)).1
  have hsub : ∀ j ∈ pre ++ post, j ∈ pre ++ i :: post := by
    intro j hj
    rcases List.mem_append.mp hj with hj | hj <;> simp [hj]
  have hpi : p ≠ i := by
    rintro rfl
    rcases List.mem_cons.mp hp with rfl | hp
    · exact absurd hipos (lt_irrefl 0)
    · exact hi (by simp [hp])
  replace htp := htp hpi
  have htset : ∀ j, j ≠ i → (t j).setNext 0 = (s.table j).setNext 0 := by
    intro j hji
    rcases eq_or_ne j p with rfl | hjp
    · rw [htp]
      rfl
    · rw [ht j hji hjp]
  have hgenEq : ∀ j, j ≠ i → (t j).gen = (s.table j).gen := by
    intro j hj
    have := congrArg IpcEntry.gen (htset j hj)
    exact this
  have hcolEq : ∀ j, j ≠ i → (t j).collision = (s.table j).collision := by
    intro j hj
    have := congrArg IpcEntry.collision (htset j hj)
    exact this
  have hidx : (MachPort.make i g).index = i := MachPort.index_make hile
  have hgen : (MachPort.make i g).gen = g := MachPort.gen_make hile
  have hcapEq : ∀ j, j ≠ i → j ≠ 0 → j ∉ pre ++ post → t j = s.table j := by
    intro j hji hj0 hj
    refine ht j hji ?_
    rintro rfl
    rcases List.mem_cons.mp hp with rfl | hp
    · exact hj0 rfl
    · exact hj (by simp [hp])
  -- the names of the table, before and after
  have hinTable : ∀ j : MachPort, ({ s with table := t } : IpcSpace).InTable (pre ++ post) j ↔
      s.InTable (pre ++ i :: post) j ∨ j = .make i g := by
    intro j
    simp only [InTable]
    rcases eq_or_ne j.index i with hji | hji
    · rw [hji, hti]
      constructor
      · rintro ⟨-, -, -, hg⟩
        exact .inr (MachPort.ext (hji.trans hidx.symm) (hg.symm.trans hgen.symm))
      · rintro (hin | rfl)
        · exact absurd hmem hin.2.2.1
        · exact ⟨hipos, hilt, hi, hgen.symm⟩
    · rw [hgenEq _ hji]
      constructor
      · rintro ⟨h0, hlt, hmem', hg⟩
        refine .inl ⟨h0, hlt, fun hj => hmem' ?_, hg⟩
        rcases List.mem_append.mp hj with hj | hj
        · simp [hj]
        · rcases List.mem_cons.mp hj with hj | hj
          · exact absurd hj hji
          · simp [hj]
      · rintro (⟨h0, hlt, hmem', hg⟩ | rfl)
        · exact ⟨h0, hlt, fun hj => hmem' (hsub _ hj), hg⟩
        · exact absurd hidx hji
  have hnone : ∀ j : MachPort, j.index = i → tm j = none := fun j hj => h.free_none (hj ▸ hmem)
  have h0i : (0 : ℕ) ≠ i := ne_of_lt hipos
  have hnot : ¬ s.InTable (pre ++ i :: post) (.make i g) := by
    intro hin
    have := hin.2.2.1
    rw [hidx] at this
    exact this hmem
  refine ⟨⟨h.level, ?_, (hgenEq 0 h0i).trans h.headGen, ?_, fun j hj => h.range j (hsub j hj), ?_,
    h.tree, h.bot, h.top, ?_, ?_, h.small⟩, ?_, ?_, hidx.symm, (hinTable _).mpr (.inr rfl)⟩
  · exact (congrArg (fun e => e.cap.type) (htset 0 h0i)).trans h.head
  · refine hchain (fun j => (t j).next) ?_ fun j hj hjp => ?_
    · rw [htp]
      rfl
    · have hji : j ≠ i := by
        rintro rfl
        rcases List.mem_cons.mp hj with rfl | hj
        · exact absurd hipos (lt_irrefl 0)
        · exact hi hj
      rw [ht j hji hjp]
  · intro j hj
    have hji : j ≠ i := by
      rintro rfl
      exact hi hj
    have hfree := h.free j (hsub j hj)
    unfold IpcEntry.IsFree at hfree ⊢
    dsimp only
    rw [htset j hji, hgenEq j hji]
    exact hfree
  · intro j hj
    rcases (hinTable j).mp hj with hj | rfl
    · exact h.disjoint j hj
    · exact hnone _ hidx
  · intro j hj
    rcases eq_or_ne j i with rfl | hji
    · dsimp only
      rw [hti]
      constructor
      · intro hc
        cases hc
      · rintro ⟨n, hn, hni⟩
        exact absurd (hnone n hni) hn
    · dsimp only
      rw [hcolEq j hji]
      exact h.collision j hj
  · rw [contents_of_not hnot]
    exact hnone _ hidx
  · funext j
    rcases eq_or_ne j (.make i g) with rfl | hne
    · rw [update_self, contents_of_inTable ((hinTable _).mpr (.inr rfl)), hidx]
      exact congrArg (fun e => some e.cap) hti
    · rw [update_of_ne hne]
      by_cases hin : s.InTable (pre ++ i :: post) j
      · have hji : j.index ≠ i := fun hji => hin.2.2.1 (hji ▸ hmem)
        rw [contents_of_inTable hin, contents_of_inTable ((hinTable j).mpr (.inl hin))]
        dsimp only
        rw [hcapEq j.index hji (by have := hin.1; omega) fun hj => hin.2.2.1 (hsub _ hj)]
      · rw [contents_of_not hin, contents_of_not fun hj => ((hinTable j).mp hj).elim hin hne]

end IpcSpace

namespace IpcSpace
variable [TableSizes] {s s' : IpcSpace} {tm tm' : MachPort → Option Capability} {l : List ℕ}
  {n name : MachPort} {i : ℕ} {r : EntryRef}

/-- An entry for the name was handed out, with all bits zero. -/
structure Allocated (s s' : IpcSpace) (tm : MachPort → Option Capability) (l : List ℕ)
    (name : MachPort) (r : EntryRef) (tm' : MachPort → Option Capability) (l' : List ℕ) : Prop where
  rep : s'.Rep tm' l'
  fresh : s.contents tm l name = none
  contents : s'.contents tm' l' = update (s.contents tm l) name (some .zero)
  ref : s'.RefOf tm' l' name r

/-! ## Allocations -/

theorem Rep.entryGet_none (h : s.Rep tm l) (hl : l = []) : s.entryGet = none := by
  subst hl
  have hnext : (s.table 0).next = 0 := h.chain
  unfold IpcSpace.entryGet
  exact if_pos hnext

theorem Rep.entryGet (h : s.Rep tm l) (hg : s.entryGet = some (name, r, s')) :
    ∃ l', s.Allocated s' tm l name r tm l' := by
  cases l with
  | nil =>
    rw [h.entryGet_none rfl] at hg
    cases hg
  | cons i l =>
    have hnext : (s.table 0).next = i := h.chain.1
    have hpos : 0 < i := h.chain.2.1
    have hfree := h.free i List.mem_cons_self
    unfold IpcSpace.entryGet at hg
    dsimp only at hg
    rw [hnext, if_neg (by omega)] at hg
    simp only [Option.some.injEq, Prod.mk.injEq] at hg
    obtain ⟨rfl, rfl, rfl⟩ := hg
    have h0i : (0 : ℕ) ≠ i := ne_of_lt hpos
    have hold : update s.table 0 ((s.table 0).setNext (s.table i).next) i = s.table i :=
      update_of_ne h0i.symm _ _
    have hrep := @Rep.takeFree _ s tm i [] l h 0 List.mem_cons_self ((s.table i).gen + 1)
      (update (update s.table 0 ((s.table 0).setNext (s.table i).next)) i
        { (update s.table 0 ((s.table 0).setNext (s.table i).next) i).setNext 0 with
          gen := (s.table i).gen + 1 }) ?_ ?_ ?_ ?_
    · exact ⟨l, hrep.1, hrep.2.1, hrep.2.2.1, hrep.2.2.2⟩
    · rw [update_self, hold, hfree]
    · intro _
      rw [update_of_ne h0i, update_self]
    · intro j hji hj0
      rw [update_of_ne hji, update_of_ne hj0]
    · intro next' hp hk
      rw [hp]
      refine h.chain.2.2.congr fun j hj => hk j (List.mem_cons_of_mem _ hj) ?_
      have := h.chain.2.2.pos j hj
      omega

theorem Rep.allocSlot (h : s.Rep tm l) (hmem : name.index ∈ l) :
    ∃ p, FreeList.before (fun i => (s.table i).next) name.index s.tableSize 0 = some p ∧
      ∃ l', s.Allocated ((s.modifySlot p fun e => e.setNext (s.table name.index).next).modifySlot
        name.index fun e => ⟨{ Capability.zero with object := e.cap.object }, name.gen, false⟩)
        tm l name (.table name.index) tm l' := by
  obtain ⟨pre, post, rfl⟩ := List.append_of_mem hmem
  have hpos := h.chain.pos
  have h0 : (0 : ℕ) ∉ pre ++ name.index :: post := fun h0 => absurd (hpos 0 h0) (lt_irrefl 0)
  have hfuel : pre.length < s.tableSize := by
    have hsub : (pre ++ name.index :: post).toFinset ⊆ Finset.range s.tableSize := by
      intro j hj
      exact Finset.mem_range.mpr (h.range j (List.mem_toFinset.mp hj))
    have hcard := Finset.card_le_card hsub
    rw [List.toFinset_card_of_nodup h.chain.nodup, Finset.card_range, List.length_append,
      List.length_cons] at hcard
    omega
  obtain ⟨p, hp, hbefore, hchain⟩ := h.chain.before h0 hfuel
  refine ⟨p, hbefore, pre ++ post, ?_⟩
  have hni : name.index ∉ pre ++ post :=
    (List.nodup_cons.mp (List.perm_middle.nodup_iff.mp h.chain.nodup)).1
  have hpi : p ≠ name.index := by
    rintro rfl
    rcases List.mem_cons.mp hp with hp | hp
    · have := hpos _ hmem
      omega
    · exact hni (by simp [hp])
  have hold : update s.table p ((s.table p).setNext (s.table name.index).next) name.index =
      s.table name.index := update_of_ne hpi.symm _ _
  have hobject : (s.table name.index).cap.object = none :=
    congrArg (fun e => e.cap.object) (h.free _ hmem)
  have hmake : MachPort.make name.index name.gen = name :=
    MachPort.ext (MachPort.index_make name.index_le) (MachPort.gen_make name.index_le)
  have hrep := @Rep.takeFree _ s tm name.index pre post h p hp name.gen
    (update (update s.table p ((s.table p).setNext (s.table name.index).next))
      name.index ⟨{ Capability.zero with object := (update s.table p
        ((s.table p).setNext (s.table name.index).next) name.index).cap.object }, name.gen, false⟩)
    ?_ ?_ ?_ hchain
  · rw [hmake] at hrep
    exact ⟨hrep.1, hrep.2.1, hrep.2.2.1, hrep.2.2.2⟩
  · rw [update_self, hold, hobject]
    rfl
  · intro _
    rw [update_of_ne hpi, update_self]
  · intro j hji hjp
    rw [update_of_ne hji, update_of_ne hjp]

end IpcSpace

namespace IpcSpace
variable [TableSizes] {s s' : IpcSpace} {tm tm' : MachPort → Option Capability} {l : List ℕ}
  {n name : MachPort} {i : ℕ} {r : EntryRef}

theorem Rep.allocTree (h : s.Rep tm l) (hnone : tm name = none) (hnot : ¬ s.InTable l name)
    (hmem : name.index ∉ l) (hbot : name ≠ ⊥) (htop : name ≠ ⊤) :
    s.Allocated { s.countTree name with tree := (s.countTree name).tree.insert name .zero }
      tm l name (.tree name) (update tm name (some .zero)) l := by
  have hbot' : update tm name (some Capability.zero) ⊥ = none := by
    rw [update_of_ne hbot.symm, h.bot]
  have htop' : update tm name (some Capability.zero) ⊤ = none := by
    rw [update_of_ne htop.symm, h.top]
  have hdisj : ∀ n, s.InTable l n → update tm name (some Capability.zero) n = none := by
    intro n hn
    have hne : n ≠ name := by
      rintro rfl
      exact hnot hn
    rw [update_of_ne hne, h.disjoint n hn]
  have hfresh : s.contents tm l name = none := (contents_of_not hnot).trans hnone
  have href : update tm name (some Capability.zero) name ≠ none := by simp
  have hcontents : ∀ n, n ≠ name → update tm name (some Capability.zero) n = tm n :=
    fun n hn => update_of_ne hn ..
  by_cases hlt : name.index < s.tableSize
  · have hcount : s.countTree name = ({ s with treeTotal := s.treeTotal + 1 } : IpcSpace).modifySlot
        name.index fun e => { e with collision := true } := if_pos hlt
    let t := update s.table name.index { s.table name.index with collision := true }
    let tree := s.tree.insert name .zero
    have hstate : ({ s.countTree name with tree := (s.countTree name).tree.insert name .zero } :
        IpcSpace) = { s with table := t, tree := tree, treeTotal := s.treeTotal + 1 } := by
      rw [hcount]
      rfl
    rw [hstate]
    refine ⟨h.setSlot hlt hmem _ (fun h0 => h0 ▸ ⟨rfl, rfl⟩) (h.tree.insert hnone .zero) hbot' ?_ ?_
      ⟨fun _ => collides_insert, fun _ => rfl⟩, hfresh, ?_, rfl, href⟩
    · exact fun n hn => hcontents n fun heq => hn (congrArg _ heq)
    · intro n hn hpos hgen
      refine hdisj n ⟨hn ▸ hpos, hn ▸ hlt, hn ▸ hmem, ?_⟩
      rw [hn]
      exact hgen
    · funext n
      rcases eq_or_ne n name with rfl | hne
      · rw [contents_setSlot_of_eq hlt hmem rfl, update_self, update_self]
        exact if_neg fun hc => hnot ⟨hc.1, hlt, hmem, hc.2⟩
      · rw [update_of_ne hne]
        by_cases hn : n.index = name.index
        · rw [contents_setSlot_of_eq hlt hmem hn, hcontents n hne]
          simp only [contents, InTable, hn]
          exact if_congr ⟨fun hc => ⟨hc.1, hlt, hmem, hc.2⟩, fun hc => ⟨hc.1, hc.2.2.2⟩⟩ rfl rfl
        · exact contents_setSlot_of_ne (hcontents n hne) hn
  · have hsize : s.tableSize ≤ name.index := not_lt.mp hlt
    have hcol : ∀ j < s.tableSize,
        (Collides (update tm name (some Capability.zero)) j ↔ Collides tm j) :=
      fun j hj => collides_update (by omega)
    -- the tree may have been splayed, and the new index counted
    have hstate : ∃ tree small, Holds tree tm s.treeTotal ∧ s.countTree name =
          { s with treeTotal := s.treeTotal + 1, treeSmall := small, tree := tree } ∧
        small = (smallIndices (update tm name (some Capability.zero)) s.tableSize
          s.tableNext).ncard := by
      by_cases hnext : name.index < s.tableNext
      · have hcount : s.countTree name =
            let c := ({ s with treeTotal := s.treeTotal + 1 } : IpcSpace).treeCollision name
            if c.1 = false then { c.2 with treeSmall := c.2.treeSmall + 1 } else c.2 := by
          unfold countTree
          rw [if_neg (by exact hlt), if_pos (by exact hnext)]
        obtain ⟨hiff, tree, hc, htree⟩ := h.treeCollision name
        have hc1 : (({ s with treeTotal := s.treeTotal + 1 } : IpcSpace).treeCollision name).1 =
          (s.treeCollision name).1 := rfl
        have hc2 : (({ s with treeTotal := s.treeTotal + 1 } : IpcSpace).treeCollision name).2 =
            { s with tree := tree, treeTotal := s.treeTotal + 1 } := by
          have : (({ s with treeTotal := s.treeTotal + 1 } : IpcSpace).treeCollision name).2 =
            { (s.treeCollision name).2 with treeTotal := s.treeTotal + 1 } := rfl
          rw [this, hc]
        dsimp only at hcount
        rw [hc1, hc2] at hcount
        by_cases hold : Collides tm name.index
        · rw [if_neg (by rw [hiff.mpr hold]; simp)] at hcount
          refine ⟨tree, s.treeSmall, htree, by rw [hcount], ?_⟩
          refine h.small.trans (congrArg Set.ncard (smallIndices_congr fun j _ _ => ?_).symm)
          rcases eq_or_ne j name.index with rfl | hne
          · exact ⟨fun _ => hold, fun _ => collides_insert⟩
          · exact collides_update hne
        · have hfalse : (s.treeCollision name).1 = false := by
            rw [← Bool.not_eq_true, hiff]
            exact hold
          rw [if_pos hfalse] at hcount
          refine ⟨tree, s.treeSmall + 1, htree, by rw [hcount], ?_⟩
          rw [h.small]
          exact (ncard_smallIndices_insert (fun j hj => collides_update hj) ⟨hsize, hnext⟩
            collides_insert hold).symm
      · have hcount : s.countTree name = { s with treeTotal := s.treeTotal + 1 } := by
          unfold countTree
          rw [if_neg (by exact hlt), if_neg (by exact hnext)]
        refine ⟨s.tree, s.treeSmall, h.tree, by rw [hcount], ?_⟩
        exact h.small.trans (congrArg Set.ncard
          (smallIndices_congr fun j _ hj => collides_update (by omega)).symm)
    obtain ⟨tree, small, htree, hstate, hsmall⟩ := hstate
    rw [hstate]
    refine ⟨h.setTree (htree.insert hnone .zero) hbot' htop' hdisj hcol hsmall, hfresh, ?_, rfl, href⟩
    funext n
    change (if s.InTable l n then some (s.table n.index).cap
      else update tm name (some Capability.zero) n) = _
    rcases eq_or_ne n name with rfl | hne
    · rw [if_neg hnot, update_self, update_self]
    · rw [hcontents n hne, update_of_ne hne, contents]

/-- What a turn of `ipc_entry_alloc_name` leaves. -/
def AllocNameDone (s : IpcSpace) (tm : MachPort → Option Capability) (l : List ℕ) (name : MachPort)
    (s' : IpcSpace) : AllocName → Prop
  | .allocated r => ∃ tm' l', s.Allocated s' tm l name r tm' l'
  | .found r => (∃ tree, s' = { s with tree := tree } ∧ Holds tree tm s.treeTotal) ∧
      s.RefOf tm l name r
  | _ => (∃ tree, s' = { s with tree := tree } ∧ Holds tree tm s.treeTotal) ∧
      (s.isActive = true → s.contents tm l name = none)

theorem Rep.allocName (h : s.Rep tm l)
    (hfilled : ∀ n c, s.contents tm l n = some c → c.type ≠ .none) (hbot : name ≠ ⊥) (htop : name ≠ ⊤)
    (treeEntry : Bool) : ∃ a s', s.allocName name treeEntry = some (a, s') ∧
      s.AllocNameDone tm l name s' a := by
  have hself : ∃ tree, s = { s with tree := tree } ∧ Holds tree tm s.treeTotal := ⟨_, rfl, h.tree⟩
  have hslot : ∀ {n : MachPort}, n.index ∉ l → s.InTable l (.make n.index (s.table n.index).gen) ∨
      ¬ (0 < n.index ∧ n.index < s.tableSize) := by
    intro n hn
    by_cases hc : 0 < n.index ∧ n.index < s.tableSize
    · refine .inl ⟨?_, ?_, ?_, ?_⟩ <;> rw [MachPort.index_make n.index_le]
      · exact hc.1
      · exact hc.2
      · exact hn
      · rw [MachPort.gen_make n.index_le]
    · exact .inr hc
  unfold IpcSpace.allocName
  dsimp only
  by_cases hactive : s.isActive = false
  · rw [if_pos hactive]
    exact ⟨_, _, rfl, hself, fun hc => by rw [hactive] at hc; cases hc⟩
  rw [if_neg hactive]
  by_cases hnone : 0 < name.index ∧ name.index < s.tableSize ∧ (s.table name.index).cap.type = .none
  · have hmem : name.index ∈ l := by
      by_contra hmem
      rcases hslot hmem with hin | hc
      · refine hfilled _ _ (contents_of_inTable hin) ?_
        rw [MachPort.index_make name.index_le]
        exact hnone.2.2
      · exact hc ⟨hnone.1, hnone.2.1⟩
    obtain ⟨p, hbefore, l', hall⟩ := h.allocSlot hmem
    rw [if_pos hnone, hbefore]
    exact ⟨_, _, rfl, tm, l', hall⟩
  rw [if_neg hnone]
  have hmem : name.index ∉ l := by
    intro hmem
    refine hnone ⟨h.chain.pos _ hmem, h.range _ hmem, ?_⟩
    exact congrArg (fun e => e.cap.type) (h.free _ hmem)
  by_cases hgen : 0 < name.index ∧ name.index < s.tableSize ∧ (s.table name.index).gen = name.gen
  · rw [if_pos hgen]
    exact ⟨_, _, rfl, hself, rfl, hgen.1, hgen.2.1, hmem, hgen.2.2⟩
  rw [if_neg hgen]
  have hnot : ¬ s.InTable l name := fun hin => hgen ⟨hin.1, hin.2.1, hin.2.2.2⟩
  -- the lookup in the tree, which is not made in an empty one
  obtain ⟨tree, hlook, htree⟩ : ∃ tree, (if s.treeTotal > 0 then s.treeLookup name else (none, s)) =
      ((tm name).map fun _ => EntryRef.tree name, ({ s with tree := tree } : IpcSpace)) ∧
      Holds tree tm s.treeTotal := by
    split_ifs with htotal
    · obtain ⟨hfst, tree, hsnd, htree⟩ := h.treeLookup name
      exact ⟨tree, Prod.ext hfst hsnd, htree⟩
    · have hzero := h.tree
      rw [show s.treeTotal = 0 by omega] at hzero
      exact ⟨s.tree, by rw [hzero.eq_zero name]; rfl, h.tree⟩
  rw [hlook]
  dsimp only
  have hrep := h.reshape htree
  cases hname : tm name with
  | some c => exact ⟨_, _, rfl, ⟨tree, rfl, htree⟩, rfl, by simp [hname]⟩
  | none =>
    dsimp only [Option.map_none]
    have hfresh : s.contents tm l name = none := (contents_of_not hnot).trans hname
    split_ifs with hgrow htentry
    · exact ⟨_, _, rfl, ⟨tree, rfl, htree⟩, fun _ => hfresh⟩
    · have hall := hrep.allocTree hname hnot hmem hbot htop
      exact ⟨_, _, rfl, _, l, hall.rep, hall.fresh, hall.contents, hall.ref⟩
    · exact ⟨_, _, rfl, ⟨tree, rfl, htree⟩, fun _ => hfresh⟩

end IpcSpace

namespace IpcSpace
variable [TableSizes] {s : IpcSpace} {tm : MachPort → Option Capability} {l : List ℕ}
  {n : MachPort} {c : Capability}

/-! ## Deallocation -/

/-- The entry of the name is gone. -/
structure Deallocated (s s' : IpcSpace) (tm : MachPort → Option Capability) (l : List ℕ)
    (name : MachPort) (tm' : MachPort → Option Capability) (l' : List ℕ) : Prop where
  rep : s'.Rep tm' l'
  contents : s'.contents tm' l' = update (s.contents tm l) name none

theorem Rep.deallocSlot (h : s.Rep tm l) (hin : s.InTable l n)
    (hobj : (s.table n.index).cap.object = none) (hcol : (s.table n.index).collision = false) :
    s.Deallocated (s.dealloc n (.table n.index)) tm l n tm (n.index :: l) := by
  obtain ⟨hpos, hlt, hmem, hgen⟩ := hin
  have h0 : (0 : ℕ) ≠ n.index := ne_of_lt hpos
  have hnone : ∀ k : MachPort, k.index = n.index → tm k = none := fun k hk =>
    h.collision_false hlt hcol hk
  obtain ⟨t, hstate, hti, ht0, ht⟩ : ∃ t, s.dealloc n (.table n.index) = { s with table := t } ∧
      t n.index = ⟨{ Capability.zero with request := (s.table 0).next }, n.gen, false⟩ ∧
      t 0 = (s.table 0).setNext n.index ∧ ∀ j, j ≠ n.index → j ≠ 0 → t j = s.table j := by
    unfold IpcSpace.dealloc
    dsimp only
    rw [if_pos ⟨hlt, rfl⟩, if_neg (by rw [hcol]; simp)]
    refine ⟨_, rfl, ?_, ?_, fun j hj hj0 => ?_⟩
    · rw [update_of_ne h0.symm]
      change update s.table n.index _ n.index = _
      rw [update_self, hobj, hgen]
      rfl
    · rw [update_self]
      change (update s.table n.index _ 0).setNext n.index = _
      rw [update_of_ne h0]
    · rw [update_of_ne hj0]
      exact update_of_ne hj ..
  rw [hstate]
  have hsame : ∀ j ∈ l, t j = s.table j := by
    intro j hj
    refine ht j ?_ (by have := h.chain.pos j hj; omega)
    rintro rfl
    exact hmem hj
  have hinTable : ∀ k, ({ s with table := t } : IpcSpace).InTable (n.index :: l) k ↔
      s.InTable l k ∧ k.index ≠ n.index := by
    intro k
    simp only [InTable, List.mem_cons, not_or]
    constructor
    · rintro ⟨hkpos, hklt, ⟨hk, hkmem⟩, hkgen⟩
      rw [ht _ hk (by omega)] at hkgen
      exact ⟨⟨hkpos, hklt, hkmem, hkgen⟩, hk⟩
    · rintro ⟨⟨hkpos, hklt, hkmem, hkgen⟩, hk⟩
      rw [ht _ hk (by omega)]
      exact ⟨hkpos, hklt, ⟨hk, hkmem⟩, hkgen⟩
  have hzero : ∀ {α : Type} (f : IpcEntry → α), (f ((s.table 0).setNext n.index) = f (s.table 0)) →
      f (t 0) = f (s.table 0) := fun f hf => by rw [ht0, hf]
  refine ⟨⟨h.level, (hzero (fun e => e.cap.type) rfl).trans h.head,
    (hzero IpcEntry.gen rfl).trans h.headGen, ?_, ?_, ?_, h.tree, h.bot, h.top, ?_, ?_, h.small⟩, ?_⟩
  · refine ⟨by dsimp only; rw [ht0]; rfl, hpos, ?_⟩
    dsimp only
    rw [hti]
    exact h.chain.congr fun j hj => congrArg IpcEntry.next (hsame j hj)
  · intro j hj
    rcases List.mem_cons.mp hj with rfl | hj
    · exact hlt
    · exact h.range j hj
  · intro j hj
    dsimp only
    rcases List.mem_cons.mp hj with rfl | hj
    · rw [hti]
      rfl
    · rw [hsame j hj]
      exact h.free j hj
  · exact fun k hk => h.disjoint k ((hinTable k).mp hk).1
  · intro j hj
    dsimp only
    rcases eq_or_ne j n.index with rfl | hji
    · rw [hti]
      constructor
      · intro hc
        cases hc
      · rintro ⟨k, hk, hki⟩
        exact absurd (hnone k hki) hk
    · rcases eq_or_ne j 0 with rfl | hj0
      · rw [ht0]
        exact h.collision 0 hj
      · rw [ht j hji hj0]
        exact h.collision j hj
  · funext k
    rcases eq_or_ne k n with rfl | hne
    · rw [update_self, contents_of_not fun hk => ((hinTable k).mp hk).2 rfl]
      exact hnone k rfl
    · rw [update_of_ne hne]
      by_cases hk : s.InTable l k
      · have hki : k.index ≠ n.index := fun heq =>
          hne (MachPort.ext heq (hk.2.2.2.symm.trans (heq ▸ hgen)))
        rw [contents_of_inTable hk, contents_of_inTable ((hinTable k).mpr ⟨hk, hki⟩)]
        dsimp only
        rw [ht _ hki (by have := hk.1; omega)]
      · rw [contents_of_not hk, contents_of_not fun hk' => hk ((hinTable k).mp hk').1]

theorem Rep.deallocTree (h : s.Rep tm l) (hn : tm n ≠ none) :
    s.Deallocated (s.dealloc n (.tree n)) tm l n (update tm n none) l := by
  obtain ⟨htotal, hdel⟩ := h.tree.delete hn
  have hnot : ¬ s.InTable l n := fun hin => hn (h.disjoint n hin)
  have hmem : n.index ∉ l := fun hmem => hn (h.free_none hmem)
  have hle : ∀ k, tm k = none → update tm n none k = none := by
    intro k hk
    rcases eq_or_ne k n with rfl | hne
    · exact update_self ..
    · rwa [update_of_ne hne]
  have hbot := hle ⊥ h.bot
  have htop := hle ⊤ h.top
  have hdisj := fun k hk => hle k (h.disjoint k hk)
  have hother : ∀ j, j ≠ n.index → (Collides (update tm n none) j ↔ Collides tm j) :=
    fun j hj => collides_update hj
  obtain ⟨hiff, tree, hcs, htree⟩ := treeCollision_of
    (s := { s with tree := s.tree.delete n, treeTotal := s.treeTotal - 1 }) hdel hbot htop n
  have hcont : ∀ k, k ≠ n → (s.contents tm l k = s.contents (update tm n none) l k) := by
    intro k hk
    rw [contents, contents, update_of_ne hk]
  unfold IpcSpace.dealloc
  dsimp only
  rw [if_neg fun hc => by cases hc.2]
  by_cases hlt : n.index < s.tableSize
  · rw [if_pos (by exact hlt)]
    -- the slot keeps its collision bit when another name has the index
    obtain ⟨b, hb, hstate⟩ : ∃ b, (b = true ↔ Collides (update tm n none) n.index) ∧
        (if (IpcSpace.treeCollision
            { s with tree := s.tree.delete n, treeTotal := s.treeTotal - 1 } n).1 = false then
          (IpcSpace.treeCollision
            { s with tree := s.tree.delete n, treeTotal := s.treeTotal - 1 } n).2.modifySlot n.index
              fun e => { e with collision := false }
        else (IpcSpace.treeCollision
          { s with tree := s.tree.delete n, treeTotal := s.treeTotal - 1 } n).2) =
        ({ s with tree := tree, treeTotal := s.treeTotal - 1 } : IpcSpace).modifySlot n.index
          fun e => { e with collision := b } := by
      rw [hcs]
      by_cases hc : Collides (update tm n none) n.index
      · refine ⟨true, iff_of_true rfl hc, ?_⟩
        rw [if_neg (by rw [hiff.mpr hc]; simp)]
        have hold : (s.table n.index).collision = true := (h.collision _ hlt).mpr ⟨n, hn, rfl⟩
        have heq : ({ s.table n.index with collision := true } : IpcEntry) = s.table n.index := by
          rw [← hold]
        simp only [modifySlot, heq, update_eq_self]
      · refine ⟨false, iff_of_false (by simp) hc, ?_⟩
        rw [if_pos (by rw [← Bool.not_eq_true, hiff]; exact hc)]
    rw [hstate]
    refine ⟨h.setSlot hlt hmem _ (fun h0 => h0 ▸ ⟨rfl, rfl⟩) htree hbot ?_ ?_ hb, ?_⟩
    · intro k hk
      have hne : k ≠ n := by
        rintro rfl
        exact hk rfl
      exact update_of_ne hne ..
    · intro k hk hpos hgen
      refine hdisj k ⟨hk ▸ hpos, hk ▸ hlt, hk ▸ hmem, ?_⟩
      rw [hk]
      exact hgen
    · funext k
      by_cases hk : k.index = n.index
      · refine (contents_setSlot_of_eq hlt hmem hk).trans ?_
        rcases eq_or_ne k n with rfl | hne
        · rw [update_self, update_self]
          exact if_neg fun hc => hnot ⟨hc.1, hlt, hmem, hc.2⟩
        · rw [update_of_ne hne, update_of_ne hne]
          simp only [contents, InTable, hk]
          exact if_congr ⟨fun hc => ⟨hc.1, hlt, hmem, hc.2⟩, fun hc => ⟨hc.1, hc.2.2.2⟩⟩ rfl rfl
      · have hne : k ≠ n := by
          rintro rfl
          exact hk rfl
        rw [update_of_ne hne]
        exact contents_setSlot_of_ne (update_of_ne hne ..) hk
  · rw [if_neg (by exact hlt)]
    have hsize : s.tableSize ≤ n.index := not_lt.mp hlt
    obtain ⟨tree', small, htree', hstate, hsmall⟩ : ∃ tree' small,
        Holds tree' (update tm n none) (s.treeTotal - 1) ∧
        (if n.index < s.tableNext then
          if (IpcSpace.treeCollision
              { s with tree := s.tree.delete n, treeTotal := s.treeTotal - 1 } n).1 = false then
            let s' := (IpcSpace.treeCollision
              { s with tree := s.tree.delete n, treeTotal := s.treeTotal - 1 } n).2
            { s' with treeSmall := s'.treeSmall - 1 }
          else (IpcSpace.treeCollision
            { s with tree := s.tree.delete n, treeTotal := s.treeTotal - 1 } n).2
        else { s with tree := s.tree.delete n, treeTotal := s.treeTotal - 1 }) =
          { s with tree := tree', treeTotal := s.treeTotal - 1, treeSmall := small } ∧
        small = (smallIndices (update tm n none) s.tableSize s.tableNext).ncard := by
      by_cases hnext : n.index < s.tableNext
      · rw [if_pos hnext, hcs]
        by_cases hc : Collides (update tm n none) n.index
        · rw [if_neg (by rw [hiff.mpr hc]; simp)]
          refine ⟨tree, s.treeSmall, htree, rfl, ?_⟩
          refine h.small.trans (congrArg Set.ncard (smallIndices_congr fun j _ _ => ?_).symm)
          rcases eq_or_ne j n.index with rfl | hne
          · exact iff_of_true hc ⟨n, hn, rfl⟩
          · exact hother j hne
        · rw [if_pos (by rw [← Bool.not_eq_true, hiff]; exact hc)]
          refine ⟨tree, s.treeSmall - 1, htree, rfl, ?_⟩
          have hcard := ncard_smallIndices_insert (fun j hj => (hother j hj).symm) ⟨hsize, hnext⟩
            ⟨n, hn, rfl⟩ hc
          rw [h.small, hcard, Nat.add_sub_cancel]
      · rw [if_neg hnext]
        refine ⟨_, s.treeSmall, hdel, rfl, ?_⟩
        exact h.small.trans (congrArg Set.ncard
          (smallIndices_congr fun j _ hj => hother j (by omega)).symm)
    have hdone : s.Deallocated { s with tree := tree', treeTotal := s.treeTotal - 1, treeSmall := small }
        tm l n (update tm n none) l := by
      refine ⟨h.setTree htree' hbot htop hdisj (fun j hj => hother j (by omega)) hsmall, ?_⟩
      funext k
      change s.contents (update tm n none) l k = _
      rcases eq_or_ne k n with rfl | hne
      · rw [contents_of_not hnot, update_self, update_self]
      · rw [update_of_ne hne, hcont k hne]
    rw [← hstate] at hdone
    exact hdone

end IpcSpace

namespace IpcSpace
variable [TableSizes] {s : IpcSpace} {tm : MachPort → Option Capability} {l : List ℕ}
  {n : MachPort} {c : Capability}

theorem Rep.splitIndex (h : s.Rep tm l) {i : ℕ} (hi : i < s.tableSize) :
    ∃ a b d, a + b + d = s.treeTotal ∧
      Holds (s.tree.split (.make (i + 1) 0) scratchTree).1 (fun k => if i < k.index then tm k else
        none) a ∧
      Holds ((s.tree.split (.make (i + 1) 0) scratchTree).2.split (.make i 0) scratchTree).1
        (fun k => if k.index = i then tm k else none) b ∧
      Holds ((s.tree.split (.make (i + 1) 0) scratchTree).2.split (.make i 0) scratchTree).2
        (fun k => if k.index < i then tm k else none) d := by
  have hsize := tableSize_le h.level
  obtain ⟨a, bd, habd, hlarge, hrest⟩ := h.tree.split (.make (i + 1) 0) scratchTree
  obtain ⟨b, d, hbd, hcoll, hsmall⟩ := hrest.split (.make i 0) scratchTree
  refine ⟨a, b, d, by omega, hlarge.ext (fun k => ?_) rfl, hcoll.ext (fun k => ?_) rfl,
    hsmall.ext (fun k => ?_) rfl⟩
  · have := MachPort.lt_make k (i := i + 1) (by omega)
    by_cases hk : i < k.index
    · rw [if_neg (by rw [this]; omega), if_pos hk]
    · rw [if_pos (by rw [this]; omega), if_neg hk]
  · have hk₁ := MachPort.lt_make k (i := i + 1) (by omega)
    have hk₂ := MachPort.lt_make k (i := i) (by omega)
    by_cases hk : k.index = i
    · rw [if_neg (by rw [hk₂]; omega), if_pos (by rw [hk₁]; omega), if_pos hk]
    · rw [if_neg hk]
      by_cases hlt : k.index < i
      · rw [if_pos (by rw [hk₂]; exact hlt)]
      · rw [if_neg (by rw [hk₂]; exact hlt), if_neg (by rw [hk₁]; omega)]
  · have hk₁ := MachPort.lt_make k (i := i + 1) (by omega)
    have hk₂ := MachPort.lt_make k (i := i) (by omega)
    by_cases hk : k.index < i
    · rw [if_pos (by rw [hk₂]; exact hk), if_pos (by rw [hk₁]; omega), if_pos hk]
    · rw [if_neg (by rw [hk₂]; exact hk), if_neg hk]

theorem Rep.deallocMove (h : s.Rep tm l) (hin : s.InTable l n)
    (hcol : (s.table n.index).collision = true) : ∃ tname, tname.index = n.index ∧ tm tname ≠ none ∧
      (((s.tree.split (.make (n.index + 1) 0) scratchTree).2.split (.make n.index 0)
        scratchTree).1.pick.map Prod.fst = some tname) ∧
      s.Deallocated (s.dealloc n (.table n.index)) tm l n (update tm tname none) l ∧
      (s.dealloc n (.table n.index)).RefOf (update tm tname none) l tname (.table n.index) := by
  obtain ⟨hpos, hlt, hmem, hgen⟩ := id hin
  obtain ⟨a, b, d, habd, hlarge, hcoll, hsmall⟩ := h.splitIndex hlt
  obtain ⟨k₀, hk₀, hk₀i⟩ := (h.collision _ hlt).mp hcol
  cases hpick : ((s.tree.split (.make (n.index + 1) 0) scratchTree).2.split (.make n.index 0)
      scratchTree).1.pick with
  | none =>
    have := hcoll.pick_none.mp hpick k₀
    rw [if_pos hk₀i] at this
    exact absurd this hk₀
  | some p =>
    obtain ⟨tname, tentry⟩ := p
    have hp := hcoll.pick_some hpick
    dsimp only at hp
    have hti : tname.index = n.index := by
      by_contra hne
      rw [if_neg hne] at hp
      cases hp
    rw [if_pos hti] at hp
    have htn : tname ≠ n := by
      rintro rfl
      rw [h.disjoint _ hin] at hp
      cases hp
    have hne : tm tname ≠ none := by rw [hp]; simp
    refine ⟨tname, hti, hne, rfl, ?_⟩
    have hpicked : (fun k : MachPort => if k.index = n.index then tm k else none) tname ≠ none := by
      dsimp only
      rw [if_pos hti]
      exact hne
    obtain ⟨hbpos, hdel⟩ := hcoll.delete hpicked
    have hcm : ∀ k, update (fun k => if k.index = n.index then tm k else none) tname none k =
        if k.index = n.index then update tm tname none k else none := by
      intro k
      rcases eq_or_ne k tname with rfl | hk
      · rw [update_self, update_self, ite_self]
      · rw [update_of_ne hk, update_of_ne hk]
    have hdel' := hdel.ext hcm rfl
    -- the tree without the entry, put together again
    obtain ⟨rest, tree, hrest, htree, hstate⟩ : ∃ rest tree,
        (rest = true ↔ Collides (update tm tname none) n.index) ∧
        Holds tree (update tm tname none) (s.treeTotal - 1) ∧
        s.dealloc n (.table n.index) = { s.modifySlot n.index fun _ => ⟨tentry, tname.gen, rest⟩ with
          tree := tree, treeTotal := s.treeTotal - 1 } := by
      have hrestIff : ∀ o : Option (MachPort × Capability),
          (o = none ↔ ∀ k : MachPort, (if k.index = n.index then update tm tname none k
            else none) = none) →
          (o.isSome = true ↔ Collides (update tm tname none) n.index) := by
        intro o ho
        rw [Option.isSome_iff_ne_none, ne_eq, ho]
        constructor
        · intro hall
          by_contra hnot
          refine hall fun k => ?_
          split_ifs with hk
          · by_contra hk'
            exact hnot ⟨k, hk', hk⟩
          · rfl
        · rintro ⟨k, hk, hki⟩ hall
          have := hall k
          rw [if_pos hki] at this
          exact hk this
      unfold IpcSpace.dealloc
      dsimp only
      rw [if_pos ⟨hlt, rfl⟩, if_pos hcol, hpick]
      dsimp only
      refine ⟨_, _, hrestIff _ hdel'.pick_none, ?_, rfl⟩
      have hlow : ∀ x : MachPort, (if x.index < n.index then tm x else none) ≠ none →
          x.index < n.index := by
        intro x hx
        by_contra hnot
        rw [if_neg hnot] at hx
        exact hx rfl
      have hhigh : ∀ x : MachPort, (if n.index < x.index then tm x else none) ≠ none →
          n.index < x.index := by
        intro x hx
        by_contra hnot
        rw [if_neg hnot] at hx
        exact hx rfl
      have hmiddle : ∀ x : MachPort, (if x.index = n.index then update tm tname none x
          else none) ≠ none → x.index = n.index := by
        intro x hx
        by_contra hnot
        rw [if_neg hnot] at hx
        exact hx rfl
      split_ifs with hsome
      · have hjoin := hlarge.join hdel' fun x y hx hy =>
          MachPort.lt_of_index_lt ((hmiddle x hx).trans_lt (hhigh y hy))
        have hjoin' := hjoin.join hsmall fun x y hx hy => ?_
        · refine hjoin'.ext (fun k => ?_) (by omega)
          rcases eq_or_ne k tname with rfl | hk
          · simp [hti]
          · simp only [update_of_ne hk]
            rcases lt_trichotomy k.index n.index with hlt' | heq | hgt
            · simp [hlt', hlt'.ne, hlt'.not_gt]
            · simp [heq]
            · simp [hgt, hgt.ne', hgt.not_gt]
        · refine MachPort.lt_of_index_lt ((hlow x hx).trans_le ?_)
          by_contra hnot
          have h₁ := mt (hmiddle y) (by omega)
          have h₂ := mt (hhigh y) (by omega)
          rw [not_not.mp h₁, not_not.mp h₂] at hy
          exact hy rfl
      · have hb0 : b - 1 = 0 := by
          by_contra hb0
          have hnone : (((s.tree.split (.make (n.index + 1) 0) scratchTree).2.split
              (.make n.index 0) scratchTree).1.delete tname).pick = none := by simpa using hsome
          have hnil := (SplayTree.pick_spec _).1.mp hnone
          have hlen := hdel'.length
          rw [hnil] at hlen
          exact hb0 hlen.symm
        rw [hb0] at hdel'
        have hjoin := hlarge.join hsmall fun x y hx hy =>
          MachPort.lt_of_index_lt ((hlow x hx).trans (hhigh y hy))
        refine hjoin.ext (fun k => ?_) (by omega)
        have hk := hdel'.eq_zero k
        rcases eq_or_ne k tname with rfl | hne
        · simp [hti]
        · rw [update_of_ne hne] at hk ⊢
          rcases lt_trichotomy k.index n.index with hlt' | heq | hgt
          · simp [hlt', hlt'.not_gt]
          · rw [if_pos heq] at hk
            simp [heq, hk]
          · simp [hgt, hgt.not_gt]
    rw [hstate]
    have hbot : update tm tname none ⊥ = none := by
      rcases eq_or_ne ⊥ tname with heq | hne
      · rw [← heq, update_self]
      · rw [update_of_ne hne, h.bot]
    have hother : ∀ k : MachPort, k.index ≠ n.index → update tm tname none k = tm k := by
      intro k hk
      have hne : k ≠ tname := by
        rintro rfl
        exact hk hti
      exact update_of_ne hne ..
    refine ⟨⟨h.setSlot hlt hmem _ (by omega) htree hbot hother ?_ hrest, ?_⟩, hti.symm, ?_⟩
    · intro k hk _ hgenk
      rw [MachPort.ext (hk.trans hti.symm) hgenk.symm, update_self]
    · funext k
      by_cases hk : k.index = n.index
      · refine (contents_setSlot_of_eq hlt hmem hk).trans ?_
        dsimp only
        rcases eq_or_ne k tname with rfl | hkt
        · have hnot : ¬ s.InTable l k := fun hk' => hne (h.disjoint k hk')
          rw [if_pos ⟨hpos, rfl⟩, update_of_ne htn, contents_of_not hnot, hp]
        · rw [if_neg fun hc => hkt (MachPort.ext (hk.trans hti.symm) hc.2.symm), update_of_ne hkt]
          rcases eq_or_ne k n with rfl | hkn
          · rw [update_self, h.disjoint k hin]
          · have hnot : ¬ s.InTable l k := fun hk' =>
              hkn (MachPort.ext hk ((hk ▸ hk'.2.2.2.symm).trans hgen))
            rw [update_of_ne hkn, contents_of_not hnot]
      · have hkn : k ≠ n := by
          rintro rfl
          exact hk rfl
        rw [update_of_ne hkn]
        exact contents_setSlot_of_ne (s := s) (hother k hk) hk
    · refine ⟨hti ▸ hpos, hti ▸ hlt, hti ▸ hmem, ?_⟩
      change (update s.table n.index _ tname.index).gen = tname.gen
      rw [hti, update_self]

theorem Rep.dealloc (h : s.Rep tm l) {r : EntryRef} (hr : s.RefOf tm l n r)
    (hc : s.contents tm l n = some c) (hobj : c.object = none) :
    ∃ tm' l', s.Deallocated (s.dealloc n r) tm l n tm' l' := by
  cases r with
  | table i =>
    obtain ⟨rfl, hin⟩ := hr
    rw [contents_of_inTable hin] at hc
    obtain rfl := Option.some.inj hc
    cases hcol : (s.table n.index).collision with
    | false => exact ⟨_, _, h.deallocSlot hin hobj hcol⟩
    | true =>
      obtain ⟨tname, -, -, -, hdone, -⟩ := h.deallocMove hin hcol
      exact ⟨_, _, hdone⟩
  | tree k =>
    obtain ⟨rfl, hk⟩ := hr
    exact ⟨_, _, h.deallocTree hk⟩

end IpcSpace

end MachKernel.Ipc
