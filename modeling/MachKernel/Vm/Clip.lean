import MachKernel.Vm.Map

/-! Clipping map entries at an address (`vm_map_clip_start`, `vm_map_clip_end`). -/

namespace MachKernel.Vm
open List
open Word32 Linked

namespace VmMap

/-- The entry with a name. -/
def entryAt (m : VmMap) (i : ℕ) : Option VmMapEntry := m.entries.find? fun e => e.id = i

/-- An entry is replaced by two, one of which keeps its name. -/
def split (m : VmMap) (i : ℕ) (f : VmMapEntry → List VmMapEntry) : VmMap :=
  { m with
    entries := replace VmMapEntry.id i f m.entries
    nentries := m.nentries + 1
    nextId := m.nextId + 1 }

/-- `vm_map_clip_start`: the front portion goes to a new entry before this one. -/
def clipStart (m : VmMap) (i start : ℕ) : VmMap :=
  match m.entryAt i with
  | none => m
  | some e =>
    if e.vmeStart < start then
      m.split i fun e =>
        [{ e with id := m.nextId, vmeEnd := start },
          { e with vmeStart := start, offset := add e.offset (sub start e.vmeStart) }]
    else m

/-- `vm_map_clip_end`: the back portion goes to a new entry after this one. -/
def clipEnd (m : VmMap) (i stop : ℕ) : VmMap :=
  match m.entryAt i with
  | none => m
  | some e =>
    if stop < e.vmeEnd then
      m.split i fun e =>
        [{ e with vmeEnd := stop },
          { e with id := m.nextId, vmeStart := stop, offset := add e.offset (sub stop e.vmeStart) }]
    else m

end VmMap

/-- Entries that follow each other from one address to another. -/
def Covers : ℕ → ℕ → List VmMapEntry → Prop
  | lo, hi, [] => lo = hi
  | lo, hi, e :: l => e.vmeStart = lo ∧ e.vmeStart < e.vmeEnd ∧ Covers e.vmeEnd hi l

section
variable {lo mid hi : ℕ} {l l' : List VmMapEntry} {e : VmMapEntry}

theorem Covers.le (h : Covers lo hi l) : lo ≤ hi := by
  induction l generalizing lo with
  | nil => exact le_of_eq h
  | cons e l ih =>
    obtain ⟨hs, hlt, hrest⟩ := h
    have := ih hrest
    omega

theorem Covers.append (h : Covers lo mid l) (h' : Covers mid hi l') : Covers lo hi (l ++ l') := by
  induction l generalizing lo with
  | nil =>
    have heq : lo = mid := h
    rw [heq]
    exact h'
  | cons e l ih => exact ⟨h.1, h.2.1, ih h.2.2⟩

theorem Covers.bounds (h : Covers lo hi l) (he : e ∈ l) :
    lo ≤ e.vmeStart ∧ e.vmeStart < e.vmeEnd ∧ e.vmeEnd ≤ hi := by
  induction l generalizing lo with
  | nil => cases he
  | cons a l ih =>
    obtain ⟨hs, hlt, hrest⟩ := h
    have hle := hrest.le
    rcases mem_cons.mp he with rfl | he
    · omega
    · have := ih hrest he
      omega

theorem Covers.ascending (h : Covers lo hi l) : Ascending l := by
  induction l generalizing lo with
  | nil => exact .nil
  | cons a l ih =>
    exact pairwise_cons.mpr ⟨fun b hb => (h.2.2.bounds hb).1, ih h.2.2⟩

theorem Covers.mem_iff (h : Covers lo hi l) (x : ℕ) :
    (∃ e ∈ l, e.vmeStart ≤ x ∧ x < e.vmeEnd) ↔ lo ≤ x ∧ x < hi := by
  constructor
  · rintro ⟨e, he, hx⟩
    have := h.bounds he
    omega
  · intro hx
    induction l generalizing lo with
    | nil =>
      have heq : lo = hi := h
      omega
    | cons a l ih =>
      by_cases hlt : x < a.vmeEnd
      · exact ⟨a, mem_cons_self, by have := h.1; omega, hlt⟩
      · obtain ⟨e, he, hx⟩ := ih h.2.2 ⟨by omega, hx.2⟩
        exact ⟨e, mem_cons_of_mem _ he, hx⟩

theorem Covers.sizeSum (h : Covers lo hi l) : sizeSum l = hi - lo := by
  induction l generalizing lo with
  | nil =>
    have heq : lo = hi := h
    simp [Vm.sizeSum, heq]
  | cons a l ih =>
    have := h.2.2.le
    have := h.1
    have := h.2.1
    rw [sizeSum_cons, ih h.2.2]
    omega

end

section
variable [PageSize] {m m' : VmMap} {pre post l : List VmMapEntry} {e : VmMapEntry}

/-- What may take the place of an entry: entries that follow each other over the same range, one of
them with its name, the others with new names. -/
structure VmMap.Divides (m m' : VmMap) (e : VmMapEntry) (l : List VmMapEntry) : Prop where
  covers : Covers e.vmeStart e.vmeEnd l
  aligned : ∀ a ∈ l, PageAligned a.vmeStart ∧ PageAligned a.vmeEnd
  name : e.id ∈ l.map VmMapEntry.id
  names : ∀ a ∈ l, a.id = e.id ∨ m.nextId ≤ a.id ∧ a.id < m'.nextId
  distinct : Distinct VmMapEntry.id l

/-- Nothing but the entries, their number and the next name differs. -/
structure VmMap.SameHeader (m m' : VmMap) : Prop where
  size : m'.size = m.size
  minOffset : m'.minOffset = m.minOffset
  maxOffset : m'.maxOffset = m.maxOffset
  hint : m'.hint = m.hint
  firstFree : m'.firstFree = m.firstFree
  nextId : m.nextId ≤ m'.nextId

theorem VmMap.WellFormed.divide (hwf : m.WellFormed) (hsplit : m.entries = pre ++ e :: post)
    (hentries : m'.entries = pre ++ l ++ post) (hdiv : m.Divides m' e l)
    (hhead : m.SameHeader m') (hn : m'.nentries + 1 = m.nentries + l.length) :
    m'.WellFormed ∧ ∀ x, m'.Maps x ↔ m.Maps x := by
  have hmem : e ∈ m.entries := by rw [hsplit]; simp
  have hin := hwf.inside e hmem
  have hlt := hwf.nonempty e hmem
  have hseg : Segment m.minOffset m.maxOffset m'.entries := by
    have hold := hwf.segment
    rw [hsplit] at hold
    have hasc := hold.ascending
    have hmid : Segment e.vmeStart e.vmeEnd l :=
      ⟨hdiv.covers.ascending, fun a ha => (hdiv.covers.bounds ha).2.1, hdiv.aligned,
        fun a ha => ⟨(hdiv.covers.bounds ha).1, (hdiv.covers.bounds ha).2.2⟩⟩
    have hpre : Segment m.minOffset e.vmeStart pre :=
      hold.left fun a ha => hasc.le_of_mem ha mem_cons_self
    have hpost : Segment e.vmeEnd m.maxOffset post := by
      rw [append_cons] at hold hasc
      apply hold.right
      intro b hb
      exact hasc.le_of_mem (mem_append_right pre (mem_singleton_self e)) hb
    rw [hentries]
    apply Segment.append _ hpost (by omega) hin.2
    exact hpre.append hmid hin.1 hlt.le
  have hnames : ∀ i, i ∈ m.entries.map VmMapEntry.id → i ∈ m'.entries.map VmMapEntry.id := by
    intro i hi
    rw [hsplit] at hi
    rw [hentries]
    simp only [map_append, map_cons, mem_append, mem_cons] at hi ⊢
    rcases hi with hi | rfl | hi
    · exact .inl (.inl hi)
    · exact .inl (.inr hdiv.name)
    · exact .inr hi
  have hnewNames : ∀ a ∈ l, ∀ b ∈ pre ++ post, b.id ≠ a.id := by
    intro a ha b hb heq
    have hb' : b ∈ m.entries := by
      rw [hsplit]
      simp only [mem_append, mem_cons] at hb ⊢
      tauto
    have hd := hwf.distinct
    rw [hsplit] at hd
    obtain ⟨hpre, hpost⟩ := hd.ne_of_split
    rcases hdiv.names a ha with hid | hid
    · rcases mem_append.mp hb with hb | hb
      · exact hpre b hb (heq.trans hid)
      · exact hpost b hb (heq.trans hid)
    · have := hwf.nextId b hb'
      omega
  refine ⟨⟨hseg.ascending, hseg.nonempty, hseg.aligned, ?_, ?_, ?_, ?_, ?_, ?_, ?_, ?_⟩, ?_⟩
  · rw [hhead.minOffset, hhead.maxOffset]
    exact hseg.inside
  · have hlen : m.nentries = pre.length + (post.length + 1) := by
      rw [hwf.nentries, hsplit, length_append, length_cons]
    rw [hentries]
    simp only [length_append]
    omega
  · rw [hhead.size, hwf.size, hsplit, hentries]
    simp only [sizeSum_append, sizeSum_cons, hdiv.covers.sizeSum]
    omega
  · rw [hhead.minOffset, hhead.maxOffset]
    exact hwf.bounds
  · have hd := hwf.distinct
    rw [hsplit] at hd
    unfold Distinct at hd ⊢
    have hdl : (l.map VmMapEntry.id).Nodup := hdiv.distinct
    rw [hentries]
    simp only [map_append, map_cons, nodup_append, nodup_cons,
      mem_append, mem_map, mem_cons] at hd hdl ⊢
    refine ⟨⟨hd.1, hdl, ?_⟩, hd.2.1.2, ?_⟩
    · rintro i ⟨a, ha, rfl⟩ j ⟨b, hb, rfl⟩
      exact hnewNames b hb a (mem_append_left _ ha)
    · rintro i (⟨a, ha, rfl⟩ | ⟨a, ha, rfl⟩) j ⟨b, hb, rfl⟩
      · exact hd.2.2 _ ⟨a, ha, rfl⟩ _ (.inr ⟨b, hb, rfl⟩)
      · exact (hnewNames a ha b (mem_append_right _ hb)).symm
  · intro a ha
    have hle := hhead.nextId
    rw [hentries] at ha
    have hold : ∀ b ∈ m.entries, b.id < m'.nextId := fun b hb => by
      have := hwf.nextId b hb
      omega
    rcases mem_append.mp ha with ha | ha
    · rcases mem_append.mp ha with ha | ha
      · exact hold a (by rw [hsplit]; simp [ha])
      · rcases hdiv.names a ha with hid | hid
        · rw [hid]
          exact hold e hmem
        · exact hid.2
    · exact hold a (by rw [hsplit]; simp [ha])
  · intro i hi
    exact hnames i (hwf.hint i (hhead.hint ▸ hi))
  · intro i hi
    exact hnames i (hwf.firstFree i (hhead.firstFree ▸ hi))
  · intro x
    have hcov := hdiv.covers.mem_iff x
    simp only [VmMap.Maps, hentries, hsplit, mem_append, mem_cons, or_and_right,
      exists_or, exists_eq_left]
    rw [hcov, or_assoc]

/-- A part of an entry: the same object, at the offset of the part. -/
structure Piece (e a : VmMapEntry) : Prop where
  isAMap : a.isAMap = e.isAMap
  object : a.object = e.object
  protection : a.protection = e.protection
  inside : e.vmeStart ≤ a.vmeStart ∧ a.vmeEnd ≤ e.vmeEnd
  offset : a.offset = e.offset ∧ a.vmeStart = e.vmeStart ∨
    a.offset = add e.offset (a.vmeStart - e.vmeStart)

/-- What clipping leaves: a part `e'` of the entry keeps its name, the map covers what it did. -/
structure VmMap.Clipped (m m' : VmMap) (e e' : VmMapEntry) : Prop where
  wellFormed : m'.WellFormed
  maps : ∀ x, m'.Maps x ↔ m.Maps x
  mem : e' ∈ m'.entries
  id : e'.id = e.id
  piece : Piece e e'
  pieces : ∀ a ∈ m'.entries, a ∈ m.entries ∨ Piece e a
  timestamp : m'.timestamp = m.timestamp

omit [PageSize] in
theorem Piece.refl (e : VmMapEntry) : Piece e e :=
  ⟨rfl, rfl, rfl, ⟨le_refl _, le_refl _⟩, .inl ⟨rfl, rfl⟩⟩

theorem VmMap.Clipped.refl (hwf : m.WellFormed) (h : e ∈ m.entries) : m.Clipped m e e :=
  ⟨hwf, fun _ => Iff.rfl, h, rfl, .refl e, fun _ ha => .inl ha, rfl⟩

theorem VmMap.WellFormed.split (hwf : m.WellFormed) (h : e ∈ m.entries)
    {f : VmMapEntry → List VmMapEntry} {a b e' : VmMapEntry} (hf : f e = [a, b])
    (hids : a.id = e.id ∧ b.id = m.nextId ∧ e' = a ∨ a.id = m.nextId ∧ b.id = e.id ∧ e' = b)
    {x : ℕ} (hx : PageAligned x) (hlo : e.vmeStart < x) (hhi : x < e.vmeEnd)
    (ha : Piece e a ∧ a.vmeStart = e.vmeStart ∧ a.vmeEnd = x)
    (hb : Piece e b ∧ b.vmeStart = x ∧ b.vmeEnd = e.vmeEnd) : m.Clipped (m.split e.id f) e e' := by
  obtain ⟨pre, post, hsplit⟩ := append_of_mem h
  have hd := hwf.distinct
  rw [hsplit] at hd
  have hentries : (m.split e.id f).entries = pre ++ [a, b] ++ post := by
    simp only [VmMap.split, hsplit]
    rw [replace_split hd, hf]
  have hnext := hwf.nextId e h
  have hal := hwf.aligned e h
  have hcov : Covers e.vmeStart e.vmeEnd [a, b] :=
    ⟨ha.2.1, by omega, by omega, by omega, hb.2.2⟩
  have hdiv : m.Divides (m.split e.id f) e [a, b] := by
    have hnid : (m.split e.id f).nextId = m.nextId + 1 := rfl
    refine ⟨hcov, ?_, ?_, ?_, ?_⟩
    · intro c hc
      rcases mem_pair.mp hc with rfl | rfl
      · rw [ha.2.1, ha.2.2]
        exact ⟨hal.1, hx⟩
      · rw [hb.2.1, hb.2.2]
        exact ⟨hx, hal.2⟩
    · rcases hids with ⟨hid, -⟩ | ⟨-, hid, -⟩
      · simp [hid]
      · simp [hid]
    · intro c hc
      rw [hnid]
      rcases mem_pair.mp hc with rfl | rfl
      · omega
      · omega
    · simp only [Distinct, map_cons, map_nil, nodup_cons, mem_singleton,
        not_mem_nil, not_false_eq_true, nodup_nil, and_true]
      omega
  obtain ⟨hwf', hmaps⟩ := hwf.divide hsplit hentries hdiv
    ⟨rfl, rfl, rfl, rfl, rfl, Nat.le_succ _⟩ rfl
  refine ⟨hwf', hmaps, ?_, ?_, ?_, ?_, rfl⟩
  · rw [hentries]
    rcases hids with ⟨-, -, rfl⟩ | ⟨-, -, rfl⟩ <;> simp
  · rcases hids with ⟨hid, -, rfl⟩ | ⟨-, hid, rfl⟩ <;> exact hid
  · rcases hids with ⟨-, -, rfl⟩ | ⟨-, -, rfl⟩
    · exact ha.1
    · exact hb.1
  · intro c hc
    rw [hentries] at hc
    rw [hsplit]
    simp only [mem_append, mem_cons, not_mem_nil, or_false] at hc ⊢
    rcases hc with (hc | rfl | rfl) | hc
    · exact .inl (.inl hc)
    · exact .inr ha.1
    · exact .inr hb.1
    · exact .inl (.inr (.inr hc))

theorem VmMap.WellFormed.entryAt (hwf : m.WellFormed) (h : e ∈ m.entries) :
    m.entryAt e.id = some e := hwf.distinct.find h

theorem VmMap.WellFormed.clipStart (hwf : m.WellFormed) (h : e ∈ m.entries) {x : ℕ}
    (hx : PageAligned x) (hlo : e.vmeStart ≤ x) (hhi : x < e.vmeEnd) :
    ∃ e', m.Clipped (m.clipStart e.id x) e e' ∧ e'.vmeStart = x ∧ e'.vmeEnd = e.vmeEnd := by
  have hmax := hwf.inside e h
  have hbound := hwf.bounds
  unfold VmMap.clipStart
  simp only [hwf.entryAt h]
  split_ifs with hlt
  · refine ⟨_, hwf.split h rfl (.inr ⟨rfl, rfl, rfl⟩) hx hlt hhi ⟨⟨rfl, rfl, rfl, ?_, ?_⟩, rfl, rfl⟩
      ⟨⟨rfl, rfl, rfl, ?_, ?_⟩, rfl, rfl⟩, rfl, rfl⟩
    · exact ⟨le_refl _, hhi.le⟩
    · exact .inl ⟨rfl, rfl⟩
    · exact ⟨hlo, le_refl _⟩
    · exact .inr (by rw [sub_of_le (by omega) hlo])
  · exact ⟨e, .refl hwf h, by omega, rfl⟩

theorem VmMap.WellFormed.clipEnd (hwf : m.WellFormed) (h : e ∈ m.entries) {x : ℕ}
    (hx : PageAligned x) (hlo : e.vmeStart < x) :
    ∃ e', m.Clipped (m.clipEnd e.id x) e e' ∧ e'.vmeStart = e.vmeStart ∧
      e'.vmeEnd = min x e.vmeEnd ∧ e'.offset = e.offset := by
  have hmax := hwf.inside e h
  have hbound := hwf.bounds
  unfold VmMap.clipEnd
  simp only [hwf.entryAt h]
  split_ifs with hlt
  · refine ⟨_, hwf.split h rfl (.inl ⟨rfl, rfl, rfl⟩) hx hlo hlt ⟨⟨rfl, rfl, rfl, ?_, ?_⟩, rfl, rfl⟩
      ⟨⟨rfl, rfl, rfl, ?_, ?_⟩, rfl, rfl⟩, rfl, ?_, rfl⟩
    · exact ⟨le_refl _, hlt.le⟩
    · exact .inl ⟨rfl, rfl⟩
    · exact ⟨hlo.le, le_refl _⟩
    · exact .inr (by rw [sub_of_le (by omega) hlo.le])
    · exact (min_eq_left hlt.le).symm
  · exact ⟨e, .refl hwf h, rfl, (min_eq_right (by omega)).symm, rfl⟩

theorem VmMap.WellFormed.modify (hwf : m.WellFormed) (hsplit : m.entries = pre ++ e :: post)
    {f : VmMapEntry → VmMapEntry} (hid : (f e).id = e.id) (hs : (f e).vmeStart = e.vmeStart)
    (he : (f e).vmeEnd = e.vmeEnd) :
    let m' := { m with entries := Linked.update VmMapEntry.id e.id f m.entries }
    m'.entries = pre ++ f e :: post ∧ m'.WellFormed ∧ ∀ x, m'.Maps x ↔ m.Maps x := by
  have hd := hwf.distinct
  rw [hsplit] at hd
  have hmem : e ∈ m.entries := by rw [hsplit]; simp
  have hlt := hwf.nonempty e hmem
  intro m'
  have hentries : m'.entries = pre ++ f e :: post := by
    simp only [m', hsplit]
    exact update_split hd f
  refine ⟨hentries, ?_⟩
  have hdiv : m.Divides m' e [f e] := by
    refine ⟨⟨hs, by omega, he⟩, ?_, ?_, ?_, ?_⟩
    · intro a ha
      rw [mem_singleton.mp ha, hs, he]
      exact hwf.aligned e hmem
    · simp [hid]
    · intro a ha
      rw [mem_singleton.mp ha]
      exact .inl hid
    · simp [Distinct]
  exact hwf.divide hsplit (hentries.trans (by simp)) hdiv ⟨rfl, rfl, rfl, rfl, rfl, le_refl _⟩ rfl

theorem VmMap.WellFormed.mapEntries (h : m.WellFormed) {g : VmMapEntry → VmMapEntry}
    (hg : ∀ e, (g e).id = e.id ∧ (g e).vmeStart = e.vmeStart ∧ (g e).vmeEnd = e.vmeEnd) :
    { m with entries := m.entries.map g }.WellFormed := by
  have hnames : (m.entries.map g).map VmMapEntry.id = m.entries.map VmMapEntry.id := by
    rw [map_map]
    exact map_congr_left fun e _ => (hg e).1
  have hall : ∀ {P : VmMapEntry → Prop}, (∀ e ∈ m.entries, P (g e)) → ∀ e ∈ m.entries.map g, P e :=
    fun hP e he => by
      obtain ⟨a, ha, rfl⟩ := mem_map.mp he
      exact hP a ha
  refine ⟨?_, hall fun e he => ?_, hall fun e he => ?_, hall fun e he => ?_, ?_, ?_, h.bounds, ?_,
    hall fun e he => ?_, fun i hi => ?_, fun i hi => ?_⟩
  · unfold Ascending
    rw [pairwise_map]
    refine h.ascending.imp fun {a b} hab => ?_
    rw [(hg a).2.2, (hg b).2.1]
    exact hab
  · rw [(hg e).2.1, (hg e).2.2]
    exact h.nonempty e he
  · rw [(hg e).2.1, (hg e).2.2]
    exact h.aligned e he
  · rw [(hg e).2.1, (hg e).2.2]
    exact h.inside e he
  · exact h.nentries.trans (length_map g).symm
  · refine h.size.trans ?_
    unfold sizeSum
    dsimp only
    rw [map_map]
    refine congrArg List.sum (map_congr_left fun e _ => ?_)
    dsimp only [Function.comp]
    rw [(hg e).2.1, (hg e).2.2]
  · unfold Distinct
    dsimp only
    rw [hnames]
    exact h.distinct
  · rw [(hg e).1]
    exact h.nextId e he
  · rw [hnames]
    exact h.hint i hi
  · rw [hnames]
    exact h.firstFree i hi

theorem VmMap.WellFormed.update (hwf : m.WellFormed) (h : e ∈ m.entries)
    {f : VmMapEntry → VmMapEntry} (hid : (f e).id = e.id) (hp : Piece e (f e))
    (hs : (f e).vmeStart = e.vmeStart) (he : (f e).vmeEnd = e.vmeEnd) :
    m.Clipped { m with entries := Linked.update VmMapEntry.id e.id f m.entries } e (f e) := by
  obtain ⟨pre, post, hsplit⟩ := append_of_mem h
  obtain ⟨hentries, hwf', hmaps⟩ := hwf.modify hsplit hid hs he
  refine ⟨hwf', hmaps, ?_, hid, hp, ?_, rfl⟩
  · rw [hentries]
    simp
  · intro c hc
    rw [hentries] at hc
    rw [hsplit]
    simp only [mem_append, mem_cons] at hc ⊢
    rcases hc with hc | rfl | hc
    · exact .inl (.inl hc)
    · exact .inr hp
    · exact .inl (.inr (.inr hc))

end

end MachKernel.Vm
