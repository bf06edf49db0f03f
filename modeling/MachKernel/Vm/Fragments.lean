import MachKernel.Vm.InsertPages

/-! What operations on ranges leave of entries in transition: fragments over the same addresses. -/

namespace MachKernel.Vm
open List
open Word32 Linked

/-- An entry that has been clipped from another one, or is what is left of it. -/
structure Fragment (e a : VmMapEntry) : Prop where
  inside : e.vmeStart ≤ a.vmeStart ∧ a.vmeEnd ≤ e.vmeEnd
  inTransition : a.inTransition = e.inTransition
  needsWakeup : e.needsWakeup = true → a.needsWakeup = true
  memory : a.isAMap = e.isAMap ∧ a.isSubMap = e.isSubMap
  object : a.object = e.object
  offset : ∀ x, a.Covers x → add a.offset (sub x a.vmeStart) = add e.offset (sub x e.vmeStart)

/-- Each entry is a fragment of an old one, and an address in transition keeps an entry. -/
structure Fragments (l l' : List VmMapEntry) : Prop where
  fragment : ∀ a ∈ l', ∃ e ∈ l, Fragment e a
  covered : ∀ e ∈ l, e.inTransition = true → ∀ x, e.Covers x → ∃ a ∈ l', a.Covers x ∧ Fragment e a

section
variable {l l' l'' pre mid post : List VmMapEntry} {e a b : VmMapEntry} {x i j : ℕ}

theorem Fragment.refl (e : VmMapEntry) : Fragment e e :=
  ⟨⟨le_rfl, le_rfl⟩, rfl, id, ⟨rfl, rfl⟩, rfl, fun _ _ => rfl⟩

theorem Fragment.trans (h : Fragment e a) (h' : Fragment a b) : Fragment e b := by
  have hin := h.inside
  have hin' := h'.inside
  refine ⟨⟨by omega, by omega⟩, h'.inTransition.trans h.inTransition,
    fun hw => h'.needsWakeup (h.needsWakeup hw), ⟨h'.memory.1.trans h.memory.1,
    h'.memory.2.trans h.memory.2⟩, h'.object.trans h.object, fun x hx => ?_⟩
  have hax : a.Covers x := ⟨by have := hx.1; omega, by have := hx.2; omega⟩
  exact (h'.offset x hx).trans (h.offset x hax)

theorem Fragment.covers (h : Fragment e a) (hx : a.Covers x) : e.Covers x := by
  have hin := h.inside
  exact ⟨by have := hx.1; omega, by have := hx.2; omega⟩

theorem Fragment.low (hx : x ≤ e.vmeEnd) : Fragment e (e.low i x) :=
  ⟨⟨le_rfl, hx⟩, rfl, id, ⟨rfl, rfl⟩, rfl, fun _ _ => rfl⟩

theorem Fragment.high (hlo : e.vmeStart ≤ x) (hmod : e.vmeEnd < modulus) :
    Fragment e (e.high j x) := by
  refine ⟨⟨hlo, le_rfl⟩, rfl, id, ⟨rfl, rfl⟩, rfl, fun y hy => ?_⟩
  obtain ⟨hxy, hy⟩ := hy
  change x ≤ y at hxy
  change y < e.vmeEnd at hy
  change add (add e.offset (sub x e.vmeStart)) (sub y x) = _
  rw [sub_of_le (by omega) hlo, sub_of_le (by omega) hxy, sub_of_le (by omega) (by omega)]
  unfold add
  rw [Nat.mod_add_mod, Nat.add_assoc]
  congr 2
  omega

theorem Fragments.refl (l : List VmMapEntry) : Fragments l l :=
  ⟨fun a ha => ⟨a, ha, .refl a⟩, fun e he _ _ hx => ⟨e, he, hx, .refl e⟩⟩

theorem Fragments.trans (h : Fragments l l') (h' : Fragments l' l'') : Fragments l l'' := by
  constructor
  · intro b hb
    obtain ⟨a, ha, hab⟩ := h'.fragment b hb
    obtain ⟨e, he, hea⟩ := h.fragment a ha
    exact ⟨e, he, hea.trans hab⟩
  · intro e he ht x hx
    obtain ⟨a, ha, hax, hea⟩ := h.covered e he ht x hx
    obtain ⟨b, hb, hbx, hab⟩ := h'.covered a ha (hea.inTransition.trans ht) x hax
    exact ⟨b, hb, hbx, hea.trans hab⟩

theorem Fragments.of_split (hfrag : ∀ a ∈ mid, Fragment e a)
    (hcov : e.inTransition = true → ∀ x, e.Covers x → ∃ a ∈ mid, a.Covers x) :
    Fragments (pre ++ e :: post) (pre ++ mid ++ post) := by
  constructor
  · intro a ha
    simp only [mem_append] at ha
    rcases ha with (ha | ha) | ha
    · exact ⟨a, by simp [ha], .refl a⟩
    · exact ⟨e, by simp, hfrag a ha⟩
    · exact ⟨a, by simp [ha], .refl a⟩
  · intro b hb ht x hx
    simp only [mem_append, mem_cons] at hb
    rcases hb with hb | rfl | hb
    · exact ⟨b, by simp [hb], hx, .refl b⟩
    · obtain ⟨a, ha, hax⟩ := hcov ht x hx
      exact ⟨a, by simp [ha], hax, hfrag a ha⟩
    · exact ⟨b, by simp [hb], hx, .refl b⟩

theorem Fragments.cut (hlo : e.vmeStart ≤ x) (hhi : x ≤ e.vmeEnd) (hmod : e.vmeEnd < modulus) :
    Fragments (pre ++ e :: post) (pre ++ [e.low i x, e.high j x] ++ post) := by
  refine .of_split (fun a ha => ?_) fun _ y hy => ?_
  · rcases mem_pair.mp ha with rfl | rfl
    · exact .low hhi
    · exact .high hlo hmod
  · rcases Nat.lt_or_ge y x with hyx | hyx
    · exact ⟨_, mem_cons_self, hy.1, hyx⟩
    · exact ⟨_, mem_cons_of_mem _ mem_cons_self, hyx, hy.2⟩

theorem Fragments.transit {m m' : VmMap} (h : Fragments m.entries m'.entries) {object : ObjId}
    {offset : ℕ} (hx : m.Transit x object offset) : m'.Transit x object offset := by
  obtain ⟨e, he, ht, hplace⟩ := hx
  obtain ⟨a, ha, hax, hea⟩ := h.covered e he ht x hplace.inside
  refine ⟨a, ha, hea.inTransition.trans ht, hax, ?_, hea.object.trans hplace.object,
    (hea.offset x hax).trans hplace.offset⟩
  rw [hea.memory.1, hea.memory.2]
  exact hplace.memory

end

/-! ## Clipping, changing and deleting an entry -/

section
variable [PageSize] {m : VmMap} {e : VmMapEntry} {x : ℕ}

theorem VmMap.WellFormed.split_fragments (h : m.WellFormed) (he : e ∈ m.entries)
    (i j : VmMapEntry → ℕ) (hlo : e.vmeStart ≤ x) (hhi : x ≤ e.vmeEnd) :
    Fragments m.entries (m.split e.id fun e => [e.low (i e) x, e.high (j e) x]).entries := by
  obtain ⟨pre, post, hsplit⟩ := append_of_mem he
  have hd := h.distinct
  have hin := h.inside e he
  have hb := h.bounds
  rw [hsplit] at hd
  have hentries : (m.split e.id fun e => [e.low (i e) x, e.high (j e) x]).entries =
      pre ++ [e.low (i e) x, e.high (j e) x] ++ post := by
    simp only [VmMap.split, hsplit]
    exact replace_split hd _
  rw [hentries, hsplit]
  exact .cut hlo hhi (by omega)

theorem VmMap.WellFormed.clipEnd_fragments (h : m.WellFormed) (he : e ∈ m.entries)
    (hlt : e.vmeStart < x) : Fragments m.entries (m.clipEnd e.id x).entries := by
  unfold VmMap.clipEnd
  rw [h.entryAt he]
  dsimp only
  split_ifs with hcut
  · exact h.split_fragments he VmMapEntry.id (fun _ => m.nextId) hlt.le hcut.le
  · exact .refl _

theorem VmMap.WellFormed.clipStart_fragments (h : m.WellFormed) (he : e ∈ m.entries)
    (hlt : x < e.vmeEnd) : Fragments m.entries (m.clipStart e.id x).entries := by
  unfold VmMap.clipStart
  rw [h.entryAt he]
  dsimp only
  split_ifs with hcut
  · exact h.split_fragments he (fun _ => m.nextId) VmMapEntry.id hcut.le hlt.le
  · exact .refl _

theorem VmMap.WellFormed.update_fragments (h : m.WellFormed) (he : e ∈ m.entries)
    {f : VmMapEntry → VmMapEntry} (hf : Fragment e (f e))
    (hrange : (f e).vmeStart = e.vmeStart ∧ (f e).vmeEnd = e.vmeEnd) :
    Fragments m.entries (Linked.update VmMapEntry.id e.id f m.entries) := by
  obtain ⟨pre, post, hsplit⟩ := append_of_mem he
  have hd := h.distinct
  rw [hsplit] at hd
  have hone : pre ++ f e :: post = pre ++ [f e] ++ post := by simp
  rw [hsplit, update_split hd, hone]
  refine .of_split (fun a ha => ?_) fun _ y hy => ⟨_, mem_singleton_self _, ?_⟩
  · rw [mem_singleton.mp ha]
    exact hf
  · unfold VmMapEntry.Covers
    rw [hrange.1, hrange.2]
    exact hy

theorem VmMap.WellFormed.unlink_fragments (h : m.WellFormed) (he : e ∈ m.entries)
    (ht : e.inTransition = false) : Fragments m.entries (m.entryUnlink e.id).entries := by
  obtain ⟨pre, post, hsplit⟩ := append_of_mem he
  have hd := h.distinct
  rw [hsplit] at hd
  have hentries : (m.entryUnlink e.id).entries = pre ++ [] ++ post := by
    unfold VmMap.entryUnlink
    rw [append_nil]
    dsimp only
    rw [hsplit]
    exact filter_split hd
  rw [hentries, hsplit]
  refine .of_split (fun a ha => ?_) fun htrue => ?_
  · cases ha
  · rw [ht] at htrue
    cases htrue

end

/-! ## The loops -/

/-- An address at which an entry may be cut: a page boundary, or one above all entries. -/
def VmMap.Cuttable [PageSize] (m : VmMap) (x : ℕ) : Prop := PageAligned x ∨ m.maxOffset ≤ x

theorem VmMap.Cuttable.congr [PageSize] {m m' : VmMap} {x : ℕ} (h : m.Cuttable x)
    (hmax : m'.maxOffset = m.maxOffset) : m'.Cuttable x := by
  unfold VmMap.Cuttable
  rw [hmax]
  exact h

section
variable [PageSize] {α : Type*} {s : MapState α} {start stop x i : ℕ} {e : VmMapEntry}

omit [PageSize] in
theorem entryAt_mem {m : VmMap} (h : m.entryAt i = some e) : e ∈ m.entries ∧ e.id = i :=
  ⟨mem_of_find?_eq_some h, by simpa using find?_some h⟩

theorem clipEnd_cuttable (h : s.map.WellFormed) (hx : s.map.Cuttable x)
    (he : e ∈ s.map.entries) (hlt : e.vmeStart < x) : (s.clipEnd e.id x).map.WellFormed ∧
      (s.clipEnd e.id x).map.maxOffset = s.map.maxOffset ∧
      Fragments s.map.entries (s.clipEnd e.id x).map.entries := by
  have hmap : (s.clipEnd e.id x).map = s.map.clipEnd e.id x := by
    unfold MapState.clipEnd
    rw [h.entryAt he]
  have hmax : (s.map.clipEnd e.id x).maxOffset = s.map.maxOffset := by
    unfold VmMap.clipEnd
    rw [h.entryAt he]
    dsimp only
    split_ifs <;> rfl
  rw [hmap]
  refine ⟨?_, hmax, h.clipEnd_fragments he hlt⟩
  rcases hx with hal | hge
  · obtain ⟨e', hclip, -⟩ := h.clipEnd he hal hlt
    exact hclip.wellFormed
  · have hin := h.inside e he
    have hsame : s.map.clipEnd e.id x = s.map := by
      simp only [VmMap.clipEnd, h.entryAt he]
      rw [if_neg (by omega)]
    rw [hsame]
    exact h

theorem firstEntry_cuttable (h : s.map.WellFormed) (hx : s.map.Cuttable start) :
    (s.firstEntry start).2.1.map.WellFormed ∧
      (s.firstEntry start).2.1.map.maxOffset = s.map.maxOffset ∧
      Fragments s.map.entries (s.firstEntry start).2.1.map.entries := by
  obtain ⟨found, hint, pre, post, hlook, hhint, hsplit, -, hcase⟩ := h.lookupEntry_spec start
  have hs : (s.map.saveHint hint).WellFormed := h.saveHint hhint
  unfold MapState.firstEntry
  rw [hlook]
  rcases hcase with ⟨rfl, -⟩ | ⟨rfl, init, e, rfl, -, hlo, hhi⟩
  · exact ⟨hs, rfl, .refl _⟩
  · have hplace : last VmMapEntry.id (init ++ [e]) = some e.id := by simp [last]
    have he : e ∈ (s.map.saveHint hint).entries := by
      change e ∈ s.map.entries
      rw [hsplit]
      simp
    rw [hplace]
    dsimp only
    have hmap : (MapState.clipStart ⟨s.kernel, s.map.saveHint hint⟩ e.id start).map =
        (s.map.saveHint hint).clipStart e.id start := by
      unfold MapState.clipStart
      rw [hs.entryAt he]
    have hmax : ((s.map.saveHint hint).clipStart e.id start).maxOffset = s.map.maxOffset := by
      unfold VmMap.clipStart
      rw [hs.entryAt he]
      dsimp only
      split_ifs <;> rfl
    rw [hmap]
    refine ⟨?_, hmax, hs.clipStart_fragments he hhi⟩
    rcases hx with hal | hge
    · obtain ⟨e', hclip, -⟩ := hs.clipStart he hal hlo hhi
      exact hclip.wellFormed
    · have hin := h.inside e he
      omega

/-- A change that shows in the attributes of an entry only. -/
structure Attributes (f : VmMapEntry → VmMapEntry) : Prop where
  id : ∀ e, (f e).id = e.id
  vmeStart : ∀ e, (f e).vmeStart = e.vmeStart
  vmeEnd : ∀ e, (f e).vmeEnd = e.vmeEnd
  fragment : ∀ e, Fragment e (f e)

theorem update_attributes {f : VmMapEntry → VmMapEntry} (hf : Attributes f)
    (h : s.map.WellFormed) (i : ℕ) : (s.update i f).map.WellFormed ∧
      (s.update i f).map.maxOffset = s.map.maxOffset ∧
      Fragments s.map.entries (s.update i f).map.entries := by
  by_cases hnamed : ∃ e ∈ s.map.entries, e.id = i
  · obtain ⟨e, he, rfl⟩ := hnamed
    obtain ⟨pre, post, hsplit⟩ := append_of_mem he
    exact ⟨(h.modify hsplit (hf.id e) (hf.vmeStart e) (hf.vmeEnd e)).2.1, rfl,
      h.update_fragments he (hf.fragment e) ⟨hf.vmeStart e, hf.vmeEnd e⟩⟩
  · have hsame : Linked.update VmMapEntry.id i f s.map.entries = s.map.entries := by
      unfold Linked.update
      rw [map_congr_left fun a ha => if_neg fun heq => hnamed ⟨a, ha, heq⟩]
      exact map_id _
    have hmap : (s.update i f).map = s.map := by
      unfold MapState.update
      dsimp only
      rw [hsame]
    rw [hmap]
    exact ⟨h, rfl, .refl _⟩

theorem changeLoop_fragments {f : VmMapEntry → VmMapEntry} (hf : Attributes f) (n : ℕ) :
    ∀ {s : MapState α} (place : Option ℕ), s.map.WellFormed → s.map.Cuttable stop →
      (MapState.changeLoop f stop n s place).map.WellFormed ∧
        Fragments s.map.entries (MapState.changeLoop f stop n s place).map.entries := by
  induction n with
  | zero =>
    intro s place h _
    exact ⟨h, .refl _⟩
  | succ n ih =>
    intro s place h hcut
    cases place with
    | none => exact ⟨h, .refl _⟩
    | some i =>
      unfold MapState.changeLoop
      cases hat : s.map.entryAt i with
      | none => exact ⟨h, .refl _⟩
      | some e =>
        obtain ⟨he, rfl⟩ := entryAt_mem hat
        dsimp only
        split_ifs with hlt
        · obtain ⟨hwf, hmax, hclipped⟩ := clipEnd_cuttable h hcut he hlt
          obtain ⟨hwf', hmax', hchanged⟩ := update_attributes hf hwf e.id
          obtain ⟨hdone, hrest⟩ := ih (((s.clipEnd e.id stop).update e.id f).map.next (some e.id))
            hwf' (hcut.congr (hmax'.trans hmax))
          exact ⟨hdone, (hclipped.trans hchanged).trans hrest⟩
        · exact ⟨h, .refl _⟩

theorem deletePass_fragments (release : Kernel α → VmMapEntry → Kernel α) (hal : PageAligned stop)
    (n : ℕ) : ∀ {s : MapState α} (place : Option ℕ), s.map.WellFormed → s.map.hint = none →
      s.map.firstFree = none →
      Fragments s.map.entries (MapState.deletePass release stop n s place).2.map.entries := by
  have hwaits : Attributes fun e => { e with needsWakeup := true } :=
    ⟨fun _ => rfl, fun _ => rfl, fun _ => rfl, fun e =>
      ⟨⟨le_rfl, le_rfl⟩, rfl, fun _ => rfl, ⟨rfl, rfl⟩, rfl, fun _ _ => rfl⟩⟩
  induction n with
  | zero =>
    intro s place _ _ _
    exact .refl _
  | succ n ih =>
    intro s place h hhint hfree
    cases place with
    | none => exact .refl _
    | some i =>
      unfold MapState.deletePass
      cases hat : s.map.entryAt i with
      | none => exact .refl _
      | some e =>
        obtain ⟨he, rfl⟩ := entryAt_mem hat
        dsimp only
        split_ifs with hlt
        · obtain ⟨hwf, -, hclipped⟩ := clipEnd_cuttable h (.inl hal) he hlt
          cases hat' : (s.clipEnd e.id stop).map.entryAt e.id with
          | none => exact hclipped
          | some e' =>
            obtain ⟨he', hid⟩ := entryAt_mem hat'
            dsimp only
            split_ifs with ht
            · exact hclipped.trans (update_attributes hwaits hwf e.id).2.2
            · have hclipMap : (s.clipEnd e.id stop).map = s.map.clipEnd e.id stop := by
                unfold MapState.clipEnd
                rw [hat]
              have hheader : (s.clipEnd e.id stop).map.hint = none ∧
                  (s.clipEnd e.id stop).map.firstFree = none := by
                rw [hclipMap]
                unfold VmMap.clipEnd
                rw [hat]
                dsimp only
                split_ifs <;> exact ⟨hhint, hfree⟩
              have hdeleted := hwf.unlink_fragments he' (by simpa using ht)
              obtain ⟨pre, post, hsplit⟩ := append_of_mem he'
              obtain ⟨-, hwf'⟩ := hwf.unlink hsplit ⟨fun i hi => by simp [hheader.1] at hi,
                fun i hi => by simp [hheader.2] at hi⟩
              exact (hclipped.trans hdeleted).trans
                (ih (s := (s.clipEnd e.id stop).entryDelete release e') _ hwf' hheader.1 hheader.2)
        · exact .refl _

theorem Begins.fragments {pre post : List VmMapEntry} {r : MapState α × Option ℕ}
    (hb : Begins s start r pre post) (hal : PageAligned stop)
    (release : Kernel α → VmMapEntry → Kernel α) :
    Fragments r.1.map.entries (runPass release stop s r).after.map.entries := by
  have hnone : (r.1.rehint none none).map.WellFormed := hb.wellFormed.rehint ⟨nofun, nofun⟩
  have hback := deletePass_rehint stop release r.1.map.entries.length none none r.1 r.2
  have hpass := deletePass_fragments release hal r.1.map.entries.length r.2 hnone rfl rfl
  rw [hback] at hpass
  exact hpass

theorem deleteStart_fragments (h : s.map.WellFormed) (hal : PageAligned start) :
    Fragments s.map.entries (s.deleteStart start).1.map.entries := by
  obtain ⟨-, -, hfrag⟩ := firstEntry_cuttable h (.inl hal)
  unfold MapState.deleteStart
  dsimp only
  rw [VmMap.lowerFirstFree_entries]
  split_ifs <;> exact hfrag

end

/-! ## What other threads do to ranges -/

/-- What a thread does to a range while it holds the lock of the map: it clips an entry, protects a
range, or deletes one, up to its end or to an entry in transition. A deletion that has waited for
such an entry resumes. -/
inductive RangeOp
  | clipStart (address : ℕ)
  | clipEnd (entry stop : ℕ)
  | protect (start stop : ℕ) (newProt : VmProt) (setMax : Bool)
  | delete (start stop : ℕ)
  | resume (start stop : ℕ)

namespace RangeOp

/-- The addresses are those of pages. -/
def Aligned [PageSize] : RangeOp → Prop
  | clipStart address => PageAligned address
  | clipEnd _ stop => PageAligned stop
  | protect start stop _ _ => PageAligned start ∧ PageAligned stop
  | delete start stop => PageAligned start ∧ PageAligned stop
  | resume start stop => PageAligned start ∧ PageAligned stop

/-- What it makes of the map. A deletion resumes where it deletes no entry that a hint names. -/
def run {α : Type*} (s : MapState α) (op : RangeOp) : MapState α :=
  let release := Kernel.releaseEntry (Kernel.vmMapDeallocate s.kernel.maps.length)
  let locked : MapState α := ⟨s.kernel, s.map.lock⟩
  match op with
  | clipStart address => (locked.firstEntry address).2.1
  | clipEnd entry stop =>
    match s.map.entryAt entry with
    | none => locked
    | some e => if e.vmeStart < stop then locked.clipEnd entry stop else locked
  | protect start stop newProt setMax => (s.vmMapProtect start stop newProt setMax).2
  | delete start stop => (runPass release stop locked (locked.deleteStart start)).after
  | resume start stop =>
    if s.map.Clear start stop then (runPass release stop s (s.deleteAgain start)).after else s

end RangeOp

section
variable [PageSize] {α : Type*} {s : MapState α}

omit [PageSize] in
theorem protectEntry_attributes (newProt : VmProt) (setMax : Bool) :
    Attributes (MapState.protectEntry newProt setMax) := by
  cases setMax
  all_goals exact ⟨fun _ => rfl, fun _ => rfl, fun _ => rfl, fun e =>
    ⟨⟨le_rfl, le_rfl⟩, rfl, id, ⟨rfl, rfl⟩, rfl, fun _ _ => rfl⟩⟩

theorem rangeCheck_cuttable (h : s.map.WellFormed) {start stop : ℕ} (hstart : PageAligned start)
    (hstop : PageAligned stop) : s.map.Cuttable (s.map.rangeCheck start stop).1 ∧
      s.map.Cuttable (s.map.rangeCheck start stop).2 := by
  have hmin := h.bounds.2.2
  unfold VmMap.Cuttable VmMap.rangeCheck
  dsimp only
  split_ifs
  all_goals
    constructor
    all_goals first
      | exact .inl hmin
      | exact .inl hstart
      | exact .inl hstop
      | exact .inr le_rfl

theorem vmMapProtect_fragments (h : s.map.WellFormed) {start stop : ℕ}
    (hstart : PageAligned start) (hstop : PageAligned stop) (newProt : VmProt) (setMax : Bool) :
    (s.vmMapProtect start stop newProt setMax).2.map.WellFormed ∧
      Fragments s.map.entries (s.vmMapProtect start stop newProt setMax).2.map.entries := by
  obtain ⟨hlo, hhi⟩ := rangeCheck_cuttable h hstart hstop
  obtain ⟨hwf, hmax, hfrag⟩ := firstEntry_cuttable (s := ⟨s.kernel, s.map.lock⟩) h.lock hlo
  unfold MapState.vmMapProtect
  dsimp only
  split
  · exact ⟨hwf, hfrag⟩
  · obtain ⟨hdone, hrest⟩ := changeLoop_fragments (protectEntry_attributes newProt setMax)
      _ _ hwf (hhi.congr hmax)
    exact ⟨hdone, hfrag.trans hrest⟩

theorem RangeOp.run_fragments (h : s.map.WellFormed) {op : RangeOp} (hal : op.Aligned) :
    (op.run s).map.WellFormed ∧ Fragments s.map.entries (op.run s).map.entries := by
  cases op with
  | clipStart address =>
    obtain ⟨hwf, -, hfrag⟩ := firstEntry_cuttable (s := ⟨s.kernel, s.map.lock⟩) h.lock (.inl hal)
    exact ⟨hwf, hfrag⟩
  | clipEnd entry stop =>
    unfold RangeOp.run
    dsimp only
    cases hat : s.map.entryAt entry with
    | none => exact ⟨h.lock, .refl _⟩
    | some e =>
      obtain ⟨he, rfl⟩ := entryAt_mem hat
      dsimp only
      split_ifs with hlt
      · obtain ⟨hwf, -, hfrag⟩ := clipEnd_cuttable (s := ⟨s.kernel, s.map.lock⟩) h.lock (.inl hal)
          he hlt
        exact ⟨hwf, hfrag⟩
      · exact ⟨h.lock, .refl _⟩
  | protect start stop newProt setMax => exact vmMapProtect_fragments h hal.1 hal.2 newProt setMax
  | delete start stop =>
    obtain ⟨pre, post, hb, -⟩ :=
      deleteStart_begins (s := (⟨s.kernel, s.map.lock⟩ : MapState α)) h.lock hal.1
    refine ⟨(deleteStart_deletes _ (s := (⟨s.kernel, s.map.lock⟩ : MapState α)) h.lock hal.1
      hal.2).2, ?_⟩
    exact (deleteStart_fragments (s := (⟨s.kernel, s.map.lock⟩ : MapState α)) h.lock hal.1).trans
      (hb.fragments hal.2 _)
  | resume start stop =>
    unfold RangeOp.run
    dsimp only
    split_ifs with hclear
    · obtain ⟨pre, post, hb, hsplit, -⟩ := deleteAgain_begins h start
      refine ⟨(deleteAgain_deletes _ h hal.2 hclear).2, ?_⟩
      have hsame : (s.deleteAgain start).1.map.entries = s.map.entries :=
        hb.entries.trans hsplit.symm
      rw [← hsame]
      exact hb.fragments hal.2 _
    · exact ⟨h, .refl _⟩

/-- A window in which other threads do things to ranges, one after another. -/
def Unlocked.Ranges (w : Unlocked α) : Prop :=
  ∃ ops : List RangeOp, (∀ op ∈ ops, op.Aligned) ∧ w.others = fun s => ops.foldl RangeOp.run s

theorem Unlocked.Ranges.fragments {w : Unlocked α} (hw : w.Ranges) (h : s.map.WellFormed) :
    (w.others s).map.WellFormed ∧ Fragments s.map.entries (w.others s).map.entries := by
  obtain ⟨ops, hal, hothers⟩ := hw
  rw [hothers]
  clear hothers
  induction ops generalizing s with
  | nil => exact ⟨h, .refl _⟩
  | cons op ops ih =>
    obtain ⟨hwf, hfrag⟩ := RangeOp.run_fragments h (hal op mem_cons_self)
    obtain ⟨hdone, hrest⟩ := ih hwf fun op hop => hal op (mem_cons_of_mem _ hop)
    exact ⟨hdone, hfrag.trans hrest⟩

theorem Unlocked.Ranges.heeds {w : Unlocked α} (hw : w.Ranges) : w.Heeds := fun _ h =>
  ⟨(hw.fragments h).1, fun _ _ _ hx => (hw.fragments h).2.transit hx⟩

end

end MachKernel.Vm
