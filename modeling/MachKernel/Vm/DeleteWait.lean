import Mathlib.Data.List.TakeWhile
import MachKernel.Vm.Delete
import MachKernel.Vm.Enter

/-! Deleting a range whose entries are in transition: `vm_map_delete` waits for each with the map
unlocked, and looks its place up again. -/

namespace MachKernel.Vm
open List VmMapEntry MapState
open Word32 Linked

namespace MapState
variable {α : Type*}

/-- The loop of `vm_map_delete` up to the end of the range, or to an entry in transition, for which
it waits. -/
def deletePass (release : Kernel α → VmMapEntry → Kernel α) (stop : ℕ) :
    ℕ → MapState α → Option ℕ → Bool × MapState α
  | turns + 1, s, some i =>
    match s.map.entryAt i with
    | none => (false, s)
    | some e =>
      if e.vmeStart < stop then
        let s := s.clipEnd i stop
        match s.map.entryAt i with
        | none => (false, s)
        | some e =>
          if e.inTransition then (true, s.update i fun e => { e with needsWakeup := true })
          else deletePass release stop turns (s.entryDelete release e) (s.map.next (some i))
      else (false, s)
  | _, s, _ => (false, s)

/-- The part of `vm_map_delete` in front of the loop. -/
def deleteStart (s : MapState α) (start : ℕ) : MapState α × Option ℕ :=
  let (found, s, entry) := s.firstEntry start
  let m := if found then s.map.saveHint (s.map.prev entry) else s.map
  (⟨s.kernel, m.lowerFirstFree start entry⟩, entry)

/-- The place is looked up again after a wait. -/
def deleteAgain (s : MapState α) (start : ℕ) : MapState α × Option ℕ :=
  match s.map.lock.lookupEntry start with
  | (true, entry, m) => (⟨s.kernel, m⟩, entry)
  | (false, entry, m) => (⟨s.kernel, m⟩, m.next entry)

/-- What the thread does while it holds the lock of the map: the map as it finds it and as it leaves
it, to wait or to return. -/
structure DeletePass (α : Type*) where
  before : MapState α
  waits : Bool
  after : MapState α

/-- The passes from one on; `ws` is what other threads do during the waits. -/
def deletePasses (release : Kernel α → VmMapEntry → Kernel α) (start stop : ℕ) :
    List (MapState α → MapState α) → MapState α → MapState α × Option ℕ → List (DeletePass α)
  | ws, found, (s, entry) =>
    let r := deletePass release stop s.map.entries.length s entry
    ⟨found, r.1, r.2⟩ :: match ws with
      | [] => []
      | w :: ws =>
        if r.1 then deletePasses release start stop ws (w r.2) ((w r.2).deleteAgain start) else []

/-- `vm_map_delete`, pass by pass. -/
def vmMapDeletePasses (s : MapState α) (start stop : ℕ) (ws : List (MapState α → MapState α)) :
    List (DeletePass α) :=
  deletePasses (Kernel.releaseEntry (Kernel.vmMapDeallocate s.kernel.maps.length)) start stop ws s
    (s.deleteStart start)

/-- A pass removes no address outside the range; when the call returns, no entry covers an address
of the range; and the hints name entries of the map. -/
structure DeletePass.Deletes (start stop : ℕ) (p : DeletePass α) : Prop where
  outside : ∀ x, ¬ (start ≤ x ∧ x < stop) → (p.after.map.Maps x ↔ p.before.map.Maps x)
  inside : p.waits = false → ∀ x, start ≤ x → x < stop → ¬ p.after.map.Maps x
  hints : p.after.map.HintsIn p.after.map.entries

end MapState

/-- The entries that a pass deletes, of those from its first one on. -/
def deletable (stop : ℕ) (l : List VmMapEntry) : List VmMapEntry :=
  l.takeWhile fun e => e.vmeStart < stop ∧ e.inTransition = false

/-- After a wait: each entry that is to be deleted begins in the range, `first_free` does not name it,
and neither will the hint, which a lookup moves to an entry that begins at `start` unless it is the
first one and the hint is the header. -/
def VmMap.Clear (m : VmMap) (start stop : ℕ) : Prop :=
  ∀ e ∈ deletable stop (m.entries.dropWhile fun e => e.vmeEnd ≤ start),
    start ≤ e.vmeStart ∧ m.firstFree ≠ some e.id ∧
      (e.vmeStart = start → m.hint = none ∧ m.entries.head? = some e)

instance (m : VmMap) (start stop : ℕ) : Decidable (m.Clear start stop) :=
  inferInstanceAs (Decidable (∀ _ ∈ _, _))

/-! ## One pass -/

theorem deletePass_loop {α : Type*} (release : Kernel α → VmMapEntry → Kernel α) (stop n : ℕ)
    (s : MapState α) (entry : Option ℕ) : (deletePass release stop n s entry).2 =
      deleteLoop release stop n s entry := by
  induction n generalizing s entry with
  | zero => cases entry <;> rfl
  | succ n ih =>
    cases entry with
    | none => rfl
    | some i =>
      unfold deletePass deleteLoop
      cases s.map.entryAt i with
      | none => rfl
      | some e =>
        dsimp only
        by_cases hlt : e.vmeStart < stop
        · rw [if_pos hlt, if_pos hlt]
          cases (s.clipEnd i stop).map.entryAt i with
          | none => rfl
          | some e' =>
            dsimp only
            by_cases htrans : e'.inTransition = true
            · rw [if_pos htrans, if_pos htrans]
            · rw [if_neg htrans, if_neg htrans]
              exact ih _ _
        · rw [if_neg hlt, if_neg hlt]

theorem VmMap.lowerFirstFree_entries (m : VmMap) (start : ℕ) (entry : Option ℕ) :
    (m.lowerFirstFree start entry).entries = m.entries := by
  unfold VmMap.lowerFirstFree
  split_ifs <;> rfl

theorem vmMapDelete_firstPass {α : Type*} (s : MapState α) (start stop : ℕ)
    (ws : List (MapState α → MapState α)) :
    (s.vmMapDeletePasses start stop ws).head?.map DeletePass.after =
      some (s.vmMapDelete start stop).2 := by
  unfold vmMapDeletePasses
  rw [deletePasses.eq_def]
  simp only [head?_cons, Option.map_some, deletePass_loop, vmMapDelete,
    deleteRange, deleteStart, VmMap.lowerFirstFree_entries]

section
variable {m : VmMap} {pre post l : List VmMapEntry} {e : VmMapEntry} {start stop : ℕ}

/-- Some entry of the list covers the address. -/
def Mapped (l : List VmMapEntry) (x : ℕ) : Prop := ∃ e ∈ l, e.Covers x

theorem mapped_append (l l' : List VmMapEntry) (x : ℕ) :
    Mapped (l ++ l') x ↔ Mapped l x ∨ Mapped l' x := by
  simp only [Mapped, mem_append, or_and_right, exists_or]

theorem mapped_cons (e : VmMapEntry) (l : List VmMapEntry) (x : ℕ) :
    Mapped (e :: l) x ↔ e.Covers x ∨ Mapped l x := by
  simp only [Mapped, mem_cons, or_and_right, exists_or, exists_eq_left]

@[simp] theorem mapped_nil (x : ℕ) : ¬ Mapped [] x := by
  rintro ⟨e, he, -⟩
  cases he

theorem deletable_cons_pos (hlt : e.vmeStart < stop) (htrans : e.inTransition = false) :
    deletable stop (e :: l) = e :: deletable stop l := by
  unfold deletable
  rw [List.takeWhile_cons_of_pos (by simp [hlt, htrans])]

theorem deletable_cons_neg (h : ¬ (e.vmeStart < stop ∧ e.inTransition = false)) :
    deletable stop (e :: l) = [] := by
  unfold deletable
  rw [List.takeWhile_cons_of_neg (by simpa using h)]

theorem deletable_subset (he : e ∈ deletable stop l) : e ∈ l := List.takeWhile_subset _ he

/-- What a pass leaves of the entries `post`: those that it deletes are gone up to the end of the
range, and when it does not wait the others begin there. -/
structure PassEnds (stop next : ℕ) (post post' : List VmMapEntry) (waits : Bool) : Prop where
  mapped : ∀ x, Mapped post' x ↔ Mapped post x ∧ ¬ (x < stop ∧ Mapped (deletable stop post) x)
  above : waits = false → ∀ e ∈ post', stop ≤ e.vmeStart
  names : ∀ i < next, i ∈ post'.map VmMapEntry.id ↔
    i ∈ post.map VmMapEntry.id ∧ i ∉ (deletable stop post).map VmMapEntry.id

variable [PageSize] {α : Type*} {s : MapState α}

theorem deletePass_stop {release : Kernel α → VmMapEntry → Kernel α} (h : s.map.WellFormed)
    (hsplit : s.map.entries = pre ++ post) (hstop : ∀ e ∈ post, stop ≤ e.vmeStart) (n : ℕ) :
    deletePass release stop n s (post.head?.map VmMapEntry.id) = (false, s) := by
  cases n with
  | zero => simp only [deletePass]
  | succ n =>
    cases post with
    | nil => simp only [List.head?_nil, Option.map_none, deletePass]
    | cons e post =>
      have hat : s.map.entryAt e.id = some e := h.entryAt (by rw [hsplit]; simp)
      have := hstop e mem_cons_self
      simp only [head?_cons, Option.map_some, deletePass, hat]
      rw [if_neg (by omega)]

omit [PageSize] in
theorem PassEnds.of_above {next : ℕ} (hstop : ∀ e ∈ post, stop ≤ e.vmeStart) :
    PassEnds stop next post post false := by
  have hnone : deletable stop post = [] := by
    cases post with
    | nil => rfl
    | cons e post =>
      have := hstop e mem_cons_self
      exact deletable_cons_neg (by omega)
  refine ⟨fun x => ?_, fun _ => hstop, fun i _ => ?_⟩
  · rw [hnone]
    simp
  · rw [hnone]
    simp

omit [PageSize] in
theorem view_eq_none_iff (l : List VmMapEntry) (x : ℕ) : view l x = none ↔ ¬ Mapped l x := by
  constructor
  · rintro h ⟨e, he, hc⟩
    unfold view at h
    have := find?_eq_none.mp (Option.map_eq_none_iff.mp h) e he
    simp [hc] at this
  · exact fun h => view_eq_none fun e he hc => h ⟨e, he, hc⟩

theorem VmMap.CutEnd.covers {m' : VmMap} {e' : VmMapEntry} {back : List VmMapEntry}
    (h : m.CutEnd m' pre post e e' back stop) (x : ℕ) :
    (e'.Covers x ↔ e.Covers x ∧ x < stop) ∧ (Mapped back x ↔ e.Covers x ∧ ¬ x < stop) := by
  have hlow : e'.Covers x ↔ e.Covers x ∧ x < stop := by
    rw [h.entry]
    simp only [VmMapEntry.Covers]
    omega
  refine ⟨hlow, ?_⟩
  have hview := view_eq_none_iff (e' :: back) x
  rw [h.view, view_eq_none_iff, not_iff_not, mapped_cons, mapped_cons, hlow] at hview
  have hnone : ¬ Mapped [] x := mapped_nil x
  have hback : Mapped back x → ¬ x < stop := by
    rintro ⟨b, hb, hc⟩ hlt
    have := (h.above b hb).1
    have := hc.1
    omega
  tauto

section
omit [PageSize]
variable {next : ℕ} {e' : VmMapEntry} {back post' : List VmMapEntry} {waits : Bool}

/-- The entry `e` has been clipped to `e'` and `back`, and is in transition. -/
theorem PassEnds.wait (htrans : e.inTransition = true)
    (hcovers : ∀ x, e'.Covers x ∨ Mapped back x ↔ e.Covers x) (hid : e'.id = e.id)
    (hback : ∀ i < next, i ∉ back.map VmMapEntry.id) :
    PassEnds stop next (e :: post) (e' :: (back ++ post)) true := by
  have hnone : deletable stop (e :: post) = [] := deletable_cons_neg (by simp [htrans])
  refine ⟨fun x => ?_, nofun, fun i hi => ?_⟩
  · rw [hnone, mapped_cons, mapped_cons, mapped_append, ← or_assoc, hcovers]
    simp
  · have := hback i hi
    rw [hnone]
    simp only [map_cons, map_append, mem_cons, mem_append, hid, map_nil,
      not_mem_nil, not_false_eq_true, and_true]
    tauto

theorem PassEnds.mono {next' : ℕ} (h : PassEnds stop next' post post' waits)
    (hle : next ≤ next') : PassEnds stop next post post' waits :=
  ⟨h.mapped, h.above, fun i hi => h.names i (hi.trans_le hle)⟩

/-- The entry `e` lies in the range and is deleted, and the pass goes on. -/
theorem PassEnds.cons (h : PassEnds stop next post post' waits) (hlt : e.vmeStart < stop)
    (hle : e.vmeEnd ≤ stop) (htrans : e.inTransition = false)
    (hpost : ∀ a ∈ post, e.vmeEnd ≤ a.vmeStart) (hd : e.id ∉ post.map VmMapEntry.id) :
    PassEnds stop next (e :: post) post' waits := by
  have hnone : ∀ x, e.Covers x → ¬ Mapped post x := by
    rintro x hc ⟨a, ha, hca⟩
    have := hpost a ha
    have := hc.2
    have := hca.1
    omega
  refine ⟨fun x => ?_, h.above, fun i hi => ?_⟩
  · rw [h.mapped, deletable_cons_pos hlt htrans, mapped_cons, mapped_cons]
    by_cases hc : e.Covers x
    · have := hnone x hc
      have := hc.2
      have hx : x < stop := by omega
      tauto
    · tauto
  · rw [h.names i hi, deletable_cons_pos hlt htrans, map_cons, map_cons, mem_cons, mem_cons]
    by_cases hi : i = e.id
    · subst hi
      tauto
    · tauto

/-- The entry `e` goes over the end of the range; the part in the range is deleted. -/
theorem PassEnds.last (hlt : e.vmeStart < stop) (hgt : stop < e.vmeEnd)
    (htrans : e.inTransition = false) (hpost : ∀ a ∈ post, e.vmeEnd ≤ a.vmeStart)
    (hback : ∀ b ∈ back, stop ≤ b.vmeStart) (hcovers : ∀ x, Mapped back x ↔ e.Covers x ∧ ¬ x < stop)
    (hnames : ∀ i < next, i ∉ back.map VmMapEntry.id) (hd : e.id ∉ post.map VmMapEntry.id) :
    PassEnds stop next (e :: post) (back ++ post) false := by
  have hone : deletable stop (e :: post) = [e] := by
    rw [deletable_cons_pos hlt htrans]
    cases post with
    | nil => rfl
    | cons a post =>
      have := hpost a mem_cons_self
      rw [deletable_cons_neg (by omega)]
  have hrest : ∀ x, Mapped post x → ¬ x < stop := by
    rintro x ⟨a, ha, hc⟩ hx
    have := hpost a ha
    have := hc.1
    omega
  refine ⟨fun x => ?_, fun _ a ha => ?_, fun i hi => ?_⟩
  · have hnil := mapped_nil x
    have := hrest x
    rw [hone, mapped_append, mapped_cons, mapped_cons, hcovers]
    tauto
  · rcases mem_append.mp ha with ha | ha
    · exact hback a ha
    · have := hpost a ha
      omega
  · have := hnames i hi
    rw [hone]
    simp only [map_append, map_cons, map_nil, mem_append, mem_cons]
    by_cases hi : i = e.id
    · subst hi
      tauto
    · tauto

end

theorem deletePass_spec (release : Kernel α → VmMapEntry → Kernel α) (hal : PageAligned stop)
    (n : ℕ) : ∀ {s : MapState α} {pre post : List VmMapEntry}, s.map.WellFormed →
    s.map.entries = pre ++ post → post.length ≤ n → s.map.hint = none → s.map.firstFree = none →
    ∃ waits s' post', deletePass release stop n s (post.head?.map VmMapEntry.id) =
        (waits, s') ∧ s'.map.WellFormed ∧ s'.map.entries = pre ++ post' ∧
      PassEnds stop s.map.nextId post post' waits := by
  induction n with
  | zero =>
    intro s pre post h hsplit hlen _ _
    have hnil := eq_nil_of_length_eq_zero (Nat.le_zero.mp hlen)
    subst hnil
    exact ⟨false, s, [], rfl, h, hsplit, .of_above (by simp)⟩
  | succ n ih =>
    intro s pre post h hsplit hlen hhint hfree
    cases post with
    | nil => exact ⟨false, s, [], rfl, h, hsplit, .of_above (by simp)⟩
    | cons e post =>
      have hasc := h.ascending
      rw [hsplit, append_cons] at hasc
      have hpost : ∀ a ∈ post, e.vmeEnd ≤ a.vmeStart := fun a ha => hasc.le_of_mem (by simp) ha
      have hmem : e ∈ s.map.entries := by rw [hsplit]; simp
      have hne := h.nonempty e hmem
      rcases Nat.lt_or_ge e.vmeStart stop with hlt | hge
      · obtain ⟨e', back, hcut⟩ := h.cutEnd hsplit hal hlt
        have hid : e'.id = e.id := by rw [hcut.entry]
        have hsame : e'.inTransition = e.inTransition := by rw [hcut.entry]
        have hmap : (s.clipEnd e.id stop).map = s.map.clipEnd e.id stop := by
          unfold clipEnd
          rw [h.entryAt hmem]
        generalize s.map.clipEnd e.id stop = m at hcut hmap
        have hat : (s.clipEnd e.id stop).map.entryAt e.id = some e' := by
          have hmem' : e' ∈ m.entries := by rw [hcut.entries]; simp
          rw [hmap, ← hid]
          exact hcut.wellFormed.entryAt hmem'
        have hnext := VmMap.next_split hcut.wellFormed.distinct hcut.entries
        rw [hid, ← hmap] at hnext
        have hbackNames : ∀ i < s.map.nextId, i ∉ back.map VmMapEntry.id := by
          rintro i hi hmem
          obtain ⟨b, hb, rfl⟩ := mem_map.mp hmem
          have := hcut.fresh b hb
          omega
        simp only [head?_cons, Option.map_some, deletePass, h.entryAt hmem,
          if_pos hlt, hat]
        by_cases htrans : e'.inTransition = true
        · rw [if_pos htrans]
          have hmodify := hcut.wellFormed.modify hcut.entries
            (f := fun e => { e with needsWakeup := true }) rfl rfl rfl
          obtain ⟨hentries, hwf, -⟩ := hmodify
          refine ⟨true, _, { e' with needsWakeup := true } :: (back ++ post), rfl, ?_, ?_,
            .wait (hsame ▸ htrans) (fun x => ?_) hid hbackNames⟩
          · unfold MapState.update
            rw [hmap, ← hid]
            exact hwf
          · unfold MapState.update
            rw [hmap, ← hid]
            exact hentries
          · obtain ⟨hlow, hhigh⟩ := hcut.covers x
            change e'.Covers x ∨ _ ↔ _
            rw [hlow, hhigh]
            tauto
        · rw [if_neg htrans, hnext]
          have htrans' : e.inTransition = false := by simpa [hsame] using htrans
          have hd := h.distinct
          rw [hsplit] at hd
          have hnew : e.id ∉ post.map VmMapEntry.id := by
            intro hin
            obtain ⟨a, ha, hida⟩ := mem_map.mp hin
            exact hd.ne_of_split.2 a ha hida
          have hnone : m.HintsIn (pre ++ (back ++ post)) := by
            refine ⟨fun i hi => ?_, fun i hi => ?_⟩
            · rw [hcut.header.hint, hhint] at hi
              cases hi
            · rw [hcut.header.firstFree, hfree] at hi
              cases hi
          obtain ⟨hentries, hwf⟩ := hcut.wellFormed.unlink hcut.entries hnone
          have hdelete : ((s.clipEnd e.id stop).entryDelete release e').map =
              { m.entryUnlink e'.id with size := m.size - (e'.vmeEnd - e'.vmeStart) } := by
            rw [← hmap]
            rfl
          rw [← hdelete] at hentries hwf
          rcases hcut.whole with ⟨rfl, hle⟩ | hgt
          · rw [nil_append] at hentries ⊢
            obtain ⟨waits, s', post', heq, hwf', hentries', hends⟩ := ih hwf hentries
              (Nat.le_of_succ_le_succ hlen) (by rw [hdelete]; exact hcut.header.hint.trans hhint)
              (by rw [hdelete]; exact hcut.header.firstFree.trans hfree)
            rw [hdelete] at hends
            exact ⟨waits, s', post', heq, hwf', hentries',
              (hends.mono hcut.header.nextId).cons hlt hle htrans' hpost hnew⟩
          · have habove : ∀ b ∈ back, stop ≤ b.vmeStart := fun b hb => (hcut.above b hb).1.ge
            have hall : ∀ a ∈ back ++ post, stop ≤ a.vmeStart := by
              intro a ha
              rcases mem_append.mp ha with ha | ha
              · exact habove a ha
              · have := hpost a ha
                omega
            exact ⟨false, _, back ++ post, deletePass_stop hwf hentries hall n, hwf, hentries,
              .last hlt hgt htrans' hpost habove (fun x => (hcut.covers x).2) hbackNames hnew⟩
      · have habove : ∀ a ∈ e :: post, stop ≤ a.vmeStart := by
          intro a ha
          rcases mem_cons.mp ha with rfl | ha
          · exact hge
          · have := hpost a ha
            omega
        exact ⟨false, s, e :: post, deletePass_stop h hsplit habove _, h, hsplit, .of_above habove⟩

/-- The map with other hints. -/
def VmMap.rehint (m : VmMap) (hint firstFree : Option ℕ) : VmMap :=
  { m with hint := hint, firstFree := firstFree }

def MapState.rehint (s : MapState α) (hint firstFree : Option ℕ) : MapState α :=
  ⟨s.kernel, s.map.rehint hint firstFree⟩

omit [PageSize] in
theorem clipEnd_rehint (s : MapState α) (hint firstFree : Option ℕ) (i stop : ℕ) :
    (s.rehint hint firstFree).clipEnd i stop = (s.clipEnd i stop).rehint hint firstFree := by
  have hat : (s.rehint hint firstFree).map.entryAt i = s.map.entryAt i := rfl
  unfold clipEnd VmMap.clipEnd
  rw [hat]
  cases he : s.map.entryAt i with
  | none => rfl
  | some e =>
    dsimp only
    split_ifs <;> rfl

omit [PageSize] in
theorem deletePass_rehint (stop : ℕ) (release : Kernel α → VmMapEntry → Kernel α) (n : ℕ)
    (hint firstFree : Option ℕ) (s : MapState α) (entry : Option ℕ) :
    deletePass release stop n (s.rehint hint firstFree) entry =
      ((deletePass release stop n s entry).1,
        (deletePass release stop n s entry).2.rehint hint firstFree) := by
  induction n generalizing s entry with
  | zero => cases entry <;> rfl
  | succ n ih =>
    cases entry with
    | none => rfl
    | some i =>
      have hat : ∀ s : MapState α, (s.rehint hint firstFree).map.entryAt i = s.map.entryAt i :=
        fun _ => rfl
      unfold deletePass
      rw [hat]
      cases s.map.entryAt i with
      | none => rfl
      | some e =>
        dsimp only
        by_cases hlt : e.vmeStart < stop
        · rw [if_pos hlt, if_pos hlt, clipEnd_rehint, hat]
          cases (s.clipEnd i stop).map.entryAt i with
          | none => rfl
          | some e' =>
            dsimp only
            by_cases htrans : e'.inTransition = true
            · rw [if_pos htrans, if_pos htrans]
              rfl
            · rw [if_neg htrans, if_neg htrans]
              exact ih ((s.clipEnd i stop).entryDelete release e') _
        · rw [if_neg hlt, if_neg hlt]

theorem VmMap.WellFormed.rehint (h : m.WellFormed) {hint firstFree : Option ℕ}
    (hhints : (m.rehint hint firstFree).HintsIn m.entries) : (m.rehint hint firstFree).WellFormed :=
  ⟨h.ascending, h.nonempty, h.aligned, h.inside, h.nentries, h.size, h.bounds, h.distinct,
    h.nextId, hhints.1, hhints.2⟩

/-- A pass over the entries from `post` on. -/
theorem deletePass_run (release : Kernel α → VmMapEntry → Kernel α) (h : s.map.WellFormed)
    (hal : PageAligned stop) (hsplit : s.map.entries = pre ++ post) :
    ∃ waits s' post', deletePass release stop s.map.entries.length s
        (post.head?.map VmMapEntry.id) = (waits, s') ∧
      s'.map.hint = s.map.hint ∧ s'.map.firstFree = s.map.firstFree ∧
      s'.map.entries = pre ++ post' ∧ PassEnds stop s.map.nextId post post' waits ∧
      (s'.map.HintsIn s'.map.entries → s'.map.WellFormed) := by
  have hnone : (s.rehint none none).map.WellFormed := h.rehint ⟨nofun, nofun⟩
  have hlen : post.length ≤ s.map.entries.length := by
    rw [hsplit, length_append]
    omega
  obtain ⟨waits, s', post', heq, hwf, hentries, hends⟩ :=
    deletePass_spec release hal _ hnone hsplit hlen rfl rfl
  have hback := deletePass_rehint stop release s.map.entries.length s.map.hint
    s.map.firstFree (s.rehint none none) (post.head?.map VmMapEntry.id)
  rw [heq] at hback
  exact ⟨waits, s'.rehint s.map.hint s.map.firstFree, post', hback, rfl, rfl, hentries, hends,
    hwf.rehint⟩

/-! ## Where a pass begins -/

/-- A pass that may go wrong: what it deletes may begin below the range or be named by a hint. -/
structure Begins (s : MapState α) (start : ℕ) (r : MapState α × Option ℕ)
    (pre post : List VmMapEntry) : Prop where
  wellFormed : r.1.map.WellFormed
  entries : r.1.map.entries = pre ++ post
  entry : r.2 = post.head?.map VmMapEntry.id
  below : ∀ e ∈ pre, e.vmeEnd ≤ start
  same : ∀ x, r.1.map.Maps x ↔ s.map.Maps x

theorem deleteStart_begins (h : s.map.WellFormed) (hal : PageAligned start) :
    ∃ pre post, Begins s start (s.deleteStart start) pre post ∧
      (∀ e ∈ post, start ≤ e.vmeStart) ∧ (s.deleteStart start).1.map.HintsIn pre := by
  obtain ⟨pre, post, hat⟩ := h.firstEntry hal
  have hsame := hat.same
  unfold deleteStart
  generalize s.firstEntry start = r at hat hsame ⊢
  obtain ⟨found, s', entry⟩ := r
  have hwf := hat.wellFormed
  have hentries := hat.entries
  have hentry := hat.entry
  have hhint := hat.hint
  dsimp only at hwf hentries hentry hhint ⊢
  rw [hentry, VmMap.prev_head hwf.distinct hentries]
  obtain ⟨m, hm, hmwf, hmentries, hmhint⟩ : ∃ m,
      (if found = true then s'.map.saveHint (last VmMapEntry.id pre) else s'.map) = m ∧
      m.WellFormed ∧ m.entries = pre ++ post ∧ ∀ i, m.hint = some i → i ∈ pre.map VmMapEntry.id := by
    cases found with
    | false => exact ⟨_, rfl, hwf, hentries, hhint rfl⟩
    | true =>
      have hlast : ∀ i, last VmMapEntry.id pre = some i → i ∈ pre.map VmMapEntry.id :=
        fun i hi => last_mem hi
      refine ⟨_, rfl, hwf.saveHint fun i hi => ?_, hentries, hlast⟩
      rw [hentries, map_append]
      exact mem_append_left _ (hlast i hi)
  rw [hm]
  have hhints := hmwf.lowerFirstFree hmentries hat.above hmhint
  have hlower := m.lowerFirstFree_entries start (post.head?.map VmMapEntry.id)
  have hmaps : ∀ x, Mapped (pre ++ post) x ↔ s.map.Maps x := fun x => by
    have hiff := view_eq_none_iff (pre ++ post) x
    rw [hsame x, view_eq_none_iff, not_iff_not] at hiff
    exact hiff.symm
  refine ⟨pre, post, ⟨?_, hlower.trans hmentries, rfl, hat.below, fun x => ?_⟩, hat.above, hhints⟩
  · have hin : VmMap.HintsIn _ (pre ++ post) := hhints.append_right
    rw [← hmentries] at hin
    dsimp only
    unfold VmMap.lowerFirstFree at hin ⊢
    split_ifs at hin ⊢
    · change (m.rehint m.hint _).WellFormed
      exact hmwf.rehint hin
    · exact hmwf
  · change Mapped (m.lowerFirstFree start (post.head?.map VmMapEntry.id)).entries x ↔ _
    rw [hlower, hmentries]
    exact hmaps x

omit [PageSize] in
theorem VmMap.hintEntry_cases {cur : VmMapEntry} (h : m.hintEntry = some cur) :
    m.hint = none ∧ m.entries.head? = some cur ∨ m.hint = some cur.id := by
  unfold VmMap.hintEntry at h
  split at h
  · next hnone => exact .inl ⟨hnone, h⟩
  · next i hsome =>
    have hid : cur.id = i := by simpa using find?_some h
    exact .inr (hid ▸ hsome)

theorem VmMap.WellFormed.lookupEntry_covers (h : m.WellFormed) (he : e ∈ m.entries)
    (hc : e.Covers start) :
    (m.hint = none ∧ m.entries.head? = some e → (m.lookupEntry start).2.2.hint = none) ∧
      (¬ (m.hint = none ∧ m.entries.head? = some e) →
        (m.lookupEntry start).2.2.hint = some e.id) := by
  obtain ⟨hint, a, ha, hlook, -, hca⟩ := h.lookupEntry_maps ⟨e, he, hc⟩
  cases h.eq_of_maps ha he hca hc
  have hplace : (m.lookupEntry start).2.1 = some e.id := by rw [hlook]
  clear hlook
  unfold VmMap.lookupEntry at hplace ⊢
  cases hcur : m.hintEntry with
  | none =>
    rw [h.hintEntry_none hcur] at he
    cases he
  | some cur =>
    rw [hcur] at hplace
    have hother : ¬ cur.Covers start → ¬ (m.hint = none ∧ m.entries.head? = some e) := by
      rintro hnot ⟨hnone, hhead⟩
      rcases VmMap.hintEntry_cases hcur with ⟨-, hhead'⟩ | hsome
      · cases hhead.symm.trans hhead'
        exact hnot hc
      · rw [hnone] at hsome
        cases hsome
    dsimp only at hplace ⊢
    split_ifs at hplace ⊢ with hge hlt
    · -- the hint is the entry, or it is the header before the entry
      have hcurId : cur.id = e.id := Option.some.inj hplace
      refine ⟨fun h => h.1, fun hnot => ?_⟩
      rcases VmMap.hintEntry_cases hcur with ⟨hnone, hhead⟩ | hsome
      · have hmem : cur ∈ m.entries := List.mem_of_mem_head? hhead
        rw [h.distinct.eq_of_name hmem he hcurId] at hhead
        exact absurd ⟨hnone, hhead⟩ hnot
      · rw [← hcurId]
        exact hsome
    · have hnot := hother fun hc => hlt hc.2
      exact ⟨fun h => absurd h hnot, fun _ => hplace⟩
    · have hnot := hother fun hc => hge hc.1
      exact ⟨fun h => absurd h hnot, fun _ => hplace⟩

theorem deleteAgain_begins (h : s.map.WellFormed) (start : ℕ) :
    ∃ pre post, Begins s start (s.deleteAgain start) pre post ∧
      s.map.entries = pre ++ post ∧ (s.deleteAgain start).1.map.firstFree = s.map.firstFree ∧
      (s.deleteAgain start).1.map.nextId = s.map.nextId ∧ (∀ e ∈ post, start < e.vmeEnd) ∧
      ((∀ i, (s.deleteAgain start).1.map.hint = some i → i ∈ pre.map VmMapEntry.id) ∧
          (∀ e ∈ post, start < e.vmeStart) ∨ ∃ e rest, post = e :: rest ∧ e.Covers start ∧
          (s.deleteAgain start).1.map.hint = (s.map.lock.lookupEntry start).2.2.hint) := by
  obtain ⟨found, hint, pre, post, hlook, hhint, hsplit, hpost, hcase⟩ :=
    h.lock.lookupEntry_spec start
  have hwf := h.lock.saveHint hhint
  have hd := h.distinct
  have hsaved := VmMap.lookupEntry_hint (m := s.map.lock) (x := start)
  unfold deleteAgain
  rw [hlook] at hsaved ⊢
  rcases hcase with ⟨rfl, hpre⟩ | ⟨rfl, init, e, rfl, hinit, hlo, hhi⟩
  · have hsplit' : s.map.entries = pre ++ post := hsplit
    rw [hsplit'] at hd
    refine ⟨pre, post, ⟨hwf, hsplit, ?_, hpre, fun _ => Iff.rfl⟩, hsplit, rfl, rfl, fun e he => ?_,
      .inl ⟨fun i hi => last_mem ((hsaved rfl).symm.trans hi), hpost⟩⟩
    · simp only [VmMap.next, VmMap.saveHint, hsplit, after_last hd]
    · have := hpost e he
      have := h.nonempty e (by rw [hsplit']; simp [he])
      omega
  · have hplace : last VmMapEntry.id (init ++ [e]) = some e.id := by simp [last]
    rw [append_assoc] at hsplit
    have hsplit' : s.map.entries = init ++ e :: post := hsplit
    rw [hplace]
    refine ⟨init, e :: post, ⟨hwf, hsplit, rfl, hinit, fun _ => Iff.rfl⟩, hsplit, rfl, rfl,
      fun a ha => ?_, .inr ⟨e, post, rfl, ⟨hlo, hhi⟩, rfl⟩⟩
    rcases mem_cons.mp ha with rfl | ha
    · exact hhi
    · have := hpost a ha
      have := h.nonempty a (by rw [hsplit']; simp [ha])
      omega

/-! ## What a pass does -/

/-- A pass from its beginning. -/
def runPass (release : Kernel α → VmMapEntry → Kernel α) (stop : ℕ) (found : MapState α)
    (r : MapState α × Option ℕ) : DeletePass α :=
  let p := deletePass release stop r.1.map.entries.length r.1 r.2
  ⟨found, p.1, p.2⟩

variable (release : Kernel α → VmMapEntry → Kernel α) {r : MapState α × Option ℕ}

theorem Begins.ends (hb : Begins s start r pre post) (hal : PageAligned stop) :
    ∃ post', (runPass release stop s r).after.map.hint = r.1.map.hint ∧
      (runPass release stop s r).after.map.firstFree = r.1.map.firstFree ∧
      (runPass release stop s r).after.map.entries = pre ++ post' ∧
      PassEnds stop r.1.map.nextId post post' (runPass release stop s r).waits ∧
      ((runPass release stop s r).after.map.HintsIn (runPass release stop s r).after.map.entries →
        (runPass release stop s r).after.map.WellFormed) := by
  obtain ⟨waits, s', post', heq, hhint, hfree, hentries, hends, hwf⟩ :=
    deletePass_run release hb.wellFormed hal hb.entries
  unfold runPass
  rw [hb.entry, heq]
  exact ⟨post', hhint, hfree, hentries, hends, hwf⟩

theorem Begins.name_iff (hb : Begins s start r pre post) {post' : List VmMapEntry} {waits : Bool}
    (hends : PassEnds stop r.1.map.nextId post post' waits) {i : ℕ}
    (hi : i ∈ (pre ++ post).map VmMapEntry.id) :
    i ∈ (pre ++ post').map VmMapEntry.id ↔ i ∉ (deletable stop post).map VmMapEntry.id := by
  have hd := hb.wellFormed.distinct
  rw [hb.entries] at hd
  have hlt : i < r.1.map.nextId := by
    obtain ⟨e, he, rfl⟩ := mem_map.mp hi
    exact hb.wellFormed.nextId e (hb.entries ▸ he)
  rw [map_append, mem_append] at hi ⊢
  rw [hends.names i hlt]
  have hpre : i ∈ pre.map VmMapEntry.id → i ∉ (deletable stop post).map VmMapEntry.id := by
    intro hpre hdel
    obtain ⟨e, he, rfl⟩ := mem_map.mp hdel
    unfold Distinct at hd
    rw [map_append, nodup_append] at hd
    exact hd.2.2 _ hpre _ (mem_map_of_mem (deletable_subset he)) rfl
  tauto

theorem Begins.deletes (hb : Begins s start r pre post) (hal : PageAligned stop)
    (hdel : ∀ e ∈ deletable stop post, start ≤ e.vmeStart)
    (hhint : ∀ i, r.1.map.hint = some i → i ∉ (deletable stop post).map VmMapEntry.id)
    (hfree : ∀ i, r.1.map.firstFree = some i → i ∉ (deletable stop post).map VmMapEntry.id) :
    (runPass release stop s r).Deletes start stop ∧
      (runPass release stop s r).after.map.WellFormed := by
  obtain ⟨post', hhint', hfree', hentries, hends, hwf⟩ := hb.ends release hal
  have hmem : ∀ i, i ∈ r.1.map.entries.map VmMapEntry.id →
      i ∉ (deletable stop post).map VmMapEntry.id →
      i ∈ (runPass release stop s r).after.map.entries.map VmMapEntry.id := by
    intro i hi hnot
    rw [hb.entries] at hi
    rw [hentries]
    exact (hb.name_iff hends hi).mpr hnot
  have hlinked : (runPass release stop s r).after.map.HintsIn
      (runPass release stop s r).after.map.entries := by
    refine ⟨fun i hi => ?_, fun i hi => ?_⟩
    · rw [hhint'] at hi
      exact hmem i (hb.wellFormed.hint i hi) (hhint i hi)
    · rw [hfree'] at hi
      exact hmem i (hb.wellFormed.firstFree i hi) (hfree i hi)
  refine ⟨⟨fun x hx => ?_, fun hwaits x hlo hhi => ?_, hlinked⟩, hwf hlinked⟩
  · have hbefore := hb.same x
    change Mapped _ x ↔ _ at hbefore
    change Mapped _ x ↔ s.map.Maps x
    rw [hb.entries, mapped_append] at hbefore
    rw [hentries, mapped_append, hends.mapped, ← hbefore]
    have hnot : ¬ (x < stop ∧ Mapped (deletable stop post) x) := by
      rintro ⟨hlt, e, he, hc⟩
      have := hdel e he
      have := hc.1
      omega
    tauto
  · rintro ⟨e, he, hc⟩
    rw [hentries] at he
    have hstart := hc.1
    have hend := hc.2
    rcases mem_append.mp he with he | he
    · have := hb.below e he
      omega
    · have := hends.above hwaits e he
      omega

theorem Begins.not_deletes (hb : Begins s start r pre post) (hal : PageAligned stop)
    (he : e ∈ deletable stop post)
    (hbad : e.vmeStart < start ∨ r.1.map.hint = some e.id ∨ r.1.map.firstFree = some e.id) :
    ¬ (runPass release stop s r).Deletes start stop := by
  intro hdel
  obtain ⟨post', hhint', hfree', hentries, hends, -⟩ := hb.ends release hal
  have hpost := deletable_subset he
  have hmem : e ∈ r.1.map.entries := by
    rw [hb.entries]
    exact mem_append_right _ hpost
  have hgone : e.id ∉ (runPass release stop s r).after.map.entries.map
      VmMapEntry.id := by
    rw [hentries]
    intro hin
    have hin' : e.id ∈ (pre ++ post).map VmMapEntry.id :=
      mem_map_of_mem (mem_append_right _ hpost)
    exact (hb.name_iff hends hin').mp hin (mem_map_of_mem he)
  rcases hbad with hlow | hhint | hfree
  · -- the address at which the entry begins is lost
    have hc : e.Covers e.vmeStart := ⟨le_rfl, hb.wellFormed.nonempty e hmem⟩
    have hmaps : (runPass release stop s r).after.map.Maps e.vmeStart :=
      (hdel.outside e.vmeStart (by omega)).mpr ((hb.same _).mp ⟨e, hmem, hc⟩)
    change Mapped _ e.vmeStart at hmaps
    rw [hentries, mapped_append] at hmaps
    rcases hmaps with ⟨a, ha, hca⟩ | hin
    · have hae : a = e :=
        hb.wellFormed.eq_of_maps (hb.entries ▸ mem_append_left _ ha) hmem hca hc
      have hd := hb.wellFormed.distinct
      rw [hb.entries] at hd
      unfold Distinct at hd
      rw [map_append, nodup_append] at hd
      exact hd.2.2 _ (mem_map_of_mem ha) _ (mem_map_of_mem hpost) (by rw [hae])
    · have hlt : e.vmeStart < stop := by
        have := List.mem_takeWhile_imp he
        simp only [decide_eq_true_eq] at this
        exact this.1
      exact ((hends.mapped _).mp hin).2 ⟨hlt, e, he, hc⟩
  · exact hgone (hdel.hints.1 _ (hhint'.trans hhint))
  · exact hgone (hdel.hints.2 _ (hfree'.trans hfree))

omit [PageSize] in
theorem dropWhile_below (hpre : ∀ e ∈ pre, e.vmeEnd ≤ start)
    (hpost : ∀ e ∈ post, start < e.vmeEnd) :
    (pre ++ post).dropWhile (fun e => e.vmeEnd ≤ start) = post := by
  rw [List.dropWhile_append_of_pos (by simpa using hpre)]
  cases post with
  | nil => rfl
  | cons e post =>
    have := hpost e mem_cons_self
    rw [List.dropWhile_cons_of_neg (by simpa using this)]

theorem deleteAgain_deletes (h : s.map.WellFormed) (hal : PageAligned stop)
    (hclear : s.map.Clear start stop) :
    (runPass release stop s (s.deleteAgain start)).Deletes start stop ∧
      (runPass release stop s (s.deleteAgain start)).after.map.WellFormed := by
  obtain ⟨pre, post, hb, hsplit, hfree, -, hpost, hcase⟩ := deleteAgain_begins h start
  have hdrop : (s.map.entries.dropWhile fun e => e.vmeEnd ≤ start) = post := by
    rw [hsplit, dropWhile_below hb.below hpost]
  unfold VmMap.Clear at hclear
  rw [hdrop] at hclear
  refine hb.deletes release hal (fun e he => (hclear e he).1) (fun i hi hin => ?_) fun i hi hin => ?_
  · obtain ⟨a, ha, rfl⟩ := mem_map.mp hin
    rcases hcase with ⟨hpre, -⟩ | ⟨e, rest, rfl, hc, hhint⟩
    · have hd := h.distinct
      rw [hsplit] at hd
      unfold Distinct at hd
      rw [map_append, nodup_append] at hd
      exact hd.2.2 _ (hpre _ hi) _ (mem_map_of_mem (deletable_subset ha)) rfl
    · -- the lookup has found the entry, the first one of the map, and has left the hint alone
      have hmem : e ∈ s.map.entries := by rw [hsplit]; simp
      have he : e ∈ deletable stop (e :: rest) := by
        by_cases hfirst : e.vmeStart < stop ∧ e.inTransition = false
        · rw [deletable_cons_pos hfirst.1 hfirst.2]
          exact mem_cons_self
        · rw [deletable_cons_neg hfirst] at ha
          cases ha
      obtain ⟨hge, -, hheader⟩ := hclear e he
      have hle := hc.1
      have hnone := (h.lock.lookupEntry_covers hmem hc).1 (hheader (by omega))
      rw [hhint, hnone] at hi
      cases hi
  · obtain ⟨a, ha, rfl⟩ := mem_map.mp hin
    rw [hfree] at hi
    exact (hclear a ha).2.1 hi

theorem deleteAgain_iff (h : s.map.WellFormed) (hal : PageAligned stop) :
    (runPass release stop s (s.deleteAgain start)).Deletes start stop ↔ s.map.Clear start stop := by
  refine ⟨fun hdel => ?_, fun hclear => (deleteAgain_deletes release h hal hclear).1⟩
  obtain ⟨pre, post, hb, hsplit, hfree, -, hpost, hcase⟩ := deleteAgain_begins h start
  have hdrop : (s.map.entries.dropWhile fun e => e.vmeEnd ≤ start) = post := by
    rw [hsplit, dropWhile_below hb.below hpost]
  unfold VmMap.Clear
  rw [hdrop]
  intro e he
  have hin := deletable_subset he
  have hmem : e ∈ s.map.entries := by rw [hsplit]; exact mem_append_right _ hin
  refine ⟨?_, fun hff => ?_, fun hstart => ?_⟩
  · by_contra hlow
    exact hb.not_deletes release hal he (.inl (by omega)) hdel
  · exact hb.not_deletes release hal he (.inr (.inr (hfree.trans hff))) hdel
  · rcases hcase with ⟨-, habove⟩ | ⟨a, rest, rfl, hc, hhint⟩
    · have := habove e hin
      omega
    · have hce : e.Covers start := ⟨hstart.le, hpost e hin⟩
      have hmema : a ∈ s.map.entries := by rw [hsplit]; simp
      cases h.eq_of_maps hmem hmema hce hc
      by_contra hnot
      have hsome := (h.lock.lookupEntry_covers hmem hce).2 hnot
      exact hb.not_deletes release hal he (.inr (.inl (hhint.trans hsome))) hdel

theorem deleteStart_deletes (h : s.map.WellFormed) (hstart : PageAligned start)
    (hstop : PageAligned stop) : (runPass release stop s (s.deleteStart start)).Deletes start stop ∧
      (runPass release stop s (s.deleteStart start)).after.map.WellFormed := by
  obtain ⟨pre, post, hb, habove, hhints⟩ := deleteStart_begins h hstart
  have hd := hb.wellFormed.distinct
  rw [hb.entries] at hd
  unfold Distinct at hd
  rw [map_append, nodup_append] at hd
  have hnot : ∀ i ∈ pre.map VmMapEntry.id, i ∉ (deletable stop post).map VmMapEntry.id := by
    intro i hi hin
    obtain ⟨a, ha, rfl⟩ := mem_map.mp hin
    exact hd.2.2 _ hi _ (mem_map_of_mem (deletable_subset ha)) rfl
  exact hb.deletes release hstop (fun e he => habove e (deletable_subset he))
    (fun i hi => hnot i (hhints.1 i hi)) fun i hi => hnot i (hhints.2 i hi)

end

/-! ## A call -/

section
variable {α : Type*}

theorem deletePasses_cons (release : Kernel α → VmMapEntry → Kernel α) (start stop : ℕ)
    (ws : List (MapState α → MapState α)) (found : MapState α) (r : MapState α × Option ℕ) :
    deletePasses release start stop ws found r = runPass release stop found r ::
      match ws with
      | [] => []
      | w :: ws =>
        if (runPass release stop found r).waits then
          deletePasses release start stop ws (w (runPass release stop found r).after)
            ((w (runPass release stop found r).after).deleteAgain start)
        else [] := by
  rw [deletePasses.eq_def]
  rfl

theorem deletePasses_iff [PageSize] {release : Kernel α → VmMapEntry → Kernel α} {start stop : ℕ}
    (hal : PageAligned stop) (ws : List (MapState α → MapState α)) :
    ∀ {s : MapState α}, s.map.WellFormed →
      (∀ w ∈ ws, ∀ t : MapState α, t.map.WellFormed → (w t).map.WellFormed) →
      ((∀ p ∈ deletePasses release start stop ws s (s.deleteAgain start),
          p.Deletes start stop) ↔
        ∀ p ∈ deletePasses release start stop ws s (s.deleteAgain start),
          p.before.map.Clear start stop) := by
  induction ws with
  | nil =>
    intro s h _
    rw [deletePasses_cons]
    simp only [forall_mem_cons, not_mem_nil, false_implies, implies_true, and_true]
    exact deleteAgain_iff _ h hal
  | cons w ws ih =>
    intro s h hothers
    rw [forall_mem_cons] at hothers
    rw [deletePasses_cons]
    simp only [forall_mem_cons]
    rw [deleteAgain_iff _ h hal]
    refine and_congr_right fun hclear => ?_
    split_ifs
    · -- the map is well-formed when the lock is given up, so the others leave it well-formed
      have hwf := (deleteAgain_deletes release h hal hclear).2
      exact ih (hothers.1 _ hwf) hothers.2
    · simp

/-- A call that deletes a range works, whatever other threads do while it waits, exactly when the
map is clear each time it wakes up. -/
theorem vmMapDelete_deletes_iff (s : MapState α) (h : @VmMap.WellFormed bytes s.map)
    (start stop : ℕ) (ws : List (MapState α → MapState α))
    (hothers : ∀ w ∈ ws, ∀ t : MapState α, @VmMap.WellFormed bytes t.map →
      @VmMap.WellFormed bytes (w t).map) :
    (∀ p ∈ s.vmMapDeletePasses start stop ws, p.Deletes start stop) ↔
      ∀ p ∈ (s.vmMapDeletePasses start stop ws).tail, p.before.map.Clear start stop := by
  let _ := bytes
  obtain ⟨hdel, hwf⟩ := deleteStart_deletes
    (Kernel.releaseEntry (Kernel.vmMapDeallocate s.kernel.maps.length)) h
    (bytes_aligned start) (bytes_aligned stop)
  unfold MapState.vmMapDeletePasses
  rw [deletePasses_cons]
  simp only [forall_mem_cons, List.tail_cons, hdel, true_and]
  cases ws with
  | nil => simp
  | cons w ws =>
    rw [forall_mem_cons] at hothers
    dsimp only
    split_ifs
    · exact deletePasses_iff (bytes_aligned stop) ws (hothers.1 _ hwf) hothers.2
    · simp

/-- Four bytes in a map of 32, in transition. -/
def transitMap : MapState ℕ where
  kernel := writableMap.kernel
  map :=
    { VmMap.create 0 32 with
      entries := [{ writableEntry with vmeStart := 4, vmeEnd := 8, inTransition := true }]
      nentries := 1
      size := 4
      nextId := 1 }

/-- The thread that had the entry in transition has come to its end. -/
def settle (s : MapState ℕ) : MapState ℕ := s.update 0 fun e => { e with inTransition := false }

/-- Another thread has then mapped the four bytes below. -/
def mapBelow (s : MapState ℕ) : MapState ℕ :=
  { settle s with map := (settle s).map.enterNew (anywhereArgs 4 0) 0 4 none }

/-- Another thread has then deleted the entry, and mapped the eight bytes up to the end. -/
def mapOver (s : MapState ℕ) : MapState ℕ :=
  let s := ((settle s).vmMapDelete 4 8).2
  { s with map := s.map.enterNew (anywhereArgs 8 0) 0 8 none }

theorem transitMap_wellFormed : @VmMap.WellFormed bytes transitMap.map := by
  let _ := bytes
  refine ⟨pairwise_singleton _ _, ?_, fun e _ => ⟨bytes_aligned _, bytes_aligned _⟩, ?_, rfl,
    rfl, ⟨by decide, by decide, bytes_aligned _⟩, ?_, ?_, ?_, ?_⟩
  · simp [transitMap, writableEntry]
  · simp [transitMap, writableEntry, VmMap.create]
  · simp [transitMap, Distinct]
  · simp [transitMap, writableEntry]
  · simp [transitMap, VmMap.create]
  · simp [transitMap, VmMap.create]

theorem settle_wellFormed [PageSize] {s : MapState ℕ} (h : s.map.WellFormed) :
    (settle s).map.WellFormed := by
  cases hat : s.map.entryAt 0 with
  | none =>
    have hnot : ∀ e ∈ s.map.entries, e.id ≠ 0 := by
      simpa [VmMap.entryAt] using hat
    have hsame : Linked.update VmMapEntry.id 0 (fun e => { e with inTransition := false })
        s.map.entries = s.map.entries :=
      (map_congr_left fun e he => if_neg (hnot e he)).trans (List.map_id' _)
    unfold settle MapState.update
    rw [hsame]
    exact h
  | some e =>
    have hmem := mem_of_find?_eq_some hat
    have hid : e.id = 0 := by simpa using find?_some hat
    obtain ⟨pre, post, hsplit⟩ := append_of_mem hmem
    have := (h.modify hsplit (f := fun e => { e with inTransition := false }) rfl rfl rfl).2.1
    rw [hid] at this
    exact this

theorem vmMapDelete_deletes_settled :
    ∃ p ∈ transitMap.vmMapDeletePasses 4 8 [settle], p.Deletes 4 8 := by
  obtain ⟨p, hp⟩ := List.exists_mem_of_ne_nil (transitMap.vmMapDeletePasses 4 8 [settle])
    (by decide +kernel)
  refine ⟨p, hp, ?_⟩
  refine (vmMapDelete_deletes_iff transitMap transitMap_wellFormed 4 8 [settle] ?_).mpr ?_ p hp
  · intro w hw t ht
    cases mem_singleton.mp hw
    let _ := bytes
    exact settle_wellFormed ht
  · decide +kernel

/-- Once the hint names the entry that was deleted, and once the four bytes below the range are lost
with it. -/
theorem vmMapDelete_afterWait : @VmMap.WellFormed bytes transitMap.map ∧
    (∃ p ∈ transitMap.vmMapDeletePasses 4 8 [mapBelow], p.waits = false ∧
      p.after.map.hint = some 0 ∧ p.after.map.entries.map VmMapEntry.id = [1]) ∧
    ∃ p ∈ transitMap.vmMapDeletePasses 4 8 [mapOver], p.waits = false ∧
      p.before.map.Maps 0 ∧ ¬ p.after.map.Maps 0 := by
  refine ⟨transitMap_wellFormed, ⟨_, mem_cons_of_mem _ mem_cons_self, ?_⟩,
    _, mem_cons_of_mem _ mem_cons_self, ?_⟩
  · decide +kernel
  · refine ⟨by decide +kernel, ?_, ?_⟩
    · unfold VmMap.Maps
      decide +kernel
    · unfold VmMap.Maps
      decide +kernel

end

end MachKernel.Vm
