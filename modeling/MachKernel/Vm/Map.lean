import MachKernel.Lib.Linked
import MachKernel.Vm.Page

/-! Address maps: sorted lists of entries, with a hint for lookups (`vm/vm_map.c`). -/

namespace MachKernel.Vm
open List
open Word32 Linked

inductive KernReturn
  | success
  | invalidAddress
  | protectionFailure
  | noSpace
  | invalidArgument
  | failure
  | memoryError
  | invalidRange
  deriving DecidableEq

/-- `vm_prot_t`. -/
structure VmProt where
  read : Bool
  write : Bool
  execute : Bool
  deriving DecidableEq

inductive VmInherit
  | share
  | copy
  | none
  deriving DecidableEq

def vmProtDefault : VmProt := ⟨true, true, false⟩

def vmProtAll : VmProt := ⟨true, true, true⟩

def vmInheritDefault : VmInherit := .copy

/-- A map entry; `id` is its address, `object` what the union of pointers holds. -/
structure VmMapEntry where
  id : ℕ
  vmeStart : ℕ
  vmeEnd : ℕ
  object : Option ℕ
  offset : ℕ
  isAMap : Bool
  isSubMap : Bool
  inTransition : Bool
  needsWakeup : Bool
  needsCopy : Bool
  protection : VmProt
  maxProtection : VmProt
  inheritance : VmInherit
  wiredCount : ℕ
  userWiredCount : ℕ
  deriving DecidableEq

/-- An address map. The places `hint` and `firstFree` are entries, or `none` for the header. -/
structure VmMap where
  entries : List VmMapEntry
  nentries : ℕ
  size : ℕ
  minOffset : ℕ
  maxOffset : ℕ
  hint : Option ℕ
  firstFree : Option ℕ
  waitForSpace : Bool
  timestamp : ℕ
  nextId : ℕ

open VmMap

namespace VmMap

/-- `vm_map_create`. -/
def create (min max : ℕ) : VmMap where
  entries := []
  nentries := 0
  size := 0
  minOffset := min
  maxOffset := max
  hint := none
  firstFree := none
  waitForSpace := false
  timestamp := 0
  nextId := 0

/-- `vm_map_lock`. -/
def lock (m : VmMap) : VmMap := { m with timestamp := m.timestamp + 1 }

def saveHint (m : VmMap) (place : Option ℕ) : VmMap := { m with hint := place }

/-- The linear search of `vm_map_lookup_entry`: whether the address is in an entry, and that entry
or the one before it. -/
def scan (address : ℕ) : Option ℕ → List VmMapEntry → Bool × Option ℕ
  | prev, [] => (false, prev)
  | prev, e :: es =>
    if address < e.vmeEnd then
      if e.vmeStart ≤ address then (true, some e.id) else (false, prev)
    else scan address (some e.id) es

/-- The entry at which a lookup starts: the hint, or the first entry. -/
def hintEntry (m : VmMap) : Option VmMapEntry :=
  match m.hint with
  | none => m.entries.head?
  | some h => m.entries.find? fun e => e.id = h

/-- `vm_map_lookup_entry`. -/
def lookupEntry (m : VmMap) (address : ℕ) : Bool × Option ℕ × VmMap :=
  match m.hintEntry with
  | none => (false, none, m.saveHint none)
  | some cur =>
    let below := m.entries.takeWhile fun e => e.id ≠ cur.id
    if cur.vmeStart ≤ address then
      if address < cur.vmeEnd then (true, some cur.id, m)
      else
        let (found, entry) := scan address (last VmMapEntry.id below) (m.entries.drop below.length)
        (found, entry, m.saveHint entry)
    else
      let (found, entry) := scan address none (below ++ [cur])
      (found, entry, m.saveHint entry)

/-- `vm_map_entry_link`. -/
def entryLink (m : VmMap) (place : Option ℕ) (e : VmMapEntry) : VmMap :=
  { m with entries := insertAfter VmMapEntry.id place e m.entries, nentries := m.nentries + 1 }

/-- An address that some entry covers. -/
def Maps (m : VmMap) (x : ℕ) : Prop := ∃ e ∈ m.entries, e.vmeStart ≤ x ∧ x < e.vmeEnd

end VmMap

/-- Entries do not overlap and are in ascending order. -/
def Ascending (l : List VmMapEntry) : Prop := l.Pairwise fun a b => a.vmeEnd ≤ b.vmeStart

/-- The addresses that a list of entries covers, counted with multiplicity. -/
def sizeSum (l : List VmMapEntry) : ℕ := (l.map fun e => e.vmeEnd - e.vmeStart).sum

/-- A well-formed map. -/
structure VmMap.WellFormed [PageSize] (m : VmMap) : Prop where
  ascending : Ascending m.entries
  nonempty : ∀ e ∈ m.entries, e.vmeStart < e.vmeEnd
  aligned : ∀ e ∈ m.entries, PageAligned e.vmeStart ∧ PageAligned e.vmeEnd
  inside : ∀ e ∈ m.entries, m.minOffset ≤ e.vmeStart ∧ e.vmeEnd ≤ m.maxOffset
  nentries : m.nentries = m.entries.length
  size : m.size = sizeSum m.entries
  bounds : m.minOffset ≤ m.maxOffset ∧ m.maxOffset < modulus ∧ PageAligned m.minOffset
  distinct : Distinct VmMapEntry.id m.entries
  nextId : ∀ e ∈ m.entries, e.id < m.nextId
  hint : ∀ i, m.hint = some i → i ∈ m.entries.map VmMapEntry.id
  firstFree : ∀ i, m.firstFree = some i → i ∈ m.entries.map VmMapEntry.id

/-- Sorted, non-empty, page-aligned entries between two bounds. -/
structure Segment [PageSize] (lo hi : ℕ) (l : List VmMapEntry) : Prop where
  ascending : Ascending l
  nonempty : ∀ e ∈ l, e.vmeStart < e.vmeEnd
  aligned : ∀ e ∈ l, PageAligned e.vmeStart ∧ PageAligned e.vmeEnd
  inside : ∀ e ∈ l, lo ≤ e.vmeStart ∧ e.vmeEnd ≤ hi

/-! ## Looking up an entry -/

section
variable {l pre post : List VmMapEntry} {address : ℕ}

theorem last_cons_or (e : VmMapEntry) (prev : Option ℕ) :
    (last VmMapEntry.id (e :: pre)).or prev = (last VmMapEntry.id pre).or (some e.id) := by
  cases pre with
  | nil => rfl
  | cons a pre =>
    have hlast : last VmMapEntry.id (e :: a :: pre) = last VmMapEntry.id (a :: pre) := by
      simp [last]
    rw [hlast]
    cases hl : last VmMapEntry.id (a :: pre) with
    | none => simp [last] at hl
    | some i => rfl

theorem scan_append_of_le (h : ∀ e ∈ pre, e.vmeEnd ≤ address) (prev : Option ℕ) :
    scan address prev (pre ++ post) =
      scan address ((last VmMapEntry.id pre).or prev) post := by
  induction pre generalizing prev with
  | nil => rfl
  | cons e pre ih =>
    have he := h e mem_cons_self
    rw [cons_append, scan, if_neg (by omega), ih fun a ha => h a (mem_cons_of_mem _ ha)]
    rw [last_cons_or]

theorem scan_append_of_lt (h : ∃ e ∈ pre, address < e.vmeEnd) (prev : Option ℕ) :
    scan address prev (pre ++ post) = scan address prev pre := by
  induction pre generalizing prev with
  | nil =>
    obtain ⟨e, he, -⟩ := h
    cases he
  | cons e pre ih =>
    rw [cons_append, scan, scan]
    split_ifs with hlt
    · rfl
    · rfl
    · obtain ⟨a, ha, hal⟩ := h
      rcases mem_cons.mp ha with rfl | ha
      · exact absurd hal hlt
      · exact ih ⟨a, ha, hal⟩ _

theorem scan_mem (prev : Option ℕ) : (scan address prev l).2 = prev ∨
      ∃ i ∈ l.map VmMapEntry.id, (scan address prev l).2 = some i := by
  induction l generalizing prev with
  | nil => exact .inl rfl
  | cons e l ih =>
    rw [scan]
    split_ifs
    · exact .inr ⟨e.id, mem_cons_self, rfl⟩
    · exact .inl rfl
    · rcases ih (some e.id) with h | ⟨i, hi, h⟩
      · exact .inr ⟨e.id, mem_cons_self, h⟩
      · exact .inr ⟨i, mem_cons_of_mem _ hi, h⟩

theorem scan_none_mem {i : ℕ} (h : (scan address none l).2 = some i) :
    i ∈ l.map VmMapEntry.id := by
  have hm : (scan address none l).2 = none ∨
      ∃ j ∈ l.map VmMapEntry.id, (scan address none l).2 = some j := scan_mem none
  rcases hm with h' | ⟨j, hj, h'⟩
  · rw [h'] at h
    cases h
  · rw [h'] at h
    cases h
    exact hj

theorem Ascending.le_of_mem (h : Ascending (pre ++ post)) {a b : VmMapEntry} (ha : a ∈ pre)
    (hb : b ∈ post) : a.vmeEnd ≤ b.vmeStart := (pairwise_append.mp h).2.2 a ha b hb

theorem scan_spec (hasc : Ascending l) (hne : ∀ e ∈ l, e.vmeStart < e.vmeEnd) (prev : Option ℕ) :
    ∃ pre post, l = pre ++ post ∧ (scan address prev l).2 = (last VmMapEntry.id pre).or prev ∧
      (∀ e ∈ post, address < e.vmeStart) ∧
      ((scan address prev l).1 = false ∧ (∀ e ∈ pre, e.vmeEnd ≤ address) ∨
        (scan address prev l).1 = true ∧ ∃ init e, pre = init ++ [e] ∧
          (∀ a ∈ init, a.vmeEnd ≤ address) ∧ e.vmeStart ≤ address ∧ address < e.vmeEnd) := by
  induction l generalizing prev with
  | nil =>
    exact ⟨[], [], rfl, rfl, by simp, .inl ⟨rfl, by simp⟩⟩
  | cons e l ih =>
    obtain ⟨hhead, hasc'⟩ := pairwise_cons.mp hasc
    have hne' : ∀ a ∈ l, a.vmeStart < a.vmeEnd := fun a ha => hne a (mem_cons_of_mem _ ha)
    rw [scan]
    split_ifs with hlt hge
    · refine ⟨[e], l, rfl, rfl, fun a ha => ?_, .inr ⟨rfl, [], e, rfl, ?_, hge, hlt⟩⟩
      · have := hhead a ha
        omega
      · intro a ha
        cases ha
    · refine ⟨[], e :: l, rfl, rfl, fun a ha => ?_, .inl ⟨rfl, fun a ha => by cases ha⟩⟩
      rcases mem_cons.mp ha with rfl | ha
      · omega
      · have := hhead a ha
        omega
    · obtain ⟨pre, post, rfl, hplace, hpost, hcase⟩ := ih hasc' hne' (some e.id)
      refine ⟨e :: pre, post, rfl, ?_, hpost, ?_⟩
      · rw [hplace, last_cons_or]
      · rcases hcase with ⟨hf, hpre⟩ | ⟨hf, init, x, rfl, hinit, hx⟩
        · refine .inl ⟨hf, fun a ha => ?_⟩
          rcases mem_cons.mp ha with rfl | ha
          · omega
          · exact hpre a ha
        · refine .inr ⟨hf, e :: init, x, rfl, fun a ha => ?_, hx⟩
          rcases mem_cons.mp ha with rfl | ha
          · omega
          · exact hinit a ha

theorem sizeSum_append (l l' : List VmMapEntry) : sizeSum (l ++ l') = sizeSum l + sizeSum l' := by
  simp [sizeSum]

theorem sizeSum_cons (e : VmMapEntry) (l : List VmMapEntry) :
    sizeSum (e :: l) = e.vmeEnd - e.vmeStart + sizeSum l := by simp [sizeSum]

end

variable [PageSize] {m : VmMap}

/-! ## Segments of a map -/

section
variable {l a b : List VmMapEntry} {e : VmMapEntry} {lo mid hi : ℕ}

theorem VmMap.WellFormed.segment (h : m.WellFormed) : Segment m.minOffset m.maxOffset m.entries :=
  ⟨h.ascending, h.nonempty, h.aligned, h.inside⟩

theorem Segment.append (ha : Segment lo mid a) (hb : Segment mid hi b) (hlo : lo ≤ mid)
    (hhi : mid ≤ hi) : Segment lo hi (a ++ b) := by
  refine ⟨pairwise_append.mpr ⟨ha.ascending, hb.ascending, fun x hx y hy => ?_⟩,
    fun x hx => ?_, fun x hx => ?_, fun x hx => ?_⟩
  · have := (ha.inside x hx).2
    have := (hb.inside y hy).1
    omega
  · exact (mem_append.mp hx).elim (ha.nonempty x) (hb.nonempty x)
  · exact (mem_append.mp hx).elim (ha.aligned x) (hb.aligned x)
  · rcases mem_append.mp hx with hx | hx
    · have := ha.inside x hx
      omega
    · have := hb.inside x hx
      omega

theorem Segment.left (h : Segment lo hi (a ++ b)) (ha : ∀ e ∈ a, e.vmeEnd ≤ mid) :
    Segment lo mid a :=
  ⟨(pairwise_append.mp h.ascending).1, fun x hx => h.nonempty x (mem_append_left b hx),
    fun x hx => h.aligned x (mem_append_left b hx),
    fun x hx => ⟨(h.inside x (mem_append_left b hx)).1, ha x hx⟩⟩

theorem Segment.right (h : Segment lo hi (a ++ b)) (hb : ∀ e ∈ b, mid ≤ e.vmeStart) :
    Segment mid hi b :=
  ⟨(pairwise_append.mp h.ascending).2.1, fun x hx => h.nonempty x (mem_append_right a hx),
    fun x hx => h.aligned x (mem_append_right a hx),
    fun x hx => ⟨hb x hx, (h.inside x (mem_append_right a hx)).2⟩⟩

theorem Segment.single (hs : e.vmeStart = lo) (he : e.vmeEnd = hi) (hlt : lo < hi)
    (hlo : PageAligned lo) (hhi : PageAligned hi) : Segment lo hi [e] := by
  refine ⟨pairwise_singleton _ _, fun a ha => ?_, fun a ha => ?_, fun a ha => ?_⟩
  all_goals rw [mem_singleton.mp ha, hs, he]
  · exact hlt
  · exact ⟨hlo, hhi⟩
  · exact ⟨le_refl _, le_refl _⟩

theorem Segment.tail_le (h : Segment lo hi (e :: l)) (he : mid ≤ e.vmeStart) :
    ∀ x ∈ e :: l, mid ≤ x.vmeStart := by
  intro x hx
  rcases mem_cons.mp hx with rfl | hx
  · exact he
  · have := (pairwise_cons.mp h.ascending).1 x hx
    have := h.nonempty e mem_cons_self
    omega

theorem Segment.sizeSum_le (h : Segment lo hi l) (hle : lo ≤ hi) : lo + sizeSum l ≤ hi := by
  induction l generalizing lo with
  | nil => simpa [sizeSum] using hle
  | cons e l ih =>
    have he := h.inside e mem_cons_self
    have hlt := h.nonempty e mem_cons_self
    have hrest : Segment e.vmeEnd hi l := by
      have h' : Segment lo hi ([e] ++ l) := h
      exact h'.right (pairwise_cons.mp h.ascending).1
    have := ih hrest he.2
    rw [sizeSum_cons]
    omega

end

/-! ## Lookups in a well-formed map -/

theorem VmMap.WellFormed.hintEntry_some (h : m.WellFormed) {cur : VmMapEntry}
    (hc : m.hintEntry = some cur) : ∃ below above, m.entries = below ++ cur :: above ∧
      m.entries.takeWhile (fun e => e.id ≠ cur.id) = below := by
  have hmem : cur ∈ m.entries := by
    unfold hintEntry at hc
    split at hc
    · exact mem_of_head? hc
    · exact mem_of_find?_eq_some hc
  obtain ⟨below, above, heq⟩ := append_of_mem hmem
  refine ⟨below, above, heq, ?_⟩
  have hd := h.distinct
  rw [heq] at hd ⊢
  rw [takeWhile_append_of_pos (by simpa using hd.ne_of_split.1)]
  simp

theorem VmMap.WellFormed.hintEntry_none (h : m.WellFormed) (hc : m.hintEntry = none) :
    m.entries = [] := by
  unfold hintEntry at hc
  split at hc
  · exact head?_eq_none_iff.mp hc
  · next i hi =>
    obtain ⟨a, ha, hia⟩ := mem_map.mp (h.hint i hi)
    have := find?_eq_none.mp hc a ha
    simp [hia] at this

theorem VmMap.WellFormed.lookupEntry_scan (h : m.WellFormed) (address : ℕ) :
    m.lookupEntry address = ((scan address none m.entries).1,
      (scan address none m.entries).2,
      m.saveHint (if ∃ cur, m.hintEntry = some cur ∧ cur.vmeStart ≤ address ∧ address < cur.vmeEnd
        then m.hint else (scan address none m.entries).2)) := by
  unfold lookupEntry
  cases hc : m.hintEntry with
  | none =>
    rw [h.hintEntry_none hc, if_neg fun ⟨_, hcur, _⟩ => by cases hcur]
    rfl
  | some cur =>
    obtain ⟨below, above, heq, htake⟩ := h.hintEntry_some hc
    have hasc := h.ascending
    have hcur := h.nonempty cur (by rw [heq]; simp)
    have hwanted : (∃ e, some cur = some e ∧ e.vmeStart ≤ address ∧ address < e.vmeEnd) ↔
        cur.vmeStart ≤ address ∧ address < cur.vmeEnd :=
      ⟨fun ⟨_, he, hin⟩ => Option.some.inj he ▸ hin, fun hin => ⟨cur, rfl, hin⟩⟩
    simp only [htake, hwanted]
    split_ifs with hge hlt hboth hboth hboth
    · -- the hint is the entry that is wanted
      have hbelow : ∀ e ∈ below, e.vmeEnd ≤ address := fun e he => by
        rw [heq] at hasc
        have := hasc.le_of_mem he mem_cons_self
        omega
      rw [heq, scan_append_of_le hbelow, scan, if_pos hlt, if_pos hge]
      rfl
    · exact absurd ⟨hge, hlt⟩ hboth
    · exact absurd hboth.2 hlt
    · have hbelow : ∀ e ∈ below, e.vmeEnd ≤ address := fun e he => by
        rw [heq] at hasc
        have := hasc.le_of_mem he mem_cons_self
        omega
      have hscan : scan address (last VmMapEntry.id below)
          (m.entries.drop below.length) = scan address none m.entries := by
        rw [heq, drop_left, scan_append_of_le hbelow, Option.or_none]
      rw [hscan]
    · exact absurd hboth.1 hge
    · have hscan : scan address none (below ++ [cur]) =
          scan address none m.entries := by
        have hstop : scan address none (below ++ [cur] ++ above) =
            scan address none (below ++ [cur]) :=
          scan_append_of_lt ⟨cur, by simp, by omega⟩ none
        rw [heq, append_cons below cur above, hstop]
      rw [hscan]

theorem VmMap.WellFormed.lookupEntry_eq (h : m.WellFormed) (address : ℕ) :
    ∃ hint, m.lookupEntry address = ((scan address none m.entries).1,
      (scan address none m.entries).2, m.saveHint hint) ∧
      ∀ i, hint = some i → i ∈ m.entries.map VmMapEntry.id := by
  refine ⟨_, h.lookupEntry_scan address, fun i hi => ?_⟩
  split at hi
  · exact h.hint i hi
  · exact scan_none_mem hi

theorem VmMap.WellFormed.lookupEntry_spec (h : m.WellFormed) (address : ℕ) :
    ∃ found hint pre post, m.lookupEntry address = (found, last VmMapEntry.id pre, m.saveHint hint) ∧
      (∀ i, hint = some i → i ∈ m.entries.map VmMapEntry.id) ∧ m.entries = pre ++ post ∧
      (∀ e ∈ post, address < e.vmeStart) ∧ (found = false ∧ (∀ e ∈ pre, e.vmeEnd ≤ address) ∨
        found = true ∧ ∃ init e, pre = init ++ [e] ∧
          (∀ a ∈ init, a.vmeEnd ≤ address) ∧ e.vmeStart ≤ address ∧ address < e.vmeEnd) := by
  obtain ⟨hint, heq, hhint⟩ := h.lookupEntry_eq address
  obtain ⟨pre, post, hsplit, hplace, hpost, hcase⟩ :=
    scan_spec h.ascending h.nonempty none
  rw [Option.or_none] at hplace
  exact ⟨_, hint, pre, post, by rw [heq, hplace], hhint, hsplit, hpost, hcase⟩

theorem VmMap.Maps.lt (hwf : m.WellFormed) {x : ℕ} (h : m.Maps x) : x < modulus := by
  obtain ⟨e, he, -, hlt⟩ := h
  have := (hwf.inside e he).2
  have := hwf.bounds.2.1
  omega

theorem VmMap.WellFormed.eq_of_maps (h : m.WellFormed) {a b : VmMapEntry} {x : ℕ}
    (ha : a ∈ m.entries) (hb : b ∈ m.entries) (hxa : a.vmeStart ≤ x ∧ x < a.vmeEnd)
    (hxb : b.vmeStart ≤ x ∧ x < b.vmeEnd) : a = b := by
  have hasc := pairwise_iff_getElem.mp h.ascending
  obtain ⟨i, hi, rfl⟩ := getElem_of_mem ha
  obtain ⟨j, hj, rfl⟩ := getElem_of_mem hb
  rcases lt_trichotomy i j with hij | rfl | hij
  · have := hasc i j hi hj hij
    omega
  · rfl
  · have := hasc j i hj hi hij
    omega

theorem VmMap.WellFormed.lookupEntry_maps (hwf : m.WellFormed) {x : ℕ} (hx : m.Maps x) :
    ∃ hint, ∃ e ∈ m.entries, m.lookupEntry x = (true, some e.id, m.saveHint hint) ∧
      (∀ i, hint = some i → i ∈ m.entries.map VmMapEntry.id) ∧ e.vmeStart ≤ x ∧ x < e.vmeEnd := by
  obtain ⟨found, hint, pre, post, hlook, hhint, hsplit, hpost, hcase⟩ := hwf.lookupEntry_spec x
  rcases hcase with ⟨-, hpre⟩ | ⟨rfl, init, e, rfl, -, hle, hlt⟩
  · obtain ⟨a, ha, hax⟩ := hx
    rw [hsplit] at ha
    rcases mem_append.mp ha with ha | ha
    · have := hpre a ha
      omega
    · have := hpost a ha
      omega
  · refine ⟨hint, e, by rw [hsplit]; simp, ?_, hhint, hle, hlt⟩
    rw [hlook]
    simp [last]

theorem VmMap.WellFormed.lookupEntry_not (hwf : m.WellFormed) {x : ℕ} (hx : ¬ m.Maps x) :
    ∃ hint place, m.lookupEntry x = (false, place, m.saveHint hint) ∧
      ∀ i, hint = some i → i ∈ m.entries.map VmMapEntry.id := by
  obtain ⟨found, hint, pre, post, hlook, hhint, hsplit, hpost, hcase⟩ := hwf.lookupEntry_spec x
  rcases hcase with ⟨rfl, -⟩ | ⟨rfl, init, e, rfl, -, hle, hlt⟩
  · exact ⟨hint, _, hlook, hhint⟩
  · exact absurd ⟨e, by rw [hsplit]; simp, hle, hlt⟩ hx

theorem VmMap.WellFormed.saveHint (h : m.WellFormed) {hint : Option ℕ}
    (hh : ∀ i, hint = some i → i ∈ m.entries.map VmMapEntry.id) : (m.saveHint hint).WellFormed :=
  { h with hint := hh }

theorem VmMap.WellFormed.lock (h : m.WellFormed) : m.lock.WellFormed := { h with }

theorem VmMap.create_wellFormed {min max : ℕ} (hle : min ≤ max) (hmax : max < modulus)
    (hmin : PageAligned min) : (create min max).WellFormed := by
  refine ⟨.nil, ?_, ?_, ?_, rfl, rfl, ⟨hle, hmax, hmin⟩, .nil, ?_, ?_, ?_⟩
  all_goals simp [create]

omit [PageSize] in
theorem VmMap.lookupEntry_map (m : VmMap) (address : ℕ) :
    ∃ hint, (m.lookupEntry address).2.2 = m.saveHint hint := by
  unfold lookupEntry
  split
  · exact ⟨none, rfl⟩
  · dsimp only
    split
    · split
      · exact ⟨m.hint, rfl⟩
      · exact ⟨_, rfl⟩
    · exact ⟨_, rfl⟩

end MachKernel.Vm
