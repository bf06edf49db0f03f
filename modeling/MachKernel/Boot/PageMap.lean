import MachKernel.Vm.Page
import Mathlib.Data.Finset.Card

/-! Block maps of the default pager (`boot_ufs/default_pager.c`): the bitmap of a paging partition,
and the one- or two-level map from the pages of an object to blocks of the partition. -/

namespace MachKernel.Boot
open Function List Option
open Word32

/-- How the default pager stops: it panics, it reads past a map, or a loop does not end. -/
inductive Stop
  | panic (message : String)
  | wild
  | spins
  deriving DecidableEq

/-! ## Partitions -/

/-- `struct part`, less its routines; the bitmap is a list of bytes. -/
structure Part where
  totalSize : ℕ
  free : ℕ
  bitmap : List ℕ
  deriving DecidableEq

def howmany (a b : ℕ) : ℕ := (a + b - 1) / b

/-- `part_create`, for a size in pages. -/
def partCreate (size : ℕ) : Part := ⟨size, size, List.replicate (howmany size 8) 0⟩

/-- A block is taken: its bit of its byte. -/
def Part.take (part : Part) (byte bit : ℕ) : Part :=
  { part with
    bitmap := part.bitmap.set byte (part.bitmap.getD byte 0 ||| 1 <<< bit)
    free := part.free - 1 }

/-- `pager_alloc_page`; without a block there is none of its number. -/
def pagerAllocPage (part : Part) : Except Stop (Option ℕ × Part) :=
  if part.free = 0 then .ok (none, part)
  else
    match part.bitmap.findIdx? fun b => b ≠ 0xff with
    | none => .error (.panic "pager_alloc_page")
    | some byte =>
      match (List.range 8).find? fun bit => part.bitmap.getD byte 0 &&& 1 <<< bit = 0 with
      | none => .error (.panic "pager_alloc_page")
      | some bit => .ok (some (byte * 8 + bit), part.take byte bit)

namespace Part

/-- The bit of a block. -/
def used (part : Part) (block : ℕ) : Bool := (part.bitmap.getD (block / 8) 0).testBit (block % 8)

/-- The bitmap marks just these blocks. -/
structure Marks (part : Part) (taken : Finset ℕ) : Prop where
  length : part.bitmap.length = howmany part.totalSize 8
  byte : ∀ b ∈ part.bitmap, b < 2 ^ 8
  used : ∀ i, part.used i = true ↔ i ∈ taken
  lt : ∀ i ∈ taken, i < part.totalSize
  free : taken.card + part.free = part.totalSize

theorem marks_create (size : ℕ) : (partCreate size).Marks ∅ where
  length := by simp [partCreate]
  byte b hb := by
    rw [(mem_replicate.1 hb).2]
    norm_num
  used i := by
    simp [Part.used, partCreate]
  lt i hi := absurd hi (Finset.notMem_empty i)
  free := by simp [partCreate]

variable {part : Part} {taken : Finset ℕ}

theorem byte_eq_mask {b : ℕ} (hb : b < 2 ^ 8) : b = 0xff ↔ ∀ bit < 8, b.testBit bit = true := by
  constructor
  · rintro rfl
    decide
  · intro h
    refine Nat.eq_of_testBit_eq fun i => ?_
    by_cases hi : i < 8
    · rw [h i hi]
      interval_cases i <;> rfl
    · have hpow : 2 ^ 8 ≤ 2 ^ i := Nat.pow_le_pow_right (by norm_num) (not_lt.1 hi)
      rw [Nat.testBit_lt_two_pow (hb.trans_le hpow),
        Nat.testBit_lt_two_pow (lt_of_lt_of_le (by norm_num) hpow)]

theorem Marks.exists_clear (h : part.Marks taken) (hf : part.free ≠ 0) :
    ∃ i < part.totalSize, part.used i = false := by
  by_contra hall
  simp only [not_exists, not_and, Bool.not_eq_false] at hall
  have hsub : Finset.range part.totalSize ⊆ taken := fun i hi =>
    (h.used i).1 (hall i (Finset.mem_range.1 hi))
  have := Finset.card_le_card hsub
  have := h.free
  rw [Finset.card_range] at *
  omega

theorem used_getElem {byte bit : ℕ} (hbyte : byte < part.bitmap.length)
    (hbit : bit < 8) : part.used (byte * 8 + bit) = part.bitmap[byte].testBit bit := by
  have h1 : (byte * 8 + bit) / 8 = byte := by omega
  have h2 : (byte * 8 + bit) % 8 = bit := by omega
  rw [Part.used, h1, h2, getD_eq_getElem _ _ hbyte]

theorem Marks.search (h : part.Marks taken) (hf : part.free ≠ 0) :
    ∃ byte bit, part.bitmap.findIdx? (fun b => b ≠ 0xff) = some byte ∧
      ((List.range 8).find? fun bit => part.bitmap.getD byte 0 &&& 1 <<< bit = 0) = some bit ∧
      byte < part.bitmap.length ∧ bit < 8 ∧ byte * 8 + bit < part.totalSize ∧
      byte * 8 + bit ∉ taken := by
  obtain ⟨i, hi, hclear⟩ := h.exists_clear hf
  have hlen := h.length
  have hi8 : i / 8 < part.bitmap.length := by
    rw [hlen, howmany]
    omega
  have hbit8 : i % 8 < 8 := Nat.mod_lt _ (by norm_num)
  have hi_eq : i / 8 * 8 + i % 8 = i := by omega
  rw [← hi_eq, used_getElem hi8 hbit8] at hclear
  cases hbyte : part.bitmap.findIdx? fun b => b ≠ 0xff with
  | none =>
    have hfull : part.bitmap[i / 8] = 0xff := by
      simpa using findIdx?_eq_none_iff.1 hbyte _ (getElem_mem hi8)
    rw [(byte_eq_mask (h.byte _ (getElem_mem hi8))).1 hfull _ hbit8] at hclear
    exact Bool.noConfusion hclear
  | some byte =>
    obtain ⟨hlt, hne, hmin⟩ := findIdx?_eq_some_iff_getElem.1 hbyte
    have hle : byte ≤ i / 8 := by
      by_contra hgt
      have hfull : part.bitmap[i / 8] = 0xff := by simpa using hmin (i / 8) (by omega)
      rw [(byte_eq_mask (h.byte _ (getElem_mem hi8))).1 hfull _ hbit8] at hclear
      exact Bool.noConfusion hclear
    have hget : part.bitmap.getD byte 0 = part.bitmap[byte] := getD_eq_getElem _ _ hlt
    have hzero (k : ℕ) :
        part.bitmap[byte] &&& 1 <<< k = 0 ↔ part.bitmap[byte].testBit k = false := by
      rw [← not_iff_not, ← ne_eq, and_shift_ne_zero, Bool.not_eq_false]
    cases hbit : (List.range 8).find? fun bit => part.bitmap.getD byte 0 &&& 1 <<< bit = 0 with
    | none =>
      rw [hget] at hbit
      have hall : ∀ k < 8, part.bitmap[byte].testBit k = true := fun k hk => by
        have := find?_range_eq_none.1 hbit k hk
        simpa [hzero] using this
      have := (byte_eq_mask (h.byte _ (getElem_mem hlt))).2 hall
      simp [this] at hne
    | some bit =>
      obtain ⟨hb, hmem, hfirst⟩ := find?_range_eq_some.1 hbit
      rw [hget] at hb hfirst
      have hbit' : bit < 8 := mem_range.1 hmem
      have hclear' : part.used (byte * 8 + bit) = false := by
        rw [used_getElem hlt hbit']
        simpa [hzero] using hb
      refine ⟨byte, bit, rfl, hbit, hlt, hbit', ?_, fun ht => ?_⟩
      · -- the clear bit of a block that was known is not before the one found
        refine lt_of_le_of_lt ?_ hi
        rcases hle.lt_or_eq with hlt' | rfl
        · omega
        · have : bit ≤ i % 8 := by
            by_contra hgt
            have := hfirst (i % 8) (by omega)
            simp [hzero, hclear] at this
          omega
      · rw [(h.used _).2 ht] at hclear'
        exact Bool.noConfusion hclear'

theorem used_take {byte bit : ℕ} (hbyte : byte < part.bitmap.length) (hbit : bit < 8) (i : ℕ) :
    (part.take byte bit).used i = (part.used i || decide (i = byte * 8 + bit)) := by
  unfold Part.used Part.take
  dsimp only
  rw [getD_eq_getElem?_getD, getElem?_set, getD_eq_getElem?_getD]
  by_cases hi : byte = i / 8
  · subst hi
    have hcond : (i = i / 8 * 8 + bit) ↔ bit = i % 8 := by omega
    simp [hbyte, Nat.testBit_or, Nat.one_shiftLeft, Nat.testBit_two_pow, hcond]
  · have : i ≠ byte * 8 + bit := by omega
    simp [hi, this]

theorem Marks.take (h : part.Marks taken) (hf : part.free ≠ 0) {byte bit : ℕ}
    (hbyte : byte < part.bitmap.length) (hbit : bit < 8) (hlt : byte * 8 + bit < part.totalSize)
    (hfree : byte * 8 + bit ∉ taken) :
    (part.take byte bit).Marks (insert (byte * 8 + bit) taken) where
  length := by simpa [Part.take] using h.length
  byte b hb := by
    rcases mem_or_eq_of_mem_set hb with hb | rfl
    · exact h.byte b hb
    · refine Nat.or_lt_two_pow ?_ ?_
      · rw [getD_eq_getElem _ _ hbyte]
        exact h.byte _ (getElem_mem hbyte)
      · rw [Nat.one_shiftLeft]
        exact Nat.pow_lt_pow_right (by norm_num) hbit
  used i := by
    rw [used_take hbyte hbit, Bool.or_eq_true, decide_eq_true_eq, h.used, Finset.mem_insert,
      or_comm]
  lt i hi := by
    rcases Finset.mem_insert.1 hi with rfl | hi
    · exact hlt
    · exact h.lt i hi
  free := by
    have := h.free
    rw [Finset.card_insert_of_notMem hfree]
    simp only [Part.take]
    omega

/-- `pager_alloc_page` takes a block that nobody has while the partition has room. -/
theorem Marks.alloc (h : part.Marks taken) (hf : part.free ≠ 0) :
    ∃ block part', pagerAllocPage part = .ok (some block, part') ∧ block ∉ taken ∧
      part'.Marks (insert block taken) ∧ part'.totalSize = part.totalSize ∧
      part'.free + 1 = part.free := by
  obtain ⟨byte, bit, hbyte, hbit, hlt, hbit8, hsize, hfree⟩ := h.search hf
  refine ⟨byte * 8 + bit, part.take byte bit, ?_, hfree, h.take hf hlt hbit8 hsize hfree, rfl,
    Nat.sub_add_cancel (Nat.pos_of_ne_zero hf)⟩
  rw [pagerAllocPage, if_neg hf, hbyte]
  simp only [hbit]

end Part

/-! ## Block maps -/

/-- The number of pages in a second-level map. -/
def pagemapEntries : ℕ := 128

def indirectPagemapEntries (npgs : ℕ) : ℕ := (npgs - 1) / pagemapEntries + 1

def IndirectPagemap (size : ℕ) : Prop := pagemapEntries < size

instance (size : ℕ) : Decidable (IndirectPagemap size) := inferInstanceAs (Decidable (_ < _))

/-- What the map of a pager points to. -/
inductive PageMap
  | direct (blocks : List (Option ℕ))
  | indirect (tables : List (Option (List (Option ℕ))))
  deriving DecidableEq

/-- `struct dpager`, less its lock and its partition. -/
structure Dpager where
  map : PageMap
  size : ℕ
  deriving DecidableEq

/-- `while (i < size) i <<= 1;`, which ends before so many turns. -/
def doubleUntil (size : ℕ) : ℕ → ℕ → ℕ
  | 0, i => i
  | turns + 1, i => if i < size then doubleUntil size turns (i <<< 1) else i

/-- `pager_alloc`, for a size in pages. -/
def pagerAlloc (size : ℕ) : Dpager :=
  let size := doubleUntil size size 1
  if IndirectPagemap size then ⟨.indirect (.replicate (indirectPagemapEntries size) none), size⟩
  else ⟨.direct (.replicate size none), size⟩

def pagerExtend (pager : Dpager) (newSize : ℕ) : Except Stop Dpager :=
  let oldSize := pager.size
  let newSize := doubleUntil newSize newSize oldSize
  match pager.map with
  | .indirect tables =>
    if IndirectPagemap oldSize then
      let old := indirectPagemapEntries oldSize
      let new := indirectPagemapEntries newSize
      .ok ⟨.indirect (tables.take old ++ .replicate (new - old) none), newSize⟩
    else .error .wild
  | .direct blocks =>
    if IndirectPagemap oldSize then .error .wild
    else if IndirectPagemap newSize then
      let table := blocks.take oldSize ++ .replicate (pagemapEntries - oldSize) none
      .ok ⟨.indirect (some table :: .replicate (indirectPagemapEntries newSize - 1) none), newSize⟩
    else .ok ⟨.direct (blocks.take oldSize ++ .replicate (newSize - oldSize) none), newSize⟩

/-- `pager_read_offset`, for the page of the offset. -/
def pagerReadOffset (pager : Dpager) (fPage : ℕ) : Except Stop (Option ℕ) :=
  if pager.size ≤ fPage then .error (.panic "pager_read_offset")
  else
    match pager.map with
    | .indirect tables =>
      if IndirectPagemap pager.size then
        match tables[fPage / pagemapEntries]? with
        | none => .error .wild
        | some none => .ok none
        | some (some table) => (table[fPage % pagemapEntries]?).elim (.error .wild) .ok
      else .error .wild
    | .direct blocks =>
      if IndirectPagemap pager.size then .error .wild
      else (blocks[fPage]?).elim (.error .wild) .ok

/-- The block of a page, allocated if there is none. -/
def blockOrAlloc (block : Option ℕ) (part : Part) : Except Stop (ℕ × Part) :=
  match block with
  | some block => .ok (block, part)
  | none =>
    match pagerAllocPage part with
    | .error stop => .error stop
    | .ok (none, _) => .error (.panic "*** PAGING SPACE EXHAUSTED ***")
    | .ok (some block, part) => .ok (block, part)

/-- The same for an entry of a direct map, where the block is put down. -/
def assignBlock (map : List (Option ℕ)) (fPage : ℕ) (part : Part) :
    Except Stop (ℕ × List (Option ℕ) × Part) :=
  match map[fPage]? with
  | none => .error .wild
  | some block => (blockOrAlloc block part).map fun (block, part) =>
    (block, map.set fPage (some block), part)

/-- `pager_write_offset` when the page is in the map. -/
def pagerWriteWithin (pager : Dpager) (fPage : ℕ) (part : Part) : Except Stop (ℕ × Dpager × Part) :=
  match pager.map with
  | .indirect tables =>
    if IndirectPagemap pager.size then
      match tables[fPage / pagemapEntries]? with
      | none => .error .wild
      | some table =>
        let table := table.getD (.replicate pagemapEntries none)
        (assignBlock table (fPage % pagemapEntries) part).map fun (block, table, part) =>
          (block, { pager with map := .indirect (tables.set (fPage / pagemapEntries) table) }, part)
    else .error .wild
  | .direct blocks =>
    if IndirectPagemap pager.size then .error .wild
    else (assignBlock blocks fPage part).map fun (block, blocks, part) =>
      (block, { pager with map := .direct blocks }, part)

/-- `pager_write_offset`, for the page of the offset. One extension covers the page. -/
def pagerWriteOffset (pager : Dpager) (fPage : ℕ) (part : Part) : Except Stop (ℕ × Dpager × Part) :=
  if pager.size ≤ fPage then
    (pagerExtend pager (fPage + 1)).bind fun pager => pagerWriteWithin pager fPage part
  else pagerWriteWithin pager fPage part

theorem Part.Marks.blockOrAlloc {part : Part} {taken : Finset ℕ} (h : part.Marks taken)
    (block : Option ℕ) (hin : ∀ b, block = some b → b ∈ taken)
    (hroom : block = none → part.free ≠ 0) :
    ∃ b part' taken', blockOrAlloc block part = .ok (b, part') ∧ part'.Marks taken' ∧
      part'.totalSize = part.totalSize ∧ taken ⊆ taken' ∧ b ∈ taken' ∧
      (block = some b ∨ block = none ∧ b ∉ taken) ∧
      part.free ≤ part'.free + if block = none then 1 else 0 := by
  cases block with
  | some b =>
    exact ⟨b, part, taken, rfl, h, rfl, subset_rfl, hin b rfl, .inl rfl, Nat.le_add_right _ _⟩
  | none =>
    obtain ⟨b, part', halloc, hfree, hmarks, htotal, hcount⟩ := h.alloc (hroom rfl)
    refine ⟨b, part', insert b taken, ?_, hmarks, htotal, Finset.subset_insert b taken,
      Finset.mem_insert_self b taken, .inr ⟨rfl, hfree⟩, hcount.ge⟩
    simp only [Boot.blockOrAlloc, halloc]

namespace Dpager

/-- The block of a page. -/
def block (pager : Dpager) (fPage : ℕ) : Option ℕ :=
  match pager.map with
  | .direct blocks => blocks[fPage]?.join
  | .indirect tables =>
    (tables[fPage / pagemapEntries]?.join.bind fun table => table[fPage % pagemapEntries]?).join

/-- The map has the form and the length that its size asks for. -/
def Fits (pager : Dpager) : Prop :=
  0 < pager.size ∧
  match pager.map with
  | .direct blocks => ¬ IndirectPagemap pager.size ∧ blocks.length = pager.size
  | .indirect tables =>
    IndirectPagemap pager.size ∧ tables.length = indirectPagemapEntries pager.size ∧
      ∀ table, some table ∈ tables → table.length = pagemapEntries

end Dpager

theorem le_doubleUntil (size turns i : ℕ) : i ≤ doubleUntil size turns i := by
  induction turns generalizing i with
  | zero => exact le_rfl
  | succ turns ih =>
    rw [doubleUntil]
    split_ifs
    · exact le_trans (by rw [Nat.shiftLeft_eq]; omega) (ih _)
    · exact le_rfl

theorem size_le_doubleUntil {size turns i : ℕ} (hi : 0 < i) (ht : size ≤ i + turns) :
    size ≤ doubleUntil size turns i := by
  induction turns generalizing i with
  | zero => exact ht
  | succ turns ih =>
    rw [doubleUntil]
    split_ifs with h
    · refine ih ?_ ?_ <;> rw [Nat.shiftLeft_eq] <;> omega
    · exact not_lt.1 h

theorem indirectPagemapEntries_mono {a b : ℕ} (h : a ≤ b) :
    indirectPagemapEntries a ≤ indirectPagemapEntries b := by
  unfold indirectPagemapEntries
  exact Nat.succ_le_succ (Nat.div_le_div_right (by omega))

theorem div_lt_indirectPagemapEntries {fPage size : ℕ} (h : fPage < size) :
    fPage / pagemapEntries < indirectPagemapEntries size := by
  unfold indirectPagemapEntries
  exact Nat.lt_succ_of_le (Nat.div_le_div_right (by omega))

theorem join_getElem?_append_replicate {β : Type} (l : List (Option β)) (n i : ℕ) :
    (l ++ List.replicate n none)[i]?.join = l[i]?.join := by
  rcases lt_or_ge i l.length with h | h
  · rw [getElem?_append_left h]
  · rw [getElem?_append_right h, getElem?_eq_none h, getElem?_replicate]
    split_ifs <;> rfl

namespace Dpager
variable {pager : Dpager} {fPage : ℕ} {part : Part}

theorem fits_pagerAlloc (size : ℕ) : (pagerAlloc size).Fits := by
  have hpos : 0 < doubleUntil size size 1 := le_doubleUntil size size 1
  unfold pagerAlloc
  dsimp only
  split_ifs with h
  · refine ⟨hpos, h, by simp, fun table ht => ?_⟩
    exact absurd (eq_of_mem_replicate ht) (by simp)
  · exact ⟨hpos, h, by simp⟩

theorem block_pagerAlloc (size fPage : ℕ) : (pagerAlloc size).block fPage = none := by
  unfold pagerAlloc
  dsimp only
  split_ifs with h
  · simp only [block, getElem?_replicate]
    split_ifs <;> rfl
  · simp only [block, getElem?_replicate]
    split_ifs <;> rfl

theorem Fits.extend (h : pager.Fits) (newSize : ℕ) :
    ∃ pager', pagerExtend pager newSize = .ok pager' ∧ pager'.Fits ∧ pager'.block = pager.block ∧
      newSize ≤ pager'.size ∧ pager.size ≤ pager'.size := by
  obtain ⟨map, size⟩ := pager
  obtain ⟨hpos, hmap⟩ := h
  have hle := le_doubleUntil newSize newSize size
  have hnew : newSize ≤ doubleUntil newSize newSize size := size_le_doubleUntil hpos (by omega)
  cases map with
  | indirect tables =>
    obtain ⟨hind, hlen, htables⟩ := hmap
    dsimp only at hpos hind hlen
    have htake : tables.take (indirectPagemapEntries size) = tables := by
      rw [← hlen, take_length]
    simp only [pagerExtend, if_pos hind, htake]
    refine ⟨_, rfl, ⟨hpos.trans_le hle, hind.trans_le hle, ?_, fun table ht => ?_⟩, ?_, hnew, hle⟩
    · have := indirectPagemapEntries_mono hle
      dsimp only
      rw [length_append, length_replicate, hlen]
      omega
    · rcases mem_append.1 ht with ht | ht
      · exact htables table ht
      · exact absurd (eq_of_mem_replicate ht) (by simp)
    · funext i
      simp only [block, join_getElem?_append_replicate]
  | direct blocks =>
    obtain ⟨hdir, hlen⟩ := hmap
    dsimp only at hpos hdir hlen
    have htake : blocks.take size = blocks := by rw [← hlen, take_length]
    simp only [pagerExtend, if_neg hdir, htake]
    split_ifs with hind
    · have hsize : size ≤ pagemapEntries := not_lt.1 hdir
      refine ⟨_, rfl, ⟨hpos.trans_le hle, hind, ?_, fun table ht => ?_⟩, ?_, hnew, hle⟩
      · simp [indirectPagemapEntries]
      · rcases mem_cons.1 ht with ht | ht
        · rw [some.inj ht, length_append, length_replicate, hlen]
          omega
        · exact absurd (eq_of_mem_replicate ht) (by simp)
      · -- the old map is the first second-level map
        funext i
        simp only [block]
        rcases lt_or_ge i pagemapEntries with hi | hi
        · rw [Nat.div_eq_of_lt hi, Nat.mod_eq_of_lt hi]
          exact join_getElem?_append_replicate blocks _ i
        · have hdiv : 0 < i / pagemapEntries := Nat.div_pos hi (by norm_num [pagemapEntries])
          obtain ⟨k, hk⟩ := Nat.exists_eq_succ_of_ne_zero hdiv.ne'
          rw [hk, getElem?_cons_succ, getElem?_replicate, getElem?_eq_none (by omega)]
          split_ifs <;> rfl
    · refine ⟨_, rfl, ⟨hpos.trans_le hle, hind, ?_⟩, ?_, hnew, hle⟩
      · dsimp only
        rw [length_append, length_replicate, hlen]
        omega
      · funext i
        simp only [block, join_getElem?_append_replicate]

theorem Fits.read (h : pager.Fits) (hf : fPage < pager.size) :
    pagerReadOffset pager fPage = .ok (pager.block fPage) := by
  obtain ⟨map, size⟩ := pager
  obtain ⟨hpos, hmap⟩ := h
  rw [pagerReadOffset, if_neg (not_le.2 hf)]
  cases map with
  | indirect tables =>
    obtain ⟨hind, hlen, htables⟩ := hmap
    dsimp only at hpos hind hlen
    have hlt : fPage / pagemapEntries < tables.length := hlen ▸ div_lt_indirectPagemapEntries hf
    simp only [if_pos hind, block]
    rw [getElem?_eq_getElem hlt]
    cases ht : tables[fPage / pagemapEntries] with
    | none => rfl
    | some table =>
      have := htables table (ht ▸ getElem_mem hlt)
      have hmod : fPage % pagemapEntries < table.length := by
        rw [this]
        exact Nat.mod_lt _ (by norm_num [pagemapEntries])
      simp [getElem?_eq_getElem hmod]
  | direct blocks =>
    obtain ⟨hdir, hlen⟩ := hmap
    dsimp only at hpos hdir hlen
    have hlt : fPage < blocks.length := hlen ▸ hf
    simp [if_neg hdir, block, getElem?_eq_getElem hlt]

theorem assignBlock_eq {map : List (Option ℕ)} {part' : Part} {b : ℕ} (hf : fPage < map.length)
    (hb : blockOrAlloc map[fPage]?.join part = .ok (b, part')) :
    assignBlock map fPage part = .ok (b, map.set fPage (some b), part') := by
  rw [getElem?_eq_getElem hf, join_some] at hb
  rw [assignBlock, getElem?_eq_getElem hf]
  simp only [hb, Except.map]

theorem getElem?_set_join (l : List (Option ℕ)) {i : ℕ} (hi : i < l.length) (b j : ℕ) :
    (l.set i (some b))[j]?.join = update (fun j => l[j]?.join) i (some b) j := by
  rw [getElem?_set]
  rcases eq_or_ne j i with rfl | hne
  · simp [hi]
  · simp [hne, hne.symm]

/-- `pager_write_offset` of a page in the map gives it its block, or one from the partition. -/
theorem Fits.writeWithin (h : pager.Fits) (hf : fPage < pager.size) {part' : Part} {b : ℕ}
    (hb : blockOrAlloc (pager.block fPage) part = .ok (b, part')) :
    ∃ pager', pagerWriteWithin pager fPage part = .ok (b, pager', part') ∧ pager'.Fits ∧
      pager'.block = update pager.block fPage (some b) ∧ pager'.size = pager.size := by
  obtain ⟨map, size⟩ := pager
  obtain ⟨hpos, hmap⟩ := h
  cases map with
  | direct blocks =>
    obtain ⟨hdir, hlen⟩ := hmap
    dsimp only at hf hpos hdir hlen
    have hlt : fPage < blocks.length := hlen ▸ hf
    have hassign := assignBlock_eq hlt hb
    refine ⟨⟨.direct (blocks.set fPage (some b)), size⟩, ?_, ⟨hpos, hdir, by simpa using hlen⟩, ?_,
      rfl⟩
    · simp [pagerWriteWithin, if_neg hdir, hassign, Except.map]
    · funext j
      exact getElem?_set_join blocks hlt b j
  | indirect tables =>
    obtain ⟨hind, hlen, htables⟩ := hmap
    dsimp only at hf hpos hind hlen
    have hlt : fPage / pagemapEntries < tables.length := hlen ▸ div_lt_indirectPagemapEntries hf
    obtain ⟨table, htable⟩ : ∃ table,
        table = (tables[fPage / pagemapEntries]).getD (.replicate pagemapEntries none) := ⟨_, rfl⟩
    have htlen : table.length = pagemapEntries := by
      cases ht : tables[fPage / pagemapEntries] with
      | none => simp [htable, ht]
      | some t => simpa [htable, ht] using htables t (ht ▸ getElem_mem hlt)
    have hmod : fPage % pagemapEntries < table.length := by
      rw [htlen]
      exact Nat.mod_lt _ (by norm_num [pagemapEntries])
    -- a second-level map that is allocated on the way says nothing new of its pages
    have hread (j : ℕ) (hj : j / pagemapEntries = fPage / pagemapEntries) :
        block ⟨.indirect tables, size⟩ j = table[j % pagemapEntries]?.join := by
      simp only [block, hj, getElem?_eq_getElem hlt]
      cases ht : tables[fPage / pagemapEntries] with
      | none =>
        simp only [htable, ht, getD_none, getElem?_replicate]
        split_ifs <;> rfl
      | some t => simp [htable, ht]
    rw [hread fPage rfl] at hb
    have hassign := assignBlock_eq hmod hb
    refine ⟨⟨.indirect (tables.set (fPage / pagemapEntries)
      (some (table.set (fPage % pagemapEntries) (some b)))), size⟩, ?_, ⟨hpos, hind, ?_, ?_⟩, ?_,
      rfl⟩
    · simp [pagerWriteWithin, if_pos hind, getElem?_eq_getElem hlt, ← htable, hassign, Except.map]
    · simpa using hlen
    · intro t ht
      rcases mem_or_eq_of_mem_set ht with ht | ht
      · exact htables t ht
      · rw [some.inj ht, length_set, htlen]
    · funext j
      by_cases hj : j / pagemapEntries = fPage / pagemapEntries
      · have hset : block ⟨.indirect (tables.set (fPage / pagemapEntries)
            (some (table.set (fPage % pagemapEntries) (some b)))), size⟩ j =
            (table.set (fPage % pagemapEntries) (some b))[j % pagemapEntries]?.join := by
          simp [block, hj, hlt]
        have hiff : j = fPage ↔ j % pagemapEntries = fPage % pagemapEntries := by
          refine ⟨fun e => e ▸ rfl, fun e => ?_⟩
          rw [← Nat.div_add_mod j pagemapEntries, hj, e, Nat.div_add_mod]
        rw [hset, getElem?_set_join _ hmod]
        by_cases he : j = fPage
        · rw [he, update_self, update_self]
        · rw [update_of_ne (fun e => he (hiff.2 e)), update_of_ne he, hread j hj]
      · have hne : j ≠ fPage := fun e => hj (e ▸ rfl)
        rw [update_of_ne hne]
        simp only [block]
        rw [getElem?_set_ne (fun e => hj e.symm)]

/-- `pager_write_offset`, of any page. -/
theorem Fits.write (h : pager.Fits) {part' : Part} {b : ℕ}
    (hb : blockOrAlloc (pager.block fPage) part = .ok (b, part')) :
    ∃ pager', pagerWriteOffset pager fPage part = .ok (b, pager', part') ∧ pager'.Fits ∧
      pager'.block = update pager.block fPage (some b) ∧ pager.size ≤ pager'.size := by
  unfold pagerWriteOffset
  split_ifs with hle
  · obtain ⟨grown, hgrown, hfits, hblock, hsize, hmore⟩ := h.extend (fPage + 1)
    rw [hgrown, ← hblock]
    obtain ⟨pager', hw, hfits', hblock', hsize'⟩ := hfits.writeWithin hsize (hblock ▸ hb)
    exact ⟨pager', hw, hfits', hblock', hsize'.symm ▸ hmore⟩
  · obtain ⟨pager', hw, hfits', hblock', hsize'⟩ := h.writeWithin (not_le.1 hle) hb
    exact ⟨pager', hw, hfits', hblock', hsize'.ge⟩

end Dpager

end MachKernel.Boot
