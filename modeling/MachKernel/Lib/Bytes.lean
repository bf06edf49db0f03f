import Mathlib.Tactic

/-! Memory as a function from addresses to bytes, and the copying of runs of it. -/

namespace MachKernel.Bytes
open List

abbrev Byte := BitVec 8
abbrev Mem := ℕ → Byte

/-- The `n` bytes at `off`. -/
def read (m : Mem) (off n : ℕ) : List Byte := (List.range n).map fun i => m (off + i)

/-- `n` bytes of `src` from `s` on are copied to `d`. -/
def copy (src : Mem) (s : ℕ) (dst : Mem) (d n : ℕ) : Mem :=
  fun i => if d ≤ i ∧ i < d + n then src (s + (i - d)) else dst i

/-- The big-endian half-word at `off`. -/
def get16 (m : Mem) (off : ℕ) : BitVec 16 := m off ++ m (off + 1)

def put16 (m : Mem) (off : ℕ) (w : BitVec 16) : Mem :=
  fun i => if i = off then w.extractLsb' 8 8 else if i = off + 1 then w.extractLsb' 0 8 else m i

/-- The big-endian word at `off`. -/
def get32 (m : Mem) (off : ℕ) : BitVec 32 := get16 m off ++ get16 m (off + 2)

def put32 (m : Mem) (off : ℕ) (w : BitVec 32) : Mem :=
  put16 (put16 m off (w.extractLsb' 16 16)) (off + 2) (w.extractLsb' 0 16)

@[simp] theorem length_read (m : Mem) (off n : ℕ) : (read m off n).length = n := by simp [read]

theorem read_eq_read_iff {m m' : Mem} {off off' n : ℕ} :
    read m off n = read m' off' n ↔ ∀ i < n, m (off + i) = m' (off' + i) := by
  simp only [read, map_inj_left, mem_range]

theorem read_succ (m : Mem) (off n : ℕ) : read m off (n + 1) = m off :: read m (off + 1) n := by
  simp only [read, range_succ_eq_map, map_cons, map_map, Nat.add_zero]
  refine congrArg _ (map_congr_left fun i _ => ?_)
  simp only [Function.comp_apply, Nat.succ_eq_add_one, Nat.add_assoc, Nat.add_comm 1]

theorem take_read (m : Mem) (off : ℕ) {k n : ℕ} (h : k ≤ n) :
    (read m off n).take k = read m off k := by
  rw [read, ← map_take, take_range, Nat.min_eq_left h, read]

theorem getElem?_read (m : Mem) (off : ℕ) {i n : ℕ} (h : i < n) :
    (read m off n)[i]? = some (m (off + i)) := by
  simp [read, h]

theorem copy_outside {src dst : Mem} {s d n i : ℕ} (h : i < d ∨ d + n ≤ i) :
    copy src s dst d n i = dst i := if_neg (by omega)

theorem copy_inside (src dst : Mem) (s d : ℕ) {n i : ℕ} (h : i < n) :
    copy src s dst d n (d + i) = src (s + i) := by
  rw [copy, if_pos (by omega), Nat.add_sub_cancel_left]

theorem read_copy (src dst : Mem) (s d n : ℕ) : read (copy src s dst d n) d n = read src s n :=
  read_eq_read_iff.2 fun _ hi => copy_inside src dst s d hi

theorem read_copy_outside (src dst : Mem) {s d n off k : ℕ} (h : off + k ≤ d ∨ d + n ≤ off) :
    read (copy src s dst d n) off k = read dst off k :=
  read_eq_read_iff.2 fun _ _ => copy_outside (by omega)

theorem read_copy_copy (src dst : Mem) (s d k n : ℕ) :
    read (copy src (s + k) (copy src s dst d k) (d + k) n) d (k + n) = read src s (k + n) := by
  refine read_eq_read_iff.2 fun i hi => ?_
  rcases lt_or_ge i k with h | h
  · rw [copy_outside (by omega), copy_inside src dst s d h]
  · obtain ⟨j, rfl⟩ := Nat.exists_eq_add_of_le h
    rw [← Nat.add_assoc, copy_inside _ _ _ _ (by omega), Nat.add_assoc]

theorem put16_outside {m : Mem} {off i : ℕ} {w : BitVec 16} (h : i < off ∨ off + 2 ≤ i) :
    put16 m off w i = m i := by
  rw [put16, if_neg (by omega), if_neg (by omega)]

theorem read_put16 (m : Mem) (off n : ℕ) (w : BitVec 16) : read (put16 m off w) off (n + 2) =
      w.extractLsb' 8 8 :: w.extractLsb' 0 8 :: read m (off + 2) n := by
  have hhigh : put16 m off w off = w.extractLsb' 8 8 := if_pos rfl
  have hlow : put16 m off w (off + 1) = w.extractLsb' 0 8 := by
    rw [put16, if_neg (by omega), if_pos rfl]
  have hrest : read (put16 m off w) (off + 1 + 1) n = read m (off + 2) n :=
    read_eq_read_iff.2 fun _ _ => put16_outside (by omega)
  rw [read_succ, read_succ, hhigh, hlow, hrest]

theorem put32_outside {m : Mem} {off i : ℕ} {w : BitVec 32} (h : i < off ∨ off + 4 ≤ i) :
    put32 m off w i = m i := by
  rw [put32, put16_outside (by omega), put16_outside (by omega)]

theorem get32_congr {m m' : Mem} {off : ℕ} (h : ∀ i, off ≤ i → i < off + 4 → m' i = m i) :
    get32 m' off = get32 m off := by
  simp only [get32, get16]
  rw [h off (by omega) (by omega), h (off + 1) (by omega) (by omega),
    h (off + 2) (by omega) (by omega), h (off + 2 + 1) (by omega) (by omega)]

theorem append_halves (w : BitVec 16) : w.extractLsb' 8 8 ++ w.extractLsb' 0 8 = w := by
  ext i hi
  simp only [BitVec.getElem_append, BitVec.getElem_extractLsb']
  split
  · rw [Nat.zero_add, BitVec.getLsbD_eq_getElem hi]
  · rw [show 8 + (i - 8) = i by omega, BitVec.getLsbD_eq_getElem hi]

theorem get16_put16 (m : Mem) (off : ℕ) (w : BitVec 16) : get16 (put16 m off w) off = w := by
  have hlow : put16 m off w (off + 1) = w.extractLsb' 0 8 := by
    rw [put16, if_neg (by omega), if_pos rfl]
  rw [get16, hlow, put16, if_pos rfl, append_halves]

theorem get32_put32 (m : Mem) (off : ℕ) (w : BitVec 32) : get32 (put32 m off w) off = w := by
  have hhigh : get16 (put32 m off w) off = w.extractLsb' 16 16 := by
    rw [← get16_put16 m off (w.extractLsb' 16 16), get16, get16, put32,
      put16_outside (i := off) (by omega), put16_outside (i := off + 1) (by omega)]
  have hlow : get16 (put32 m off w) (off + 2) = w.extractLsb' 0 16 := get16_put16 ..
  rw [get32, hhigh, hlow]
  ext i hi
  simp only [BitVec.getElem_append, BitVec.getElem_extractLsb']
  split
  · rw [Nat.zero_add, BitVec.getLsbD_eq_getElem hi]
  · rw [show 16 + (i - 16) = i by omega, BitVec.getLsbD_eq_getElem hi]

end MachKernel.Bytes
