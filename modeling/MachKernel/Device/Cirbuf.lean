import MachKernel.Lib.Runs
import Mathlib.Data.List.GetD

/-! Circular buffers for terminals (`device/cirbuf.c`), and the queue of characters that each one
is. -/

namespace MachKernel.Device.Tty
open Runs Function List

/-- `char`, which is signed. -/
abbrev Char := BitVec 8

/-- `struct cirbuf`, with the memory that it is in. -/
structure Cirbuf where
  cStart : ℤ
  cEnd : ℤ
  cCf : ℤ
  cCl : ℤ
  cCc : ℤ
  mem : ℤ → Char

open Cirbuf

namespace Cirbuf
variable (cb : Cirbuf)

/-- `cb_alloc`. -/
def alloc (mem : ℤ → Char) (buf : ℤ) (bufSize : ℕ) : Cirbuf := ⟨buf, buf + bufSize, buf, buf, 0, mem⟩

/-- A pointer that has come to the end goes on at the start. -/
def wrap (x : ℤ) : ℤ := if x = cb.cEnd then cb.cStart else x

def putc (c : ℤ) : ℤ × Cirbuf :=
  let nw := cb.wrap (cb.cCl + 1)
  if nw = cb.cCf then (1, cb)
  else
    (0, { cb with
      mem := update cb.mem cb.cCl (BitVec.ofInt 8 c)
      cCl := nw
      cCc := cb.cCc + 1 })

def getc : ℤ × Cirbuf :=
  if cb.cCf = cb.cCl then (-1, cb)
  else ((cb.mem cb.cCf).toInt, { cb with cCf := cb.wrap (cb.cCf + 1), cCc := cb.cCc - 1 })

/-- The first characters from the read pointer on. -/
def read (i : ℕ) : List Char := (List.range i).map fun (j : ℕ) => cb.mem (cb.cCf + j)

/-- The memory after characters were copied to the write pointer. -/
def write (data : List Char) : ℤ → Char := fun a =>
  if cb.cCl ≤ a ∧ a < cb.cCl + data.length then data.getD (a - cb.cCl).toNat 0 else cb.mem a

/-- How many characters can be taken at once. -/
def contiguous : ℕ :=
  if cb.cCl < cb.cCf then (cb.cEnd - cb.cCf).toNat else (cb.cCl - cb.cCf).toNat

/-- The read pointer moves on. -/
def advance (i : ℕ) : Cirbuf := { cb with cCf := cb.wrap (cb.cCf + i), cCc := cb.cCc - i }

/-- The loop of `q_to_b`: the characters moved, for a number of turns. -/
def qToBLoop : ℕ → Cirbuf → ℕ → Option (List Char × Cirbuf)
  | 0, _, _ => none
  | turns + 1, cb, count =>
    if count = 0 then some ([], cb)
    else if cb.cCl = cb.cCf then some ([], cb)
    else
      let i := min cb.contiguous count
      (qToBLoop turns (cb.advance i) (count - i)).map fun r => (cb.read i ++ r.1, r.2)

/-- The loop of `ndflush`. -/
def ndflushLoop : ℕ → Cirbuf → ℕ → Option Cirbuf
  | 0, _, _ => none
  | turns + 1, cb, count =>
    if count = 0 then some cb
    else if cb.cCl = cb.cCf then some cb
    else
      let i := min cb.contiguous count
      ndflushLoop turns (cb.advance i) (count - i)

/-- `lim` in `b_to_q`. -/
def lim : ℤ := if cb.cCf - 1 < cb.cStart then cb.cEnd - 1 else cb.cCf - 1

/-- How many characters can be entered at once. -/
def room : ℕ :=
  if cb.cCl < cb.lim then (cb.lim - cb.cCl).toNat else (cb.cEnd - cb.cCl).toNat

/-- Characters are entered, and the write pointer moves on. -/
def enter (data : List Char) : Cirbuf :=
  { cb with
    mem := cb.write data
    cCl := cb.wrap (cb.cCl + data.length)
    cCc := cb.cCc + data.length }

/-- The loop of `b_to_q`: the characters that were not entered. -/
def bToQLoop : ℕ → Cirbuf → List Char → Option (ℕ × Cirbuf)
  | 0, _, _ => none
  | turns + 1, cb, data =>
    if data.length = 0 then some (0, cb)
    else if cb.cCl = cb.lim then some (data.length, cb)
    else
      let i := min cb.room data.length
      bToQLoop turns (cb.enter (data.take i)) (data.drop i)

/-- Every turn moves a character at least. -/
def qToB (count : ℕ) : Option (List Char × Cirbuf) := qToBLoop (count + 1) cb count
def ndflush (count : ℕ) : Option Cirbuf := ndflushLoop (count + 1) cb count
def bToQ (data : List Char) : Option (ℕ × Cirbuf) := bToQLoop (data.length + 1) cb data

end Cirbuf

inductive Op
  | putc (c : ℤ)
  | getc
  | bToQ (data : List Char)
  | qToB (count : ℕ)
  | ndflush (count : ℕ)
  deriving DecidableEq

/-- What an operation returns. -/
inductive Result
  | put (r : ℤ)
  | got (c : ℤ)
  | notEntered (n : ℕ)
  | moved (data : List Char)
  | flushed
  deriving DecidableEq

def Cirbuf.step (cb : Cirbuf) : Op → Option (Result × Cirbuf)
  | .putc c => some (.put (cb.putc c).1, (cb.putc c).2)
  | .getc => some (.got cb.getc.1, cb.getc.2)
  | .bToQ data => (cb.bToQ data).map fun r => (.notEntered r.1, r.2)
  | .qToB count => (cb.qToB count).map fun r => (.moved r.1, r.2)
  | .ndflush count => (cb.ndflush count).map fun cb' => (.flushed, cb')

/-! The queue of characters. -/

/-- What each operation is to do with a queue of so many characters at most. -/
def queueStep (capacity : ℕ) (q : List Char) : Op → Result × List Char
  | .putc c => if q.length < capacity then (.put 0, q ++ [BitVec.ofInt 8 c]) else (.put 1, q)
  | .getc => match q with
    | [] => (.got (-1), [])
    | c :: q => (.got c.toNat, q)
  | .bToQ data =>
    (.notEntered (data.length - min data.length (capacity - q.length)),
      q ++ data.take (capacity - q.length))
  | .qToB count => (.moved (q.take count), q.drop count)
  | .ndflush count => (.flushed, q.drop count)

/-- An operation does what it is to do with the queue, and `c_cc` is its length. -/
def spec (capacity : ℕ) (q : List Char) (op : Op) (r : Result) (q' : List Char) (cb' : Cirbuf) :
    Prop :=
  (r, q') = queueStep capacity q op ∧ cb'.cCc = q'.length

/-- `getc` comes to no character whose value is negative as a `char`. -/
def Fits (cb : Cirbuf) : Op → Prop
  | .getc => cb.cCf = cb.cCl ∨ (cb.mem cb.cCf).toNat < 128
  | _ => True

instance (cb : Cirbuf) : DecidablePred (Fits cb)
  | .getc => inferInstanceAs (Decidable (_ ∨ _))
  | .putc _ | .bToQ _ | .qToB _ | .ndflush _ => isTrue trivial

/-! The buffer holds a queue. -/

/-- Where the character is that comes so many after the first. -/
def Cirbuf.place (cb : Cirbuf) (j : ℕ) : ℤ :=
  if cb.cCf + j < cb.cEnd then cb.cCf + j else cb.cCf + j - (cb.cEnd - cb.cStart)

structure Cirbuf.Holds (cb : Cirbuf) (q : List Char) : Prop where
  front : cb.cStart ≤ cb.cCf ∧ cb.cCf < cb.cEnd
  back : cb.cCl = cb.place q.length
  short : q.length < cb.cEnd - cb.cStart
  count : cb.cCc = q.length
  chars : ∀ j (hj : j < q.length), cb.mem (cb.place j) = q[j]

section
variable {cb : Cirbuf} {q : List Char}

theorem Cirbuf.Holds.pointers (h : cb.Holds q) :
    cb.cStart ≤ cb.cCf ∧ cb.cCf < cb.cEnd ∧ q.length < cb.cEnd - cb.cStart ∧
    (cb.cCl = cb.cCf + q.length ∧ cb.cCl < cb.cEnd ∨
      cb.cCl = cb.cCf + q.length - (cb.cEnd - cb.cStart) ∧ cb.cCl < cb.cCf ∧
        cb.cStart ≤ cb.cCl) := by
  have hback := h.back
  have hfront := h.front
  have hshort := h.short
  unfold place at hback
  refine ⟨hfront.1, hfront.2, hshort, ?_⟩
  split at hback
  · exact .inl ⟨hback, by omega⟩
  · exact .inr ⟨hback, by omega, by omega⟩

theorem Cirbuf.Holds.empty_iff (h : cb.Holds q) : cb.cCl = cb.cCf ↔ q = [] := by
  have hpointers := h.pointers
  rw [← length_eq_zero_iff]
  omega

theorem Cirbuf.Holds.contiguous (h : cb.Holds q) :
    cb.contiguous ≤ q.length ∧ cb.cCf + cb.contiguous ≤ cb.cEnd ∧ (q ≠ [] → 0 < cb.contiguous) := by
  have hpointers := h.pointers
  have hempty := h.empty_iff
  unfold Cirbuf.contiguous
  split
  · exact ⟨by omega, by omega, fun _ => by omega⟩
  · refine ⟨by omega, by omega, fun hq => ?_⟩
    have hne := mt hempty.1 hq
    omega

theorem Cirbuf.Holds.lim (h : cb.Holds q) : cb.lim = cb.cEnd - 1 ∧ cb.cCf = cb.cStart ∨
    cb.lim = cb.cCf - 1 ∧ cb.cStart < cb.cCf := by
  have hfront := h.front
  unfold Cirbuf.lim
  split
  · exact .inl ⟨rfl, by omega⟩
  · exact .inr ⟨rfl, by omega⟩

theorem Cirbuf.Holds.full_iff (h : cb.Holds q) :
    cb.cCl = cb.lim ↔ q.length + 1 = cb.cEnd - cb.cStart := by
  have hpointers := h.pointers
  have hlim := h.lim
  omega

theorem Cirbuf.Holds.room (h : cb.Holds q) (hfull : cb.cCl ≠ cb.lim) :
    q.length + cb.room < cb.cEnd - cb.cStart ∧ cb.cCl + cb.room ≤ cb.cEnd ∧ 0 < cb.room := by
  have hpointers := h.pointers
  have hlim := h.lim
  unfold Cirbuf.room
  split
  · exact ⟨by omega, by omega, by omega⟩
  · exact ⟨by omega, by omega, by omega⟩

theorem Cirbuf.Holds.advance (h : cb.Holds q) {i : ℕ} (hi : i ≤ q.length)
    (hend : cb.cCf + i ≤ cb.cEnd) : (cb.advance i).Holds (q.drop i) := by
  have hpointers := h.pointers
  have hplace : ∀ j, i + j ≤ q.length → (cb.advance i).place j = cb.place (i + j) := by
    intro j hj
    unfold Cirbuf.place Cirbuf.advance Cirbuf.wrap
    dsimp only
    push_cast
    split_ifs <;> omega
  have hlen : (q.drop i).length = q.length - i := length_drop
  refine ⟨?_, ?_, ?_, ?_, fun j hj => ?_⟩
  · unfold Cirbuf.advance Cirbuf.wrap
    dsimp only
    split <;> omega
  · rw [hplace _ (by omega), hlen, Nat.add_sub_cancel' hi]
    exact h.back
  · rw [hlen]
    dsimp only [Cirbuf.advance]
    omega
  · rw [hlen]
    dsimp only [Cirbuf.advance]
    rw [h.count]
    omega
  · rw [hplace j (by omega), getElem_drop]
    exact h.chars (i + j) (by omega)

theorem Cirbuf.Holds.read (h : cb.Holds q) {i : ℕ} (hi : i ≤ q.length)
    (hend : cb.cCf + i ≤ cb.cEnd) : cb.read i = q.take i := by
  refine ext_getElem ?_ fun j hj hj' => ?_
  · rw [Cirbuf.read, length_map, length_range, length_take, Nat.min_eq_left hi]
  · have hji : j < i := by
      rw [Cirbuf.read, length_map, length_range] at hj
      exact hj
    have hplace : cb.place j = cb.cCf + j := by
      unfold place
      rw [if_pos (by omega)]
    rw [getElem_take, ← h.chars j (by omega), hplace]
    simp only [Cirbuf.read, getElem_map, getElem_range]

theorem Cirbuf.Holds.enter (h : cb.Holds q) (data : List Char)
    (hdata : q.length + data.length < cb.cEnd - cb.cStart)
    (hend : cb.cCl + data.length ≤ cb.cEnd) : (cb.enter data).Holds (q ++ data) := by
  have hpointers := h.pointers
  have hback := h.back
  have hlen : (q ++ data).length = q.length + data.length := length_append
  refine ⟨h.front, ?_, ?_, ?_, fun j hj => ?_⟩
  · rw [hlen]
    unfold Cirbuf.place Cirbuf.enter Cirbuf.wrap
    dsimp only
    push_cast
    split_ifs <;> omega
  · rw [hlen]
    dsimp only [Cirbuf.enter]
    push_cast
    exact hdata
  · rw [hlen]
    dsimp only [Cirbuf.enter]
    rw [h.count]
    push_cast
    ring
  · change cb.write data (cb.place j) = _
    rw [hlen] at hj
    unfold Cirbuf.write
    rcases lt_or_ge j q.length with hold | hnew
    · rw [getElem_append_left hold, ← h.chars j hold, if_neg]
      unfold Cirbuf.place
      split <;> omega
    · have hplace : cb.place j = cb.cCl + (j - q.length : ℕ) := by
        unfold Cirbuf.place at hback ⊢
        split at hback
        · rw [if_pos (by omega)]
          omega
        · rw [if_neg (by omega)]
          omega
      rw [getElem_append_right hnew, hplace, if_pos (by omega)]
      have hindex : (cb.cCl + (j - q.length : ℕ) - cb.cCl).toNat = j - q.length := by omega
      rw [hindex, getD_eq_getElem]

theorem Cirbuf.Holds.qToBLoop (h : cb.Holds q) {turns count : ℕ} (hturns : count < turns) :
    ∃ cb', qToBLoop turns cb count = some (q.take count, cb') ∧
      cb'.Holds (q.drop count) ∧ cb'.cEnd - cb'.cStart = cb.cEnd - cb.cStart := by
  induction turns generalizing cb q count with
  | zero => exact absurd hturns (Nat.not_lt_zero _)
  | succ turns ih =>
    unfold qToBLoop
    split
    · next hzero =>
      rw [hzero]
      exact ⟨cb, rfl, h, rfl⟩
    · next hzero =>
      split
      · next hempty =>
        obtain rfl := h.empty_iff.1 hempty
        exact ⟨cb, by rw [take_nil], by rwa [drop_nil], rfl⟩
      · next hempty =>
        obtain ⟨hle, hend, hpos⟩ := h.contiguous
        replace hpos := hpos (mt h.empty_iff.2 hempty)
        generalize hi : min cb.contiguous count = i
        have hiq : i ≤ q.length := by omega
        have hiend : cb.cCf + i ≤ cb.cEnd := by omega
        obtain ⟨cb', hloop, hholds, hsize⟩ :=
          ih (h.advance hiq hiend) (by omega : count - i < turns)
        have hcount : i + (count - i) = count := by omega
        refine ⟨cb', ?_, ?_, hsize⟩
        · dsimp only
          rw [hloop, Option.map_some, h.read hiq hiend, ← take_add, hcount]
        · rwa [drop_drop, hcount] at hholds

theorem Cirbuf.ndflushLoop_eq (turns : ℕ) (cb : Cirbuf) (count : ℕ) :
    ndflushLoop turns cb count = (qToBLoop turns cb count).map Prod.snd := by
  induction turns generalizing cb count with
  | zero => rfl
  | succ turns ih =>
    unfold ndflushLoop qToBLoop
    split
    · rfl
    · split
      · rfl
      · dsimp only
        rw [ih, Option.map_map]
        rfl

/-- Every turn of the loop of `b_to_q` enters a part of what fits. -/
theorem Cirbuf.Holds.bToQLoop (h : cb.Holds q) {turns : ℕ} {data : List Char}
    (hturns : data.length < turns) (room : ℕ) (hroom : q.length + room + 1 = cb.cEnd - cb.cStart) :
    ∃ cb', Cirbuf.bToQLoop turns cb data = some (data.length - min data.length room, cb') ∧
      cb'.Holds (q ++ data.take room) ∧ cb'.cEnd - cb'.cStart = cb.cEnd - cb.cStart := by
  induction turns generalizing cb q data room with
  | zero => exact absurd hturns (Nat.not_lt_zero _)
  | succ turns ih =>
    unfold Cirbuf.bToQLoop
    split
    · next hzero =>
      rw [length_eq_zero_iff.1 hzero]
      exact ⟨cb, rfl, by rwa [take_nil, append_nil], rfl⟩
    · next hzero =>
      split
      · next hfull =>
        have hnone : room = 0 := by
          have hlen := h.full_iff.1 hfull
          omega
        rw [hnone]
        exact ⟨cb, by rw [Nat.min_zero, Nat.sub_zero], by rwa [take_zero, append_nil],
          rfl⟩
      · next hfull =>
        obtain ⟨hle, hend, hpos⟩ := h.room hfull
        generalize hi : min cb.room data.length = i
        have hlen : (data.take i).length = i := by
          rw [length_take]
          omega
        have hleft : (data.drop i).length = data.length - i := length_drop
        have hdata : q.length + (data.take i).length < cb.cEnd - cb.cStart := by
          rw [hlen]
          omega
        have hdataEnd : cb.cCl + (data.take i).length ≤ cb.cEnd := by
          rw [hlen]
          omega
        have hroom' : (q ++ data.take i).length + (room - i : ℕ) + 1 =
            (cb.enter (data.take i)).cEnd - (cb.enter (data.take i)).cStart := by
          rw [length_append, hlen]
          dsimp only [Cirbuf.enter]
          omega
        obtain ⟨cb', hloop, hholds, hsize⟩ :=
          ih (h.enter _ hdata hdataEnd) (by omega : (data.drop i).length < turns) _ hroom'
        refine ⟨cb', ?_, ?_, hsize⟩
        · dsimp only
          rw [hloop, hleft]
          congr 2
          omega
        · have hsum : i + (room - i) = room := by omega
          rwa [append_assoc, ← take_add, hsum] at hholds

theorem Cirbuf.Holds.putc (h : cb.Holds q) (c : ℤ) :
    (q.length + 1 < cb.cEnd - cb.cStart → (cb.putc c).1 = 0 ∧
      (cb.putc c).2.Holds (q ++ [BitVec.ofInt 8 c])) ∧
    (q.length + 1 = cb.cEnd - cb.cStart → cb.putc c = (1, cb)) := by
  have hpointers := h.pointers
  have hfull : cb.wrap (cb.cCl + 1) = cb.cCf ↔ q.length + 1 = cb.cEnd - cb.cStart := by
    unfold Cirbuf.wrap
    split <;> omega
  constructor
  · intro hshort
    have hne : cb.wrap (cb.cCl + 1) ≠ cb.cCf := mt hfull.1 hshort.ne
    have henter := h.enter [BitVec.ofInt 8 c] (by exact_mod_cast hshort)
      (by rw [length_singleton]; omega)
    have hwrite : cb.write [BitVec.ofInt 8 c] = update cb.mem cb.cCl (BitVec.ofInt 8 c) := by
      funext x
      unfold Cirbuf.write
      rw [update_apply, length_singleton]
      split
      · next hx =>
        obtain rfl : x = cb.cCl := by omega
        rw [if_pos rfl, sub_self]
        rfl
      · next hx => rw [if_neg (by omega)]
    unfold Cirbuf.putc
    dsimp only
    rw [if_neg hne]
    refine ⟨rfl, ?_⟩
    unfold Cirbuf.enter at henter
    rw [hwrite] at henter
    exact henter
  · intro hlen
    unfold Cirbuf.putc
    dsimp only
    rw [if_pos (hfull.2 hlen)]

theorem Cirbuf.Holds.getc {c : Char} (h : cb.Holds (c :: q)) :
    cb.getc.1 = c.toInt ∧ cb.getc.2.Holds q ∧ cb.cCf ≠ cb.cCl ∧ cb.mem cb.cCf = c := by
  have hpointers := h.pointers
  have hne : cb.cCf ≠ cb.cCl := fun heq => cons_ne_nil _ _ (h.empty_iff.1 heq.symm)
  have hchar := h.chars 0 (Nat.succ_pos _)
  have hplace : cb.place 0 = cb.cCf := by
    unfold Cirbuf.place
    rw [Nat.cast_zero, add_zero, if_pos hpointers.2.1]
  rw [hplace, getElem_cons_zero] at hchar
  have hadvance := h.advance (i := 1) (by rw [length_cons]; omega) (by push_cast; omega)
  unfold Cirbuf.getc
  rw [if_neg hne]
  exact ⟨by rw [hchar], hadvance, hne, hchar⟩

theorem Cirbuf.Holds.step (h : cb.Holds q) {capacity : ℕ}
    (hsize : cb.cEnd - cb.cStart = capacity + 1) (op : Op) :
    ∃ r cb', cb.step op = some (r, cb') ∧ cb'.Holds (queueStep capacity q op).2 ∧
      cb'.cEnd - cb'.cStart = capacity + 1 ∧ (r = (queueStep capacity q op).1 ↔ Fits cb op) := by
  have hpointers := h.pointers
  cases op with
  | putc c =>
    obtain ⟨hput, hfull⟩ := h.putc c
    refine ⟨_, _, rfl, ?_⟩
    unfold queueStep
    dsimp only
    split
    · next hshort =>
      obtain ⟨hr, hholds⟩ := hput (by omega)
      refine ⟨hholds, ?_, iff_of_true (by rw [hr]) trivial⟩
      rw [← hsize]
      unfold Cirbuf.putc
      dsimp only
      split <;> rfl
    · next hlong =>
      rw [hfull (by omega)]
      exact ⟨h, hsize, iff_of_true rfl trivial⟩
  | getc =>
    refine ⟨_, _, rfl, ?_⟩
    cases q with
    | nil =>
      have hempty := (h.empty_iff.2 rfl).symm
      have hgetc : cb.getc = (-1, cb) := if_pos hempty
      rw [hgetc]
      exact ⟨h, hsize, iff_of_true rfl (.inl hempty)⟩
    | cons c q =>
      obtain ⟨hr, hholds, hne, hc⟩ := h.getc
      refine ⟨hholds, ?_, ?_⟩
      · rw [← hsize]
        unfold Cirbuf.getc
        rw [if_neg hne]
      · unfold Fits queueStep
        dsimp only
        rw [hr, hc, or_iff_right hne, Result.got.injEq, BitVec.toInt_eq_toNat_cond]
        split <;> omega
  | bToQ data =>
    obtain ⟨cb', hloop, hholds, hsize'⟩ := h.bToQLoop (Nat.lt_succ_self data.length)
      (capacity - q.length) (by omega)
    refine ⟨_, cb', ?_, hholds, hsize'.trans hsize, iff_of_true rfl trivial⟩
    unfold Cirbuf.step Cirbuf.bToQ
    dsimp only
    rw [hloop]
    rfl
  | qToB count =>
    obtain ⟨cb', hloop, hholds, hsize'⟩ := h.qToBLoop (Nat.lt_succ_self count)
    refine ⟨_, cb', ?_, hholds, hsize'.trans hsize, iff_of_true rfl trivial⟩
    unfold Cirbuf.step Cirbuf.qToB
    dsimp only
    rw [hloop]
    rfl
  | ndflush count =>
    obtain ⟨cb', hloop, hholds, hsize'⟩ := h.qToBLoop (Nat.lt_succ_self count)
    refine ⟨_, cb', ?_, hholds, hsize'.trans hsize, iff_of_true rfl trivial⟩
    unfold Cirbuf.step Cirbuf.ndflush
    dsimp only
    rw [Cirbuf.ndflushLoop_eq, hloop]
    rfl

end

theorem Cirbuf.holds_alloc (mem : ℤ → Char) (buf : ℤ) {bufSize : ℕ} (h : 2 ≤ bufSize) :
    (alloc mem buf bufSize).Holds [] := by
  have hlt : buf < buf + bufSize := by omega
  refine ⟨⟨le_rfl, hlt⟩, ?_, ?_, rfl, nofun⟩
  · unfold place alloc
    dsimp only
    rw [length_nil, Nat.cast_zero, add_zero, if_pos hlt]
  · dsimp only [alloc]
    rw [length_nil]
    omega

/-- Every operation of a run does what it is to do with the queue exactly when `getc` never comes
to a character of 128 or more. -/
theorem cirbufRuns_queue (mem : ℤ → Char) (buf : ℤ) {bufSize : ℕ} (h : 2 ≤ bufSize)
    (ops : List Op) : Does Cirbuf.step (spec (bufSize - 1)) (Cirbuf.alloc mem buf bufSize) [] ops ↔
      Along Cirbuf.step Fits (Cirbuf.alloc mem buf bufSize) ops := by
  refine Does.iff_along
    (fun cb q => cb.Holds q ∧ cb.cEnd - cb.cStart = ((bufSize - 1 : ℕ) : ℤ) + 1) ?_ ?_
    ⟨Cirbuf.holds_alloc mem buf h, by dsimp only [Cirbuf.alloc]; omega⟩
  · rintro cb q op ⟨hholds, hsize⟩ hfits
    obtain ⟨r, cb', hstep, hholds', hsize', hr⟩ := hholds.step hsize op
    exact ⟨r, cb', _, hstep, ⟨Prod.ext (hr.2 hfits) rfl, hholds'.count⟩, hholds', hsize'⟩
  · rintro cb q op r cb' q' ⟨hholds, hsize⟩ hstep ⟨hspec, -⟩
    obtain ⟨r', cb'', hstep', hholds', hsize', hr⟩ := hholds.step hsize op
    cases hstep.symm.trans hstep'
    rw [← hspec] at hholds' hr
    exact ⟨hr.1 rfl, hholds', hsize'⟩

/-- A buffer of four, with more to enter than fits, and a second piece after the end. -/
theorem cirbufRuns_queue_wraps : Does Cirbuf.step (spec 3) (Cirbuf.alloc (fun _ => 0) 4096 4) []
      [.bToQ [1, 2, 3, 4], .qToB 2, .putc 5, .bToQ [6, 7], .getc, .ndflush 9, .getc] :=
  (cirbufRuns_queue (fun _ => 0) 4096 (by decide : 2 ≤ 4) _).2 (by decide +kernel)

/-- A character of 255 comes out as the value for an empty buffer. -/
theorem getc_not_queue :
    ¬Does Cirbuf.step (spec 3) (Cirbuf.alloc (fun _ => 0) 4096 4) [] [.putc 255, .getc] := by
  rintro ⟨_, _, _, hput, ⟨hspec, -⟩, _, _, _, hget, ⟨hspec', -⟩, -⟩
  cases hput
  cases hspec
  cases hget
  have hgot : Result.got ((Cirbuf.alloc (fun _ => 0) 4096 4).putc 255).2.getc.1 = .got 255 :=
    congrArg Prod.fst hspec'
  exact absurd hgot (by decide)

end MachKernel.Device.Tty
