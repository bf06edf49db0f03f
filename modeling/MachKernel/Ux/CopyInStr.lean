import MachKernel.Vm.Page

/-! Strings that the Unix server copies from a user's task (`uxkern/user_copy.c`): `copyinstr`
reads a page at a time with `vm_read`, and `copystr` is what it stands for. -/

namespace MachKernel.Ux.CopyInStr
open List
open Vm Word32

inductive Result
  | copied (len : ℕ)
  | enoent
  | efault
deriving DecidableEq

/-- The bytes at `to` so far, the pages read and given back, and whether the master lock is held. -/
structure Copy where
  written : List UInt8
  fetched : List ℕ
  freed : List ℕ
  held : Bool
deriving DecidableEq

/-- An `int`. -/
def signed (x : ℕ) : ℤ := if x < 2 ^ 31 then x else x - 2 ^ 32

theorem signed_le (x : ℕ) : signed x ≤ x := by
  unfold signed
  split <;> omega

theorem signed_cases (x : ℕ) : x < 2 ^ 31 ∧ signed x = x ∨ 2 ^ 31 ≤ x ∧ signed x = x - 2 ^ 32 := by
  unfold signed
  split <;> omega

/-- The loop over the bytes, with the turns that are left, and whether it found the zero byte. -/
def copyBytes (data : ℕ → UInt8) : ℕ → ℕ → List UInt8 × Bool
  | 0, _ => ([], false)
  | n + 1, cp =>
    if data cp = 0 then ([0], true)
    else ((data cp :: (copyBytes data n (cp + 1)).1), (copyBytes data n (cp + 1)).2)

def copystr (mem : ℕ → UInt8) (addr : ℕ) (maxLen : ℤ) : Result × List UInt8 :=
  let (l, done) := copyBytes mem maxLen.toNat addr
  (if done then .copied l.length else .enoent, l)

/-! ## What is asked of a copy -/

/-- The bytes written are those read, in order, and the result is the one they call for. -/
def Copies (b : ℕ → Option UInt8) (maxLen : ℤ) (r : Result) (w : List UInt8) : Prop :=
  (∀ i < w.length, b i = w[i]?) ∧
  match r with
  | .copied len => w.length = len ∧ len ≤ maxLen ∧ 0 < len ∧ b (len - 1) = some 0 ∧
      ∀ i < len - 1, b i ≠ some 0
  | .enoent => w.length = maxLen.toNat ∧ ∀ i < w.length, b i ≠ some 0
  | .efault => w.length < maxLen ∧ b w.length = none ∧ ∀ i < w.length, b i ≠ some 0

/-- The first `quota` bytes settle the result. -/
def Settled (b : ℕ → Option UInt8) (maxLen : ℤ) (quota : ℕ) : Prop :=
  maxLen ≤ quota ∨ (∃ n < quota, b n = some 0) ∨ ∃ n ≤ quota, b n = none

/-! ## The loop over the bytes -/

theorem copyBytes_spec (data : ℕ → UInt8) (n cp : ℕ) :
    ∃ l done, copyBytes data n cp = (l, done) ∧ (∀ i < l.length, l[i]? = some (data (cp + i))) ∧
      if done then 0 < l.length ∧ l.length ≤ n ∧ data (cp + (l.length - 1)) = 0 ∧
        ∀ i < l.length - 1, data (cp + i) ≠ 0
      else l.length = n ∧ ∀ i < n, data (cp + i) ≠ 0 := by
  induction n generalizing cp with
  | zero => exact ⟨[], false, rfl, by simp, by simp⟩
  | succ n ih =>
    unfold copyBytes
    split
    next h => exact ⟨[0], true, rfl, by simpa using h.symm, by simpa using h⟩
    next h =>
      obtain ⟨l, done, he, hl, hd⟩ := ih (cp + 1)
      have hs : ∀ i, cp + 1 + i = cp + (i + 1) := by omega
      simp only [hs] at hl hd
      refine ⟨data cp :: l, done, by rw [he], ?_, ?_⟩
      · rintro (_ | i) hi
        · simp
        · simpa using hl i (by simpa using hi)
      · have hcons : ∀ m, (∀ i < m, data (cp + (i + 1)) ≠ 0) → ∀ i < m + 1, data (cp + i) ≠ 0 := by
          rintro m hm (_ | i) hi
          · exact h
          · exact hm i (by omega)
        cases done with
        | false => exact ⟨by simpa using hd.1, hcons n hd.2⟩
        | true =>
          obtain ⟨h0, hn, hz, hb⟩ := hd
          have hlen : l.length - 1 + 1 = l.length := by omega
          rw [hlen] at hz
          refine ⟨by simp, by simpa using hn, by simpa using hz, ?_⟩
          simpa [hlen] using hcons _ hb

/-- `copystr` copies as asked. -/
theorem copystr_copies (mem : ℕ → UInt8) (addr : ℕ) (maxLen : ℤ) :
    Copies (fun n => some (mem (addr + n))) maxLen (copystr mem addr maxLen).1
      (copystr mem addr maxLen).2 := by
  obtain ⟨l, done, he, hl, hd⟩ := copyBytes_spec mem maxLen.toNat addr
  simp only [copystr, he]
  refine ⟨fun i hi => (hl i hi).symm, ?_⟩
  cases done with
  | false => exact ⟨hd.1, fun i hi => by simpa using hd.2 i (hd.1 ▸ hi)⟩
  | true =>
    obtain ⟨h0, hn, hz, hb⟩ := hd
    exact ⟨rfl, by omega, h0, by simpa using hz, fun i hi => by simpa using hb i hi⟩

/-! ## The loop over the pages -/

/-- What `vm_read` finds in the page that starts at an address, unless it fails. -/
abbrev Task := ℕ → Option (ℕ → UInt8)

section Pages
variable [PageSize]

/-- `end - from`: the rest of the page. -/
def left (addr : ℕ) : ℕ := sub (add (truncPage addr) pageSize) addr

/-- The loop of `copyinstr` over the pages: `count` is the number of bytes written. -/
def copyPages (task : Task) (maxLen : ℤ) : ℕ → ℕ → Copy → Option (Result × Copy)
  | 0, _, _ => none
  | fuel + 1, addr, c =>
    if c.written.length < maxLen then
      let start := truncPage addr
      match task start with
      | none => some (.efault, c)
      | some data =>
        let curMax := min (signed (left addr)) maxLen
        let (l, done) := copyBytes data (curMax - c.written.length).toNat (sub addr start)
        let c := { c with
          written := c.written ++ l, fetched := c.fetched ++ [start], freed := c.freed ++ [start] }
        if done then some (.copied c.written.length, c)
        else copyPages task maxLen fuel (add start pageSize) c
    else some (.enoent, c)

/-- `copyinstr` in a thread that has taken the master lock `masterLock` times (`u_master_lock`).
Without a reply message the addresses are the server's own. -/
def copyinstr (replyMsg : Bool) (mem : ℕ → UInt8) (task : Task) (masterLock : ℕ) (addr : ℕ)
    (maxLen : ℤ) (fuel : ℕ) : Option (Result × Copy) :=
  let held := decide (masterLock ≠ 0)
  if replyMsg then
    let c := ⟨[], [], [], if masterLock ≠ 0 then false else held⟩
    (copyPages task maxLen fuel addr c).map fun (r, c) =>
      (r, { c with held := if masterLock ≠ 0 then true else c.held })
  else some ((copystr mem addr maxLen).1, ⟨(copystr mem addr maxLen).2, [], [], held⟩)

/-- The byte at `addr + n` of the user's task. -/
def Task.byte (task : Task) (addr n : ℕ) : Option UInt8 :=
  (task (truncPage (add addr n))).map fun data => data (add addr n % pageSize)

/-- How many bytes are ever copied, unless `maxLen` is smaller: the limit of each page is compared
with the bytes of all pages. -/
def quota (addr : ℕ) : ℕ := (max (signed (left addr)) (signed pageSize)).toNat

theorem pageSize_lt_modulus : pageSize < modulus :=
  Nat.pow_lt_pow_right (by norm_num) PageSize.pageShift_lt

variable {addr a fuel : ℕ} {c c' : Copy} {maxLen : ℤ} {r : Result} {task : Task}

theorem left_eq (ha : addr < modulus) : left addr = pageSize - addr % pageSize := by
  have hp := pageSize_pos
  have hl := pageSize_lt_modulus
  have ht := truncPage_add_mod ha
  have hm := Nat.mod_lt addr hp
  simp only [left, add, sub, modulus] at *
  omega

theorem left_next (ha : addr < modulus) : left (add (truncPage addr) pageSize) = pageSize := by
  have h := (truncPage_aligned ha).add (dvd_refl pageSize)
  rw [left_eq (add_lt _ _), Nat.mod_eq_zero_of_dvd h, Nat.sub_zero]

/-- The byte `k` of the rest of a page. -/
theorem Task.byte_add (task : Task) {m k : ℕ} (hk : k < left (add a m)) :
    task.byte a (m + k) = (task (truncPage (add a m))).map
      fun data => data (sub (add a m) (truncPage (add a m)) + k) := by
  have ha : add a m < modulus := add_lt a m
  have hadd : add a (m + k) = add (add a m) k := by simp only [add, modulus]; omega
  rw [Task.byte, hadd]
  generalize add a m = addr at *
  rw [left_eq ha] at hk
  have hp := pageSize_pos
  have ht := truncPage_add_mod ha
  have hm := Nat.mod_lt addr hp
  have hmod : (addr + k) % pageSize = addr % pageSize + k := by
    rw [Nat.add_mod_of_add_mod_lt] <;> rw [Nat.mod_eq_of_lt (show k < pageSize by omega)]
    omega
  have hend : addr + k < modulus := by
    have := PageAligned.le_of_lt (truncPage_aligned ha) pageSize_dvd_modulus (truncPage_lt ha)
    omega
  rw [add_of_lt hend, hmod]
  have ht' := truncPage_add_mod hend
  rw [show truncPage (addr + k) = truncPage addr by omega, sub_of_le ha (by omega)]
  congr 1
  funext data
  congr 1
  omega

theorem copyPages_keeps (h : c.freed = c.fetched) (hr : copyPages task maxLen fuel addr c = some
    (r, c')) : c'.freed = c'.fetched ∧ c'.held = c.held := by
  induction fuel generalizing addr c with
  | zero => cases hr
  | succ fuel ih =>
    unfold copyPages at hr
    split at hr
    · dsimp only at hr
      split at hr
      · cases hr
        exact ⟨h, rfl⟩
      · split at hr
        · cases hr
          exact ⟨by simp [h], rfl⟩
        · obtain ⟨hf, hh⟩ := ih (by simp [h]) hr
          exact ⟨hf, hh⟩
    · cases hr
      exact ⟨h, rfl⟩

theorem copyPages_length_le {q : ℕ}
    (ha : addr < modulus) (hq : signed pageSize ≤ q) (hl : signed (left addr) ≤ q)
    (hc : c.written.length ≤ q) (hr : copyPages task maxLen fuel addr c = some (r, c')) :
    c'.written.length ≤ q := by
  induction fuel generalizing addr c with
  | zero => cases hr
  | succ fuel ih =>
    unfold copyPages at hr
    split at hr
    · dsimp only at hr
      split at hr
      · cases hr
        exact hc
      next data _ =>
        obtain ⟨l, done, he, -, hd⟩ := copyBytes_spec data
          (min (signed (left addr)) maxLen - c.written.length).toNat (sub addr (truncPage addr))
        rw [he] at hr
        have hlen : (c.written ++ l).length ≤ q := by
          rw [length_append]
          cases done with
          | false => have := hd.1; omega
          | true => have := hd.2.1; omega
        cases done with
        | false =>
          refine ih (add_lt _ _) ?_ hlen hr
          rwa [left_next ha]
        | true => cases hr; exact hlen
    · cases hr
      exact hc

/-- Every byte so far is written, and none is zero. -/
def Unended (b : ℕ → Option UInt8) (w : List UInt8) : Prop :=
  ∀ i < w.length, b i = w[i]? ∧ b i ≠ some 0

/-- A turn that starts at the first byte that is not written. -/
theorem copyPages_turn (hb : Unended (task.byte a) c.written) (hlt : c.written.length < maxLen)
    (fuel : ℕ) :
    (∃ r c', copyPages task maxLen (fuel + 1) (add a c.written.length) c = some (r, c') ∧
      Copies (task.byte a) maxLen r c'.written) ∨
    ∃ c', copyPages task maxLen (fuel + 1) (add a c.written.length) c =
        copyPages task maxLen fuel (add (truncPage (add a c.written.length)) pageSize) c' ∧
      Unended (task.byte a) c'.written ∧ (c'.written.length : ℤ) =
        max (c.written.length : ℤ) (min (signed (left (add a c.written.length))) maxLen) ∧
      ∀ k < left (add a c.written.length), task.byte a (c.written.length + k) ≠ none := by
  rw [copyPages, if_pos hlt]
  dsimp only
  have hp := pageSize_pos
  have hleft := left_eq (add_lt a c.written.length)
  have hmod := Nat.mod_lt (add a c.written.length) hp
  cases hv : task (truncPage (add a c.written.length)) with
  | none =>
    refine .inl ⟨.efault, c, rfl, fun i hi => (hb i hi).1, hlt, ?_, fun i hi => (hb i hi).2⟩
    have := task.byte_add (a := a) (m := c.written.length) (k := 0) (by omega)
    rw [hv] at this
    exact this
  | some data =>
    have hbyte : ∀ k < left (add a c.written.length), task.byte a (c.written.length + k) =
        some (data (sub (add a c.written.length) (truncPage (add a c.written.length)) + k)) := by
      intro k hk
      rw [task.byte_add hk, hv]
      rfl
    obtain ⟨l, done, he, hl, hd⟩ := copyBytes_spec data
      (min (signed (left (add a c.written.length))) maxLen - c.written.length).toNat
      (sub (add a c.written.length) (truncPage (add a c.written.length)))
    dsimp only
    rw [he]
    have hsl := signed_le (left (add a c.written.length))
    have hll : l.length ≤ left (add a c.written.length) := by
      cases done with
      | false => have := hd.1; omega
      | true => have := hd.2.1; omega
    have hr : ∀ i < (c.written ++ l).length, task.byte a i = (c.written ++ l)[i]? := by
      intro i hi
      rw [length_append] at hi
      by_cases hc : i < c.written.length
      · rw [getElem?_append_left hc]
        exact (hb i hc).1
      · rw [getElem?_append_right (by omega), hl _ (by omega), ← hbyte _ (by omega)]
        congr 1
        omega
    have hz : ∀ n ≤ l.length, (∀ i < n, data (sub (add a c.written.length)
        (truncPage (add a c.written.length)) + i) ≠ 0) →
        ∀ i < c.written.length + n, task.byte a i ≠ some 0 := by
      intro n hn hd i hi
      by_cases hc : i < c.written.length
      · exact (hb i hc).2
      · have := hbyte (i - c.written.length) (by omega)
        rw [show c.written.length + (i - c.written.length) = i by omega] at this
        rw [this]
        simpa using hd (i - c.written.length) (by omega)
    cases done with
    | true =>
      obtain ⟨h0, hn, hzero, hbefore⟩ := hd
      refine .inl ⟨_, _, rfl, hr, rfl, ?_, ?_, ?_, ?_⟩
      all_goals simp only [length_append]
      · omega
      · omega
      · rw [show c.written.length + l.length - 1 = c.written.length + (l.length - 1) by omega,
          hbyte _ (by omega), hzero]
      · rw [show c.written.length + l.length - 1 = c.written.length + (l.length - 1) by omega]
        exact hz _ (by omega) hbefore
    | false =>
      refine .inr ⟨{ c with
        written := c.written ++ l
        fetched := c.fetched ++ [truncPage (add a c.written.length)]
        freed := c.freed ++ [truncPage (add a c.written.length)] }, rfl, ?_, ?_,
        fun k hk => by simp [hbyte k hk]⟩
      · intro i hi
        refine ⟨hr i hi, ?_⟩
        rw [length_append] at hi
        exact hz l.length le_rfl (hd.1 ▸ hd.2) i hi
      · rw [length_append]
        have := hd.1
        omega

theorem Unended.copyPages_stop {b : ℕ → Option UInt8}
    (hb : Unended b c.written) (h : c.written.length = maxLen ∨ maxLen ≤ 0 ∧ c.written = [])
    (fuel addr : ℕ) : ∃ r c', copyPages task maxLen (fuel + 1) addr c = some (r, c') ∧
      Copies b maxLen r c'.written := by
  refine ⟨.enoent, c, ?_, fun i hi => (hb i hi).1, ?_, fun i hi => (hb i hi).2⟩
  · have hlt : ¬ c.written.length < maxLen := by
      rcases h with h | ⟨h, hw⟩
      · omega
      · simpa [hw] using h
    unfold copyPages
    rw [if_neg hlt]
  · rcases h with h | ⟨h, hw⟩
    · omega
    · rw [hw, length_nil]
      omega

theorem settled_of_copies {mem : ℕ → UInt8} {masterLock : ℕ} (ha : a < modulus)
    (hr : copyinstr true mem task masterLock a maxLen fuel = some (r, c))
    (h : Copies (task.byte a) maxLen r c.written) : Settled (task.byte a) maxLen (quota a) := by
  obtain ⟨-, hres⟩ := h
  by_contra hns
  simp only [Settled, not_or, not_exists, not_and, not_le] at hns
  obtain ⟨hlong, hzero, hnone⟩ := hns
  simp only [copyinstr, if_true, Option.map_eq_some_iff, Prod.exists, Prod.mk.injEq] at hr
  obtain ⟨r, c, hr, rfl, rfl⟩ := hr
  have hlen : c.written.length ≤ quota a :=
    copyPages_length_le ha (by unfold quota; omega) (by unfold quota; omega) (by simp) hr
  cases r with
  | copied len =>
    obtain ⟨hw, -, h0, hz, -⟩ := hres
    dsimp only at hw
    exact hzero _ (by omega) hz
  | enoent =>
    have hw := hres.1
    dsimp only at hw
    omega
  | efault => exact hnone _ hlen hres.2.1

/-- `copyinstr` does what it is for when the first bytes, as many as the rest of the first page or
as a whole page, settle the result. Otherwise it never goes beyond them. -/
theorem copyinstr_copies_iff (mem : ℕ → UInt8) (task : Task) (masterLock : ℕ) (addr : Fin modulus)
    (maxLen : ℤ) : (∃ fuel r c, copyinstr true mem task masterLock addr maxLen fuel = some (r, c) ∧
      Copies (task.byte addr) maxLen r c.written ∧ c.freed = c.fetched ∧
      c.held = decide (masterLock ≠ 0)) ↔ Settled (task.byte addr) maxLen (quota addr) := by
  obtain ⟨a, ha⟩ := addr
  dsimp only
  have hp := pageSize_pos
  have hpm := pageSize_lt_modulus
  rw [modulus_eq] at hpm
  have hleft := left_eq ha
  have hmod := Nat.mod_lt a hp
  constructor
  · rintro ⟨fuel, r, c, hr, h, -⟩
    exact settled_of_copies ha hr h
  · intro hs
    have key : ∃ r c, copyPages task maxLen 3 a
        ⟨[], [], [], if masterLock ≠ 0 then false else decide (masterLock ≠ 0)⟩ = some (r, c) ∧
        Copies (task.byte a) maxLen r c.written := by
      have h0 : add a 0 = a := add_of_lt ha
      generalize (if masterLock ≠ 0 then false else decide (masterLock ≠ 0)) = held
      have hw : Unended (task.byte a) (⟨[], [], [], held⟩ : Copy).written := fun i hi => by
        simp at hi
      by_cases hm : 0 < maxLen
      swap
      · exact hw.copyPages_stop (.inr ⟨by omega, rfl⟩) 2 a
      -- the rest of the first page
      rcases copyPages_turn hw (by simpa using hm) 2 with hend | ⟨c, he, hc, hn, hread⟩
      · simpa [h0] using hend
      simp only [length_nil, h0, Nat.zero_add, Nat.cast_zero] at he hn hread
      rw [he]
      by_cases hm1 : maxLen ≤ signed (left a)
      · exact hc.copyPages_stop (.inl (by omega)) 1 _
      rcases signed_cases (left a) with ⟨hl, hq⟩ | ⟨hl, hq⟩
      swap
      · -- the page is all of 2^31 bytes, and none of them is copied
        rcases signed_cases pageSize with ⟨hl', hq'⟩ | ⟨hl', hq'⟩
        · omega
        rcases hs with hs | ⟨n, hs, -⟩ | ⟨n, hs, hnone⟩ <;> unfold quota at hs
        · omega
        · omega
        · exact absurd hnone (hread n (by omega))
      -- the second page
      have hpos : add a c.written.length = add (truncPage a) pageSize := by
        have := truncPage_add_mod ha
        rw [add, add]
        congr 1
        omega
      rw [← hpos]
      have hlt : c.written.length < maxLen := by omega
      rcases copyPages_turn hc hlt 1 with hend | ⟨c', he', hc', hn', hread'⟩
      · exact hend
      rw [he']
      rw [hpos, left_next ha] at hn' hread'
      by_cases hm2 : maxLen ≤ signed pageSize
      · exact hc'.copyPages_stop (.inl (by omega)) 0 _
      have hquota : c'.written.length = quota a := by unfold quota; omega
      have hps := signed_le pageSize
      rcases hs with hs | ⟨n, hs, hzero⟩ | ⟨n, hs, hnone⟩
      · unfold quota at hs
        omega
      · exact absurd hzero (hc' n (by omega)).2
      · by_cases hnq : n < c'.written.length
        · rw [(hc' n hnq).1, getElem?_eq_getElem hnq] at hnone
          cases hnone
        · refine absurd ?_ (hread' (n - c.written.length) ?_)
          · rwa [show c.written.length + (n - c.written.length) = n by omega]
          · omega
    obtain ⟨r, c, hr, hres⟩ := key
    obtain ⟨hf, hh⟩ := copyPages_keeps rfl hr
    refine ⟨3, r, { c with held := if masterLock ≠ 0 then true else c.held }, ?_, hres, hf, ?_⟩
    · simp only [copyinstr, if_true, hr]
      rfl
    · dsimp only
      by_cases hl : masterLock = 0 <;> simp [hl, hh]

end Pages

/-- A string of 5000 bytes. -/
def longString : Task := fun start => some fun i => if start + i = 5000 then 0 else 97

theorem longString_byte {n : ℕ} (h : n < modulus) :
    @Task.byte pages4096 longString 0 n = some (if n = 5000 then 0 else 97) := by
  let _ := pages4096
  have hn : add 0 n = n := by rw [add_of_lt (by omega), Nat.zero_add]
  simp only [Task.byte, longString, hn, truncPage_add_mod h, Option.map_some]

/-- It is not copied, though there is room for it. -/
theorem copyinstr_longString : (@Task.byte pages4096 longString 0 5000 = some 0 ∧
      ∀ n < 5000, @Task.byte pages4096 longString 0 n = some 97) ∧
    ¬∃ fuel r c, @copyinstr pages4096 true (fun _ => 0) longString 1 0 8192 fuel = some (r, c) ∧
      Copies (@Task.byte pages4096 longString 0) 8192 r c.written := by
  let _ := pages4096
  refine ⟨⟨longString_byte (by norm_num), fun n hn => ?_⟩, ?_⟩
  · rw [longString_byte (by rw [modulus_eq]; omega), if_neg (by omega)]
  · rintro ⟨fuel, r, c, hr, h⟩
    have hquota : quota 0 = 4096 := by decide
    have hs := settled_of_copies (by norm_num) hr h
    rw [hquota] at hs
    rcases hs with hs | ⟨n, hn, hz⟩ | ⟨n, hn, hz⟩
    · omega
    · rw [longString_byte (by rw [modulus_eq]; omega), if_neg (by omega)] at hz
      exact absurd hz (by decide)
    · rw [longString_byte (by rw [modulus_eq]; omega)] at hz
      cases hz

end MachKernel.Ux.CopyInStr
