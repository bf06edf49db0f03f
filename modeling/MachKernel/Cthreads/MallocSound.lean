import MachKernel.Cthreads.Malloc

/-! That the memory allocator is sound where its requests can be met. -/

namespace MachKernel.Cthreads.Malloc
open Bytes FreeList Runs Vm Function List Option

/-! The size of a block. -/

theorem shiftLeft_size (i : ℕ) :
    BitVec.ofNat 32 (2 ^ (i + 3)) <<< 1 = BitVec.ofNat 32 (2 ^ (i + 1 + 3)) := by
  apply BitVec.eq_of_toNat_eq
  rw [BitVec.toNat_shiftLeft, BitVec.toNat_ofNat, BitVec.toNat_ofNat, Nat.shiftLeft_eq,
    Nat.mod_mul_mod]
  congr 1

variable {size : BitVec 32}

theorem findBucket_of_le {k fuel i : ℕ} (hsize : size.toNat ≤ 2 ^ (k + 3))
    (hk : k ≤ 28) (hlow : ∀ j < k, 2 ^ (j + 3) < size.toNat) (hi : i ≤ k) (hfuel : k < fuel + i) :
    findBucket size fuel i (BitVec.ofNat 32 (2 ^ (i + 3))) =
      some (k, BitVec.ofNat 32 (2 ^ (k + 3))) := by
  induction fuel generalizing i with
  | zero => omega
  | succ fuel ih =>
    have hpow : 2 ^ (i + 3) < 2 ^ 32 := Nat.pow_lt_pow_right (by norm_num) (by omega)
    have hlt : BitVec.ofNat 32 (2 ^ (i + 3)) < size ↔ 2 ^ (i + 3) < size.toNat := by
      rw [BitVec.lt_def, BitVec.toNat_ofNat, Nat.mod_eq_of_lt hpow]
    unfold findBucket
    rcases Nat.lt_or_eq_of_le hi with hik | rfl
    · rw [if_pos (hlt.2 (hlow i hik)), shiftLeft_size]
      exact ih hik (by omega)
    · rw [if_neg (mt hlt.1 (by omega))]

theorem findBucket_of_gt (hsize : 2 ^ 31 < size.toNat) (fuel i : ℕ) :
    findBucket size fuel i (BitVec.ofNat 32 (2 ^ (i + 3))) = none := by
  induction fuel generalizing i with
  | zero => rfl
  | succ fuel ih =>
    have hle : (BitVec.ofNat 32 (2 ^ (i + 3))).toNat ≤ 2 ^ 31 := by
      rw [BitVec.toNat_ofNat]
      rcases Nat.lt_or_ge (i + 3) 32 with h | h
      · rw [Nat.mod_eq_of_lt (Nat.pow_lt_pow_right (by norm_num) h)]
        exact Nat.pow_le_pow_right (by norm_num) (by omega)
      · rw [Nat.mod_eq_zero_of_dvd (pow_dvd_pow 2 h)]
        exact Nat.zero_le _
    unfold findBucket
    rw [if_pos (BitVec.lt_def.2 (by omega)), shiftLeft_size]
    exact ih (i + 1)

theorem toNat_of_pos (h : 0 < size.toInt) :
    size.toNat < 2 ^ 31 ∧ (size + 4).toNat = size.toNat + headerSize := by
  have hlt : size.toNat < 2 ^ 31 := by
    rw [BitVec.toInt_eq_toNat_cond] at h
    split at h <;> omega
  refine ⟨hlt, ?_⟩
  rw [BitVec.toNat_add, headerSize, show (4 : BitVec 32).toNat = 4 from rfl]
  omega

theorem bucketFor_lt (h : size.toNat + headerSize ≤ 2 ^ 31) : bucketFor size < nbuckets := by
  have hlog := Nat.clog_le_of_le_pow h
  unfold bucketFor nbuckets
  omega

theorem le_bucketFor (size : BitVec 32) : size.toNat + headerSize ≤ 2 ^ (bucketFor size + 3) :=
  (Nat.le_pow_clog (by norm_num) _).trans
    (Nat.pow_le_pow_right (by norm_num) (by unfold bucketFor; omega))

theorem findBucket_malloc (h : 0 < size.toInt) :
    findBucket (size + 4) 32 0 8 = if size.toNat + headerSize ≤ 2 ^ 31 then
      some (bucketFor size, BitVec.ofNat 32 (2 ^ (bucketFor size + 3))) else none := by
  obtain ⟨hlt, hadd⟩ := toNat_of_pos h
  split
  · next hle =>
    have hbucket := bucketFor_lt hle
    unfold nbuckets at hbucket
    refine findBucket_of_le (i := 0) (hadd ▸ le_bucketFor size) (by omega) (fun j hj => ?_)
      (Nat.zero_le _) (by omega)
    rw [hadd]
    refine (Nat.lt_clog_iff_pow_lt (by norm_num)).1 ?_
    unfold bucketFor at hj
    omega
  · next hgt => exact findBucket_of_gt (hadd ▸ not_le.1 hgt) 32 0

/-! The free lists. -/

theorem headerSize_lt_size (b : Block) : headerSize < b.size := by
  have h := Nat.pow_le_pow_right (n := 2) (by norm_num) (Nat.le_add_left 3 b.bucket)
  unfold Block.size headerSize
  omega

instance : Std.Symm Block.Disjoint := ⟨fun _ _ => Or.symm⟩

section Heap
variable [MallocFreeList] {s : Heap} {place : ℕ → Place} {free : ℕ → List ℕ} {b c : Block} {i t : ℕ}

namespace Heap.Sound
variable (h : s.Sound place free)
include h

theorem apart (hb : b ∈ s.carved) (hc : c ∈ s.carved) (hne : b ≠ c) : b.Disjoint c :=
  h.disjoint.forall hb hc hne

theorem eq_of_addr (hb : b ∈ s.carved) (hc : c ∈ s.carved) (haddr : b.addr = c.addr) : b = c := by
  by_contra hne
  have hsize := headerSize_lt_size b
  have hsize' := headerSize_lt_size c
  rcases h.apart hb hc hne with hlt | hlt <;> omega

theorem head_lt (i : ℕ) : s.head i < 2 ^ 32 := by
  have hlist := h.lists i
  cases hfree : free i with
  | nil =>
    rw [hfree] at hlist
    rw [show s.head i = 0 from hlist]
    norm_num
  | cons j l =>
    rw [hfree] at hlist
    have hmem : (⟨j, i⟩ : Block) ∈ s.carved :=
      ((h.free_iff i j).1 (hfree ▸ mem_cons_self)).1
    have hbound := h.bound _ hmem
    have hsize := headerSize_lt_size ⟨j, i⟩
    rw [hlist.1]
    dsimp only at hbound
    omega

theorem get32_put32_of_ne (hb : b ∈ s.carved) (hc : c ∈ s.carved) (hne : c.addr ≠ b.addr)
    (w : BitVec 32) : get32 (put32 s.mem b.addr w) c.addr = get32 s.mem c.addr := by
  have hdisj := h.apart hb hc fun heq => hne (heq ▸ rfl)
  have hsize := headerSize_lt_size b
  have hsize' := headerSize_lt_size c
  unfold headerSize at hsize hsize'
  refine get32_congr fun k hk hk' => put32_outside ?_
  rcases hdisj with hlt | hlt <;> omega

theorem write (mem : Mem) (mapped : ℕ → Bool)
    (hmem : ∀ b ∈ s.carved, ∀ k < headerSize, mem (b.addr + k) = s.mem (b.addr + k))
    (hmapped : ∀ a, s.mapped a → mapped a) :
    ({ s with mem, mapped } : Heap).Sound place free := by
  have hget : ∀ b ∈ s.carved, get32 mem b.addr = get32 s.mem b.addr := fun b hb =>
    get32_congr fun k hk hk' => by
      have hat := hmem b hb (k - b.addr) (by unfold headerSize; omega)
      rwa [Nat.add_sub_cancel' hk] at hat
  refine ⟨h.pos, h.bucket, h.bound, fun b hb k hk => hmapped _ (h.inside b hb k hk), h.disjoint,
    fun i => ?_, h.free_iff, fun b hb hplace => ?_⟩
  · exact (h.lists i).congr fun j hj =>
      congrArg BitVec.toNat (hget ⟨j, i⟩ ((h.free_iff i j).1 hj).1)
  · exact (hget b hb).trans (h.header b hb hplace)

theorem push (hb : b ∈ s.carved) (hplace : place b.addr ≠ .free) :
    (s.push b).Sound (update place b.addr .free)
      (update free b.bucket (b.addr :: free b.bucket)) := by
  have hother : ∀ i, ∀ j ∈ free i, j ≠ b.addr := by
    rintro i j hj rfl
    exact hplace ((h.free_iff i _).1 hj).2
  have hnext : ∀ i, ∀ j ∈ free i, next (s.push b).mem j = next s.mem j := fun i j hj =>
    congrArg BitVec.toNat (h.get32_put32_of_ne hb (c := ⟨j, i⟩) ((h.free_iff i j).1 hj).1
      (hother i j hj) _)
  refine ⟨h.pos, h.bucket, h.bound, h.inside, h.disjoint, fun i => ?_, fun i a => ?_,
    fun c hc hused => ?_⟩
  · rcases eq_or_ne i b.bucket with rfl | hi
    · have hlink : next (s.push b).mem b.addr = s.head b.bucket := by
        unfold next Heap.push
        rw [get32_put32, BitVec.toNat_ofNat, Nat.mod_eq_of_lt (h.head_lt _)]
      rw [update_self]
      refine ⟨update_self .., h.pos b hb, ?_⟩
      rw [hlink]
      exact (h.lists b.bucket).congr (hnext b.bucket)
    · rw [update_of_ne hi]
      have hhead : (s.push b).head i = s.head i := update_of_ne hi ..
      rw [hhead]
      exact (h.lists i).congr (hnext i)
  · rcases eq_or_ne a b.addr with rfl | ha
    · rw [update_self]
      rcases eq_or_ne i b.bucket with rfl | hi
      · rw [update_self]
        exact iff_of_true mem_cons_self ⟨hb, rfl⟩
      · rw [update_of_ne hi]
        refine iff_of_false (fun hmem => hother i _ hmem rfl) fun hmem => hi ?_
        exact congrArg Block.bucket (h.eq_of_addr (c := b) hmem.1 hb rfl)
    · rw [update_of_ne ha]
      refine Iff.trans ?_ (h.free_iff i a)
      rcases eq_or_ne i b.bucket with rfl | hi
      · rw [update_self, mem_cons, or_iff_right ha]
      · rw [update_of_ne hi]
  · have hne : c.addr ≠ b.addr := by
      intro heq
      rw [heq, update_self] at hused
      rcases hused with hused | ⟨t, hused⟩ <;> cases hused
    rw [update_of_ne hne] at hused
    exact (h.get32_put32_of_ne hb hc hne _).trans (h.header c hc hused)

theorem pop (hhead : s.head i ≠ 0) (t : ℕ) :
    (⟨s.head i, i⟩ : Block) ∈ s.carved ∧ place (s.head i) = .free ∧
      ({ s with head := update s.head i (next s.mem (s.head i)) } : Heap).Sound
        (update place (s.head i) (.taken t)) (update free i (free i).tail) := by
  obtain ⟨l, hl⟩ : ∃ l, free i = s.head i :: l := by
    have hlist := h.lists i
    cases hfree : free i with
    | nil =>
      rw [hfree] at hlist
      exact absurd hlist hhead
    | cons j l =>
      rw [hfree] at hlist
      exact ⟨l, by rw [hlist.1]⟩
  have hlist := h.lists i
  have hnodup := hlist.nodup
  obtain ⟨hmem, hplace⟩ := (h.free_iff i (s.head i)).1 (hl ▸ mem_cons_self)
  rw [hl] at hlist hnodup
  refine ⟨hmem, hplace, h.pos, h.bucket, h.bound, h.inside, h.disjoint, fun j => ?_, fun j a => ?_,
    fun c hc hused => ?_⟩
  · rcases eq_or_ne j i with rfl | hj
    · dsimp only
      rw [update_self, update_self, hl]
      exact hlist.2.2
    · dsimp only
      rw [update_of_ne hj, update_of_ne hj]
      exact h.lists j
  · dsimp only
    rcases eq_or_ne a (s.head i) with rfl | ha
    · rw [update_self]
      refine iff_of_false (fun hin => ?_) fun hboth => nomatch hboth.2
      rcases eq_or_ne j i with rfl | hj
      · rw [update_self, hl] at hin
        exact (nodup_cons.1 hnodup).1 hin
      · rw [update_of_ne hj] at hin
        exact hj (congrArg Block.bucket (h.eq_of_addr ((h.free_iff j _).1 hin).1 hmem rfl))
    · rw [update_of_ne ha, ← h.free_iff j a]
      rcases eq_or_ne j i with rfl | hj
      · rw [update_self, hl, tail_cons, mem_cons, or_iff_right ha]
      · rw [update_of_ne hj]
  · have hne : c.addr ≠ s.head i := by
      intro heq
      rw [heq, update_self] at hused
      rcases hused with hused | ⟨t, hused⟩ <;> cases hused
    rw [update_of_ne hne] at hused
    exact h.header c hc hused

theorem setHeader (hb : b ∈ s.carved) (hplace : place b.addr ≠ .free) :
    (s.setHeader b).Sound (update place b.addr .allocated) free := by
  have hother : ∀ i, ∀ j ∈ free i, j ≠ b.addr := by
    rintro i j hj rfl
    exact hplace ((h.free_iff i _).1 hj).2
  refine ⟨h.pos, h.bucket, h.bound, h.inside, h.disjoint, fun i => ?_, fun i a => ?_,
    fun c hc hused => ?_⟩
  · exact (h.lists i).congr fun j hj => congrArg BitVec.toNat
      (h.get32_put32_of_ne hb (c := ⟨j, i⟩) ((h.free_iff i j).1 hj).1 (hother i j hj) _)
  · rcases eq_or_ne a b.addr with rfl | ha
    · rw [update_self]
      exact iff_of_false (fun hmem => hother i _ hmem rfl) fun hboth => nomatch hboth.2
    · rw [update_of_ne ha]
      exact h.free_iff i a
  · rcases eq_or_ne c.addr b.addr with heq | hne
    · obtain rfl := h.eq_of_addr hc hb heq
      exact get32_put32 ..
    · rw [update_of_ne hne] at hused
      exact (h.get32_put32_of_ne hb hc hne _).trans (h.header c hc hused)

theorem move (hplace : place b.addr = .allocated) (t : ℕ) :
    s.Sound (update place b.addr (.moving t)) free := by
  refine ⟨h.pos, h.bucket, h.bound, h.inside, h.disjoint, h.lists, fun i a => ?_,
    fun c hc hused => ?_⟩
  · rcases eq_or_ne a b.addr with rfl | ha
    · rw [update_self, h.free_iff, hplace]
      exact iff_of_false (fun hboth => nomatch hboth.2) fun hboth => nomatch hboth.2
    · rw [update_of_ne ha]
      exact h.free_iff i a
  · rcases eq_or_ne c.addr b.addr with heq | hne
    · exact h.header c hc (.inl (heq ▸ hplace))
    · rw [update_of_ne hne] at hused
      exact h.header c hc hused

theorem add (hpos : 0 < b.addr) (hbucket : b.bucket < nbuckets) (hbound : b.addr + b.size ≤ 2 ^ 32)
    (hinside : ∀ k < b.size, s.mapped (b.addr + k)) (hnew : ∀ c ∈ s.carved, b.Disjoint c) :
    ({ s with carved := b :: s.carved } : Heap).Sound (update place b.addr (.taken 0)) free := by
  have hother : ∀ c ∈ s.carved, c.addr ≠ b.addr := by
    intro c hc heq
    have hsize := headerSize_lt_size b
    have hsize' := headerSize_lt_size c
    rcases hnew c hc with hlt | hlt <;> omega
  refine ⟨forall_mem_cons.2 ⟨hpos, h.pos⟩, forall_mem_cons.2 ⟨hbucket, h.bucket⟩,
    forall_mem_cons.2 ⟨hbound, h.bound⟩, forall_mem_cons.2 ⟨hinside, h.inside⟩,
    pairwise_cons.2 ⟨hnew, h.disjoint⟩, h.lists, fun i a => ?_, fun c hc hused => ?_⟩
  · rcases eq_or_ne a b.addr with rfl | ha
    · rw [update_self]
      exact iff_of_false (fun hmem => hother _ ((h.free_iff i _).1 hmem).1 rfl)
        fun hboth => nomatch hboth.2
    · rw [update_of_ne ha, h.free_iff i a, mem_cons,
        or_iff_right fun heq => ha (congrArg Block.addr heq)]
  · have hne : c.addr ≠ b.addr := by
      intro heq
      rw [heq, update_self] at hused
      rcases hused with hused | ⟨t, hused⟩ <;> cases hused
    rw [update_of_ne hne] at hused
    exact h.header c ((mem_cons.1 hc).resolve_left fun heq => hne (heq ▸ rfl)) hused

end Heap.Sound

/-- The blocks that are not free are the same, and somebody else's no more than before. -/
def Same (s s' : Heap) (place place' : ℕ → Place) : Prop :=
  ∀ c p, p ≠ Place.free → (c ∈ s'.carved ∧ place' c.addr = p ↔ c ∈ s.carved ∧ place c.addr = p)

omit [MallocFreeList] in
theorem Same.trans {s' s'' : Heap} {place' place'' : ℕ → Place} (h : Same s s' place place')
    (h' : Same s' s'' place' place'') : Same s s'' place place'' :=
  fun c p hp => (h' c p hp).trans (h c p hp)

theorem Heap.Sound.carve (h : s.Sound place free) (hi : i < nbuckets) {n a : ℕ} (ha : 0 < a)
    (hbound : a + n * 2 ^ (i + 3) ≤ 2 ^ 32)
    (hmapped : ∀ x, a ≤ x → x < a + n * 2 ^ (i + 3) → s.mapped x)
    (hnew : ∀ c ∈ s.carved, c.addr + c.size ≤ a ∨ a + n * 2 ^ (i + 3) ≤ c.addr) :
    ∃ place' free', (Heap.carve (2 ^ (i + 3)) i n a s).Sound place' free' ∧
      Same s (Heap.carve (2 ^ (i + 3)) i n a s) place place' ∧
      (∀ x, x < a ∨ a + n * 2 ^ (i + 3) ≤ x → (Heap.carve (2 ^ (i + 3)) i n a s).mem x = s.mem x) ∧
      (s.head i ≠ 0 ∨ 0 < n → (Heap.carve (2 ^ (i + 3)) i n a s).head i ≠ 0) := by
  induction n generalizing s place free a with
  | zero =>
    exact ⟨place, free, h, fun _ _ _ => Iff.rfl, fun _ _ => rfl,
      fun hor => hor.resolve_right (lt_irrefl 0)⟩
  | succ n ih =>
    have hsplit : (n + 1) * 2 ^ (i + 3) = 2 ^ (i + 3) + n * 2 ^ (i + 3) := by ring
    rw [hsplit] at hbound hmapped hnew ⊢
    have hsize : (⟨a, i⟩ : Block).size = 2 ^ (i + 3) := rfl
    have hpos := headerSize_lt_size ⟨a, i⟩
    rw [hsize] at hpos
    have hdisj : ∀ c ∈ s.carved, (⟨a, i⟩ : Block).Disjoint c := fun c hc => by
      rcases hnew c hc with hlt | hlt
      · exact .inr hlt
      · exact .inl (by rw [hsize]; dsimp only; omega)
    have hadd := h.add (b := ⟨a, i⟩) ha hi (by rw [hsize]; dsimp only; omega)
      (fun k hk => hmapped _ (by dsimp only; omega) (by rw [hsize] at hk; dsimp only; omega)) hdisj
    have hpush := hadd.push mem_cons_self (by rw [update_self]; nofun)
    have hsame : Same s (({ s with carved := ⟨a, i⟩ :: s.carved } : Heap).push ⟨a, i⟩) place
        (update (update place a (.taken 0)) a .free) := by
      intro c p hp
      rcases eq_or_ne c.addr a with heq | hne
      · rw [heq, update_self]
        refine iff_of_false (fun hboth => hp hboth.2.symm) fun hboth => ?_
        have hc := hdisj c hboth.1
        have hsize' := headerSize_lt_size c
        rcases hc with hlt | hlt <;> rw [heq] at hlt <;> dsimp only at hlt <;> omega
      · rw [update_of_ne hne, update_of_ne hne]
        refine and_congr_left fun _ => mem_cons.trans (or_iff_right fun heq => ?_)
        exact hne (congrArg Block.addr heq)
    obtain ⟨place', free', hsound, hsame', hmem, hhead⟩ := ih hpush (a := a + 2 ^ (i + 3))
      (by omega) (by omega) (fun x hx hx' => hmapped x (by omega) (by omega)) (fun c hc => by
        rcases mem_cons.1 hc with rfl | hc
        · exact .inl (by rw [hsize])
        · rcases hnew c hc with hlt | hlt
          · exact .inl (by omega)
          · exact .inr (by omega))
    refine ⟨place', free', hsound, hsame.trans hsame', fun x hx => ?_, fun _ => hhead (.inl ?_)⟩
    · refine (hmem x (by omega)).trans (put32_outside ?_)
      unfold headerSize at hpos
      dsimp only
      omega
    · have hset : (({ s with carved := ⟨a, i⟩ :: s.carved } : Heap).push ⟨a, i⟩).head i = a :=
        update_self ..
      omega

section
variable [PageSize]

/-- What `more_memory` makes of memory that is new. -/
theorem Heap.Sound.moreMemory (h : s.Sound place free) (hi : i < nbuckets) {addr : ℕ}
    (haddr : addr ≠ 0) (hbound : addr + amount (2 ^ (i + 3)) ≤ 2 ^ 32)
    (hfresh : ∀ a, addr ≤ a → a < addr + amount (2 ^ (i + 3)) → s.mapped a = false) :
    ∃ place' free', (s.moreMemory (2 ^ (i + 3)) i addr).Sound place' free' ∧
      Same s (s.moreMemory (2 ^ (i + 3)) i addr) place place' ∧
      (∀ x, s.mapped x → (s.moreMemory (2 ^ (i + 3)) i addr).mem x = s.mem x) ∧
      (s.moreMemory (2 ^ (i + 3)) i addr).head i ≠ 0 := by
  have hsize := Nat.two_pow_pos (i + 3)
  obtain ⟨hcount, hamount⟩ : (0 < if 2 ^ (i + 3) ≤ pageSize then pageSize / 2 ^ (i + 3) else 1) ∧
      (if 2 ^ (i + 3) ≤ pageSize then pageSize / 2 ^ (i + 3) else 1) * 2 ^ (i + 3) ≤
        amount (2 ^ (i + 3)) := by
    unfold amount
    split
    · next hle => exact ⟨Nat.div_pos hle hsize, Nat.div_mul_le_self ..⟩
    · exact ⟨one_pos, (one_mul _).le⟩
  have hout : ∀ x, s.mapped x → ¬ (addr ≤ x ∧ x < addr + amount (2 ^ (i + 3))) := by
    intro x hx hin
    rw [hfresh x hin.1 hin.2] at hx
    cases hx
  unfold Heap.moreMemory
  have hwrite := h.write
    (fun a => if addr ≤ a ∧ a < addr + amount (2 ^ (i + 3)) then 0 else s.mem a)
    (fun a => s.mapped a || decide (addr ≤ a ∧ a < addr + amount (2 ^ (i + 3))))
    (fun b hb k hk => if_neg (hout _ (h.inside b hb k (hk.trans (headerSize_lt_size b)))))
    fun a ha => by rw [ha, Bool.true_or]
  generalize (if 2 ^ (i + 3) ≤ pageSize then pageSize / 2 ^ (i + 3) else 1) = n at hcount hamount ⊢
  obtain ⟨place', free', hsound, hsame, hmem, hhead⟩ := hwrite.carve hi (n := n) (a := addr)
    (Nat.pos_of_ne_zero haddr) (by omega)
    (fun x hx hx' => by
      rw [Bool.or_eq_true, decide_eq_true_iff]
      exact .inr ⟨hx, by omega⟩)
    (fun c hc => by
      by_contra hnot
      rw [not_or, not_le, not_le] at hnot
      have hlast : max c.addr addr < c.addr + c.size ∧
          max c.addr addr < addr + n * 2 ^ (i + 3) := by
        have := headerSize_lt_size c
        have := Nat.mul_pos hcount hsize
        omega
      have hin := h.inside c hc (max c.addr addr - c.addr) (by omega)
      rw [Nat.add_sub_cancel' (le_max_left ..)] at hin
      exact hout _ hin ⟨le_max_right .., by omega⟩)
  refine ⟨place', free', hsound, hsame, fun x hx => ?_, hhead (.inr hcount)⟩
  have hx' := hout x hx
  refine (hmem x ?_).trans (if_neg hx')
  omega

/-- What the part of `malloc` that has the lock takes. -/
theorem Heap.Sound.take (h : s.Sound place free) (hi : i < nbuckets) {vm : Option ℕ} (t : ℕ)
    (hcan : s.head i = 0 → ∃ addr ∈ vm, addr ≠ 0)
    (hfresh : ∀ addr ∈ vm, addr + amount (2 ^ (i + 3)) ≤ 2 ^ 32 ∧
      ∀ a, addr ≤ a → a < addr + amount (2 ^ (i + 3)) → s.mapped a = false) :
    ∃ a s' place' free', s.take (2 ^ (i + 3)) i vm = some (a, s') ∧ a ≠ 0 ∧ s'.Sound place' free' ∧
      ⟨a, i⟩ ∈ s'.carved ∧ place' a = .taken t ∧ (∀ c p, c.addr ≠ a → p ≠ Place.free →
        (c ∈ s'.carved ∧ place' c.addr = p ↔ c ∈ s.carved ∧ place c.addr = p)) ∧
      (∀ c ∈ s.carved, c.addr = a → place a = .free) ∧ (∀ x, s.mapped x → s'.mem x = s.mem x) := by
  unfold Heap.take
  by_cases hhead : s.head i = 0
  · obtain ⟨addr, hvm, haddr⟩ := hcan hhead
    obtain rfl : vm = some addr := hvm
    obtain ⟨hbound, hnew⟩ := hfresh addr rfl
    obtain ⟨place', free', hsound, hsame, hmem, hmore⟩ := h.moreMemory hi haddr hbound hnew
    obtain ⟨hin, hplace, hpop⟩ := hsound.pop hmore t
    dsimp only
    rw [if_pos hhead, if_neg hmore]
    refine ⟨_, _, _, _, rfl, hmore, hpop, hin, update_self .., fun c p hne hp => ?_,
      fun c hc heq => ?_, hmem⟩
    · rw [update_of_ne hne]
      exact hsame c p hp
    · by_contra hplace'
      have hold := (hsame c _ hplace').2 ⟨hc, heq ▸ rfl⟩
      rw [heq, hplace] at hold
      exact hplace' hold.2.symm
  · obtain ⟨hin, hplace, hpop⟩ := h.pop hhead t
    dsimp only
    rw [if_neg hhead]
    refine ⟨_, _, _, _, rfl, hhead, hpop, hin, update_self .., fun c p hne hp => ?_,
      fun c hc heq => hplace, fun _ _ => rfl⟩
    rw [update_of_ne hne]

end

namespace Heap.Sound
variable (h : s.Sound place free)
include h

theorem bucketAt (hb : b ∈ s.carved)
    (hplace : place b.addr = .allocated ∨ ∃ t, place b.addr = .moving t) :
    s.bucketAt b.addr = some b.bucket := by
  have hbucket := h.bucket b hb
  have hlists := MallocFreeList.fits
  have hlt : freeListAddress b.bucket < 2 ^ 32 := by
    unfold freeListAddress
    omega
  unfold Heap.bucketAt
  rw [h.header b hb hplace, BitVec.toNat_ofNat, Nat.mod_eq_of_lt hlt]
  have hindex : (freeListAddress b.bucket - MallocFreeList.address) / 8 = b.bucket := by
    unfold freeListAddress
    omega
  dsimp only
  rw [hindex, if_pos ⟨hbucket, rfl⟩]

theorem put32_data (hb : b ∈ s.carved) (hc : c ∈ s.carved) (w : BitVec 32) {k : ℕ}
    (hk : k < c.size - headerSize) : put32 s.mem b.addr w (c.base + k) = s.mem (c.base + k) := by
  have hsize := headerSize_lt_size b
  refine put32_outside ?_
  unfold Block.base
  rcases eq_or_ne b c with rfl | hne
  · unfold headerSize
    omega
  · unfold headerSize at *
    rcases h.apart hb hc hne with hlt | hlt <;> omega

theorem owner_update (hb : b ∈ s.carved) (p q : Place) :
    c ∈ s.carved ∧ update place b.addr q c.addr = p ↔
      c = b ∧ q = p ∨ c ≠ b ∧ c ∈ s.carved ∧ place c.addr = p := by
  rcases eq_or_ne c.addr b.addr with heq | hne
  · rw [heq, update_self]
    constructor
    · rintro ⟨hc, hp⟩
      exact .inl ⟨h.eq_of_addr hc hb heq, hp⟩
    · rintro (⟨rfl, hp⟩ | ⟨hne, hc, -⟩)
      · exact ⟨hb, hp⟩
      · exact absurd (h.eq_of_addr hc hb heq) hne
  · have hcb : c ≠ b := fun heq => hne (heq ▸ rfl)
    rw [update_of_ne hne]
    simp [hcb]

theorem owner_other (hb : b ∈ s.carved) (p q : Place) (hq : q ≠ p) (hp : place b.addr ≠ p) :
    c ∈ s.carved ∧ update place b.addr q c.addr = p ↔ c ∈ s.carved ∧ place c.addr = p := by
  rw [h.owner_update hb]
  constructor
  · rintro (⟨-, heq⟩ | ⟨-, hc⟩)
    · exact absurd heq hq
    · exact hc
  · rintro ⟨hc, hplace⟩
    exact .inr ⟨fun heq => hp (heq ▸ hplace), hc, hplace⟩

theorem owner_old (hb : b ∈ s.carved) (p q : Place) (hq : q ≠ p) :
    c ∈ s.carved ∧ update place b.addr q c.addr = p ↔ c ≠ b ∧ c ∈ s.carved ∧ place c.addr = p := by
  rw [h.owner_update hb]
  exact or_iff_right fun hboth => hq hboth.2

theorem owner_new (hb : b ∈ s.carved) (p : Place) :
    c ∈ s.carved ∧ update place b.addr p c.addr = p ↔ c = b ∨ c ∈ s.carved ∧ place c.addr = p := by
  rw [h.owner_update hb, and_iff_left rfl]
  constructor
  · rintro (heq | ⟨-, hc⟩)
    · exact .inl heq
    · exact .inr hc
  · rintro (heq | hc)
    · exact .inl heq
    · exact (em (c = b)).imp id fun hne => ⟨hne, hc⟩

end Heap.Sound

end Heap

/-! The calls. -/

section System
variable [MallocFreeList] {s : System} {place : ℕ → Place} {free : ℕ → List ℕ} {b c : Block}
  {t base : ℕ} {size : BitVec 32}

omit [MallocFreeList] in
theorem Block.base_inj : b.base = c.base ↔ b.addr = c.addr := Nat.add_right_cancel_iff

/-- The memory after `realloc` has set the header and moved the data. -/
def System.moved (s : System) (b old : Block) (size : BitVec 32) : Heap :=
  { s.heap.setHeader b with
    mem := copy (s.heap.setHeader b).mem old.base (s.heap.setHeader b).mem b.base
      (min (old.size - headerSize) size.toNat) }

omit [MallocFreeList] in
theorem Keeps.refl : Keeps s s := fun _ _ _ _ _ _ => rfl

namespace System.Sound
variable (h : s.Sound place free)
include h

theorem base_mem (hb : b ∈ s.heap.carved) : b.base ∈ s.allocated ↔ place b.addr = .allocated := by
  rw [h.allocated_iff]
  constructor
  · rintro ⟨c, hc, heq, hplace⟩
    rw [← Block.base_inj.1 heq]
    exact hplace
  · exact fun hplace => ⟨b, hb, rfl, hplace⟩

theorem eq_of_base (hb : b ∈ s.heap.carved) (hc : c ∈ s.heap.carved) (heq : b.base = c.base) :
    b = c :=
  h.heap.eq_of_addr hb hc (Block.base_inj.1 heq)

theorem free_eq (hb : b ∈ s.heap.carved)
    (hplace : place b.addr = .allocated ∨ ∃ t, place b.addr = .moving t) :
    s.free b.base = { s with heap := s.heap.push b, allocated := s.allocated.erase b.base } := by
  unfold System.free
  rw [show b.base - headerSize = b.addr from Nat.add_sub_cancel .., h.heap.bucketAt hb hplace]

theorem erase_iff (hb : b ∈ s.heap.carved) {q : Place} (hq : q ≠ .allocated) :
    base ∈ s.allocated.erase b.base ↔ ∃ c ∈ s.heap.carved, c.base = base ∧
      update place b.addr q c.addr = .allocated := by
  rw [h.nodup.mem_erase_iff, h.allocated_iff]
  constructor
  · rintro ⟨hne, c, hc, rfl, hplace⟩
    exact ⟨c, hc, rfl, ((h.heap.owner_old hb _ _ hq).2 ⟨fun heq => hne (heq ▸ rfl), hc, hplace⟩).2⟩
  · rintro ⟨c, hc, rfl, hplace⟩
    obtain ⟨hne, hc, hplace⟩ := (h.heap.owner_old hb _ _ hq).1 ⟨hc, hplace⟩
    exact ⟨fun heq => hne (h.eq_of_base hc hb heq), c, hc, rfl, hplace⟩

theorem cons_iff (hb : b ∈ s.heap.carved) : base ∈ b.base :: s.allocated ↔
    ∃ c ∈ s.heap.carved, c.base = base ∧ update place b.addr .allocated c.addr = .allocated := by
  rw [mem_cons, h.allocated_iff]
  constructor
  · rintro (rfl | ⟨c, hc, rfl, hplace⟩)
    · exact ⟨b, hb, rfl, update_self ..⟩
    · exact ⟨c, hc, rfl, ((h.heap.owner_new hb _).2 (.inr ⟨hc, hplace⟩)).2⟩
  · rintro ⟨c, hc, rfl, hplace⟩
    rcases (h.heap.owner_new hb _).1 ⟨hc, hplace⟩ with rfl | ⟨hc, hplace⟩
    · exact .inl rfl
    · exact .inr ⟨c, hc, rfl, hplace⟩

theorem freed (hb : b ∈ s.heap.carved) (hplace : place b.addr = .allocated) :
    (s.free b.base).Sound (update place b.addr .free)
      (update free b.bucket (b.addr :: free b.bucket)) := by
  rw [h.free_eq hb (.inl hplace)]
  refine ⟨h.heap.push hb (by rw [hplace]; nofun), h.nodup.erase _, fun base => h.erase_iff hb nofun,
    fun t c => ?_, fun t c => ?_, h.fits⟩
  · exact (h.taken_iff t c).trans
      (h.heap.owner_other hb (.taken t) .free nofun (by rw [hplace]; nofun)).symm
  · exact (h.moving_iff t c).trans
      (h.heap.owner_other hb (.moving t) .free nofun (by rw [hplace]; nofun)).symm

variable {t' k : ℕ} {old : Block}

theorem taken_out {old : Option Block} (hpc : s.pc t = .popped b size old) :
    (update s.pc t .out t').taken = some c ↔
      c ∈ s.heap.carved ∧ update place b.addr .allocated c.addr = .taken t' := by
  obtain ⟨hb, hplace⟩ := (h.taken_iff t b).1 (by rw [hpc]; rfl)
  rcases eq_or_ne t' t with rfl | ht
  · rw [update_self]
    refine iff_of_false nofun fun howner => ?_
    obtain ⟨hne, howner⟩ := (h.heap.owner_old hb (.taken t') .allocated nofun).1 howner
    have htaken := (h.taken_iff t' c).2 howner
    rw [hpc] at htaken
    exact hne (some.inj htaken).symm
  · rw [update_of_ne ht]
    refine (h.taken_iff t' c).trans (h.heap.owner_other hb (.taken t') .allocated nofun ?_).symm
    rw [hplace]
    exact fun heq => ht (Place.taken.inj heq).symm

theorem fits_out {size' : BitVec 32} {old : Option Block}
    (hpc : update s.pc t .out t' = .popped c size' old) : size'.toNat + headerSize ≤ c.size := by
  rcases eq_or_ne t' t with rfl | ht
  · rw [update_self] at hpc
    cases hpc
  · rw [update_of_ne ht] at hpc
    exact h.fits t' c size' old hpc

theorem not_allocated (hpc : (s.pc t).taken = some b) : b ∈ s.heap.carved ∧
    place b.addr = .taken t ∧ b.base ∉ s.allocated := by
  obtain ⟨hb, hplace⟩ := (h.taken_iff t b).1 hpc
  refine ⟨hb, hplace, ?_⟩
  rw [h.base_mem hb, hplace]
  nofun

theorem returned (hpc : s.pc t = .popped b size none) :
    (s.proceed t b size none).Sound (update place b.addr .allocated) free := by
  obtain ⟨hb, hplace, hnot⟩ := h.not_allocated (t := t) (by rw [hpc]; rfl)
  refine ⟨h.heap.setHeader hb (by rw [hplace]; nofun), nodup_cons.2 ⟨hnot, h.nodup⟩,
    fun base => h.cons_iff hb, fun t' c => h.taken_out hpc, fun t' c => ?_,
    fun t' c size' old hpc' => h.fits_out hpc'⟩
  have hmoving : (update s.pc t .out t').moving = (s.pc t').moving := by
    rcases eq_or_ne t' t with rfl | ht
    · rw [update_self, hpc]
      rfl
    · rw [update_of_ne ht]
  dsimp only [System.proceed]
  rw [hmoving]
  exact (h.moving_iff t' c).trans
    (h.heap.owner_other hb (.moving t') .allocated nofun (by rw [hplace]; nofun)).symm

theorem moving_ne (hpc : s.pc t = .popped b size (some old)) :
    old ∈ s.heap.carved ∧ place old.addr = .moving t ∧ old ≠ b := by
  obtain ⟨hb, hplace, -⟩ := h.not_allocated (t := t) (b := b) (by rw [hpc]; rfl)
  obtain ⟨hold, hmoving⟩ := (h.moving_iff t old).1 (by rw [hpc]; rfl)
  refine ⟨hold, hmoving, ?_⟩
  rintro rfl
  rw [hplace] at hmoving
  cases hmoving

theorem heap_moved (hpc : s.pc t = .popped b size (some old)) :
    (s.moved b old size).Sound (update place b.addr .allocated) free := by
  obtain ⟨hb, hplace, -⟩ := h.not_allocated (t := t) (b := b) (by rw [hpc]; rfl)
  have hfits := h.fits t b size _ hpc
  refine (h.heap.setHeader hb (by rw [hplace]; nofun)).write _ _ (fun c hc k hk => ?_) fun _ => id
  refine copy_outside ?_
  unfold Block.base
  rcases eq_or_ne c b with rfl | hne
  · omega
  · rcases h.heap.apart hc hb hne with hlt | hlt
    · have hsize := headerSize_lt_size c
      omega
    · omega

theorem proceed_eq (hpc : s.pc t = .popped b size (some old)) :
    s.proceed t b size (some old) =
      { heap := (s.moved b old size).push old
        pc := update s.pc t .out
        allocated := b.base :: s.allocated } := by
  obtain ⟨hold, hmoving, hne⟩ := h.moving_ne hpc
  have haddr : old.addr ≠ b.addr := fun heq =>
    hne (h.heap.eq_of_addr hold ((h.taken_iff t b).1 (by rw [hpc]; rfl)).1 heq)
  have hbucket := (h.heap_moved hpc).bucketAt hold (.inr ⟨t, by rw [update_of_ne haddr, hmoving]⟩)
  unfold System.proceed System.free
  dsimp only
  rw [show old.base - headerSize = old.addr from Nat.add_sub_cancel ..]
  have hbucket' : ({ s with heap := s.moved b old size } : System).heap.bucketAt old.addr =
    some old.bucket := hbucket
  unfold System.moved at hbucket'
  dsimp only at hbucket'
  rw [hbucket']
  rfl

theorem reallocated (hpc : s.pc t = .popped b size (some old)) :
    ∃ place' free', (s.proceed t b size (some old)).Sound place' free' := by
  obtain ⟨hb, hplace, hnot⟩ := h.not_allocated (t := t) (b := b) (by rw [hpc]; rfl)
  obtain ⟨hold, hmoving, hne⟩ := h.moving_ne hpc
  have haddr : old.addr ≠ b.addr := fun heq => hne (h.heap.eq_of_addr hold hb heq)
  have hmoved := h.heap_moved hpc
  have hat : update place b.addr .allocated old.addr = .moving t := by
    rw [update_of_ne haddr, hmoving]
  rw [h.proceed_eq hpc]
  refine ⟨_, _, hmoved.push hold (by rw [hat]; nofun), nodup_cons.2 ⟨hnot, h.nodup⟩,
    fun base => ?_, fun t' c => ?_, fun t' c => ?_, fun t' c size' old hpc' => h.fits_out hpc'⟩
  · refine (h.cons_iff hb).trans (exists_congr fun c => ?_)
    have hother : _ ↔ c ∈ s.heap.carved ∧ update place b.addr .allocated c.addr =
        .allocated := hmoved.owner_other hold .allocated .free nofun (by rw [hat]; nofun)
    constructor
    · rintro ⟨hc, hbase, hallocated⟩
      exact ⟨hc, hbase, (hother.2 ⟨hc, hallocated⟩).2⟩
    · rintro ⟨hc, hbase, hallocated⟩
      exact ⟨hc, hbase, (hother.1 ⟨hc, hallocated⟩).2⟩
  · exact (h.taken_out hpc).trans
      (hmoved.owner_other hold (.taken t') .free nofun (by rw [hat]; nofun)).symm
  · have hother : _ ↔ c ∈ s.heap.carved ∧ place c.addr = .moving t' :=
      h.heap.owner_other hb (.moving t') .allocated nofun (by rw [hplace]; nofun)
    refine Iff.trans ?_ (hmoved.owner_old hold (.moving t') .free nofun).symm
    refine Iff.trans ?_ (and_congr_right fun _ => hother).symm
    rcases eq_or_ne t' t with rfl | ht
    · dsimp only
      rw [update_self, ← h.moving_iff, hpc]
      exact iff_of_false nofun fun hboth => hboth.1 (some.inj hboth.2).symm
    · dsimp only
      rw [update_of_ne ht, h.moving_iff]
      refine (and_iff_right_of_imp ?_).symm
      rintro ⟨-, hc⟩ rfl
      rw [hmoving] at hc
      exact ht (Place.moving.inj hc).symm

theorem start_move (hpc : s.pc t = .popped b size none) (hold : old ∈ s.heap.carved)
    (hplace : place old.addr = .allocated) :
    ({ s with
      pc := update s.pc t (.popped b size (some old))
      allocated := s.allocated.erase old.base } : System).Sound
        (update place old.addr (.moving t)) free := by
  refine ⟨h.heap.move hplace t, h.nodup.erase _, fun base => h.erase_iff hold nofun,
    fun t' c => ?_, fun t' c => ?_, fun t' c size' old' hpc' => ?_⟩
  · have htaken : (update s.pc t (.popped b size (some old)) t').taken = (s.pc t').taken := by
      rcases eq_or_ne t' t with rfl | ht
      · rw [update_self, hpc]
        rfl
      · rw [update_of_ne ht]
    dsimp only
    rw [htaken]
    exact (h.taken_iff t' c).trans
      (h.heap.owner_other hold (.taken t') (.moving t) nofun (by rw [hplace]; nofun)).symm
  · dsimp only
    rcases eq_or_ne t' t with rfl | ht
    · rw [update_self, h.heap.owner_new hold, ← h.moving_iff, hpc]
      refine Iff.trans ?_ (or_iff_left nofun).symm
      exact ⟨fun heq => (some.inj heq).symm, fun heq => congrArg some heq.symm⟩
    · rw [update_of_ne ht, h.moving_iff]
      exact (h.heap.owner_other hold (.moving t') (.moving t)
        (fun heq => ht (Place.moving.inj heq).symm) (by rw [hplace]; nofun)).symm
  · dsimp only at hpc'
    rcases eq_or_ne t' t with rfl | ht
    · rw [update_self] at hpc'
      obtain ⟨rfl, rfl, -⟩ := Pc.popped.inj hpc'
      exact h.fits t' b size none hpc
    · rw [update_of_ne ht] at hpc'
      exact h.fits t' c size' old' hpc'

theorem stored {i : ℕ} (hb : b ∈ s.heap.carved) (hi : i + headerSize < b.size) (byte : Byte) :
    ({ s with heap := { s.heap with mem := update s.heap.mem (b.base + i) byte } } :
      System).Sound place free := by
  refine ⟨h.heap.write _ _ (fun c hc k hk => update_of_ne ?_ ..) fun _ => id, h.nodup,
    h.allocated_iff, h.taken_iff, h.moving_iff, h.fits⟩
  unfold Block.base
  rcases eq_or_ne c b with rfl | hne
  · omega
  · have hsize := headerSize_lt_size c
    rcases h.heap.apart hc hb hne with hlt | hlt <;> omega

section
variable [PageSize] {vm : Option ℕ}

theorem malloc_eq (hpc : s.pc t = .out) (hpos : 0 < size.toInt) (hcan : CanServe s size vm)
    (hfresh : ∀ addr ∈ vm, Fresh s size addr) :
    ∃ b heap place' free', (∀ old, s.malloc t size vm old =
        some (.taken, { s with heap, pc := update s.pc t (.popped b size old) })) ∧
      ({ s with heap, pc := update s.pc t (.popped b size none) } : System).Sound place' free' ∧
      (∀ c ∈ s.heap.carved, place c.addr = .allocated →
        c ∈ heap.carved ∧ place' c.addr = .allocated) ∧
      ∀ x, s.heap.mapped x → heap.mem x = s.heap.mem x := by
  obtain ⟨hsize, hhead⟩ := hcan
  have hbucket := bucketFor_lt hsize
  obtain ⟨a, heap, place', free', htake, ha, hsound, hin, hplace, hother, hwas, hmem⟩ :=
    h.heap.take hbucket t hhead hfresh
  have hpow : 2 ^ (bucketFor size + 3) < 2 ^ 32 :=
    Nat.pow_lt_pow_right (by norm_num) (by unfold nbuckets at hbucket; omega)
  have howner : ∀ c p, p ≠ Place.free → p ≠ .taken t →
      (c ∈ heap.carved ∧ place' c.addr = p ↔ c ∈ s.heap.carved ∧ place c.addr = p) := by
    intro c p hp hpt
    rcases eq_or_ne c.addr a with heq | hne
    · refine iff_of_false (fun hboth => hpt ?_) fun hboth => hp ?_
      · rw [← hboth.2, heq, hplace]
      · rw [← hboth.2, heq, hwas c hboth.1 heq]
    · exact hother c p hne hp
  refine ⟨⟨a, bucketFor size⟩, heap, place', free', fun old => ?_,
    ⟨hsound, h.nodup, fun base => ?_, fun t' c => ?_, fun t' c => ?_,
      fun t' c size' old hpc' => ?_⟩,
    fun c hc hplace => (howner c .allocated nofun nofun).2 ⟨hc, hplace⟩, hmem⟩
  · unfold System.malloc
    rw [if_neg (by omega), findBucket_malloc hpos, if_pos hsize, bind_some]
    dsimp only
    rw [BitVec.toNat_ofNat, Nat.mod_eq_of_lt hpow, htake, map_some]
    dsimp only
    rw [if_neg ha]
  · rw [h.allocated_iff]
    constructor
    · rintro ⟨c, hc, hbase, hallocated⟩
      have hc' := (howner c .allocated nofun nofun).2 ⟨hc, hallocated⟩
      exact ⟨c, hc'.1, hbase, hc'.2⟩
    · rintro ⟨c, hc, hbase, hallocated⟩
      have hc' := (howner c .allocated nofun nofun).1 ⟨hc, hallocated⟩
      exact ⟨c, hc'.1, hbase, hc'.2⟩
  · dsimp only
    rcases eq_or_ne t' t with rfl | ht
    · rw [update_self]
      constructor
      · intro heq
        obtain rfl := some.inj heq
        exact ⟨hin, hplace⟩
      · rintro ⟨hc, htaken⟩
        rcases eq_or_ne c.addr a with heq | hne
        · rw [hsound.eq_of_addr hc hin heq]
          rfl
        · have hold := (h.taken_iff t' c).2 ((hother c (.taken t') hne nofun).1 ⟨hc, htaken⟩)
          rw [hpc] at hold
          cases hold
    · rw [update_of_ne ht, h.taken_iff]
      exact (howner c (.taken t') nofun fun heq => ht (Place.taken.inj heq)).symm
  · have hmoving : (update s.pc t (.popped ⟨a, bucketFor size⟩ size none) t').moving =
        (s.pc t').moving := by
      rcases eq_or_ne t' t with rfl | ht
      · rw [update_self, hpc]
        rfl
      · rw [update_of_ne ht]
    dsimp only
    rw [hmoving, h.moving_iff]
    exact (howner c (.moving t') nofun nofun).symm
  · dsimp only at hpc'
    rcases eq_or_ne t' t with rfl | ht
    · rw [update_self] at hpc'
      obtain ⟨rfl, rfl, -⟩ := Pc.popped.inj hpc'
      exact le_bucketFor size
    · rw [update_of_ne ht] at hpc'
      exact h.fits t' c size' old hpc'

end

/-! What is kept. -/

theorem mapped_data (hb : b ∈ s.heap.carved) (hk : k < b.size - headerSize) :
    s.heap.mapped (b.base + k) := by
  have hin := h.heap.inside b hb (headerSize + k) (by omega)
  rwa [← Nat.add_assoc] at hin

theorem keeps_proceed (hpc : s.pc t = .popped b size none) : Keeps s (s.proceed t b size none) := by
  obtain ⟨hb, -, -⟩ := h.not_allocated (t := t) (b := b) (by rw [hpc]; rfl)
  exact fun c hc _ _ k hk => h.heap.put32_data hb hc _ hk

theorem moved_other (hpc : s.pc t = .popped b size (some old))
    (hc : c ∈ s.heap.carved) (hne : c ≠ b) (hk : k < c.size - headerSize) :
    (s.moved b old size).mem (c.base + k) = s.heap.mem (c.base + k) := by
  obtain ⟨hb, -, -⟩ := h.not_allocated (t := t) (b := b) (by rw [hpc]; rfl)
  have hfits := h.fits t b size _ hpc
  refine (copy_outside ?_).trans (h.heap.put32_data hb hc _ hk)
  unfold Block.base
  rcases h.heap.apart hc hb hne with hlt | hlt <;> omega

theorem keeps_moved (hpc : s.pc t = .popped b size (some old)) :
    Keeps s (s.proceed t b size (some old)) := by
  intro c hc huse _ k hk
  obtain ⟨hb, hplace, hnot⟩ := h.not_allocated (t := t) (b := b) (by rw [hpc]; rfl)
  obtain ⟨hold, -, -⟩ := h.moving_ne hpc
  have hne : c ≠ b := by
    rintro rfl
    rcases huse with huse | ⟨t', huse⟩
    · exact hnot huse
    · have hmoving := ((h.moving_iff t' c).1 huse).2
      rw [hplace] at hmoving
      cases hmoving
  rw [h.proceed_eq hpc]
  exact ((h.heap_moved hpc).put32_data hold hc _ hk).trans (h.moved_other hpc hc hne hk)

theorem moved_data (hpc : s.pc t = .popped b size (some old))
    (hk : k < min (old.size - headerSize) size.toNat) :
    (s.proceed t b size (some old)).heap.mem (b.base + k) = s.heap.mem (old.base + k) := by
  obtain ⟨hb, -, -⟩ := h.not_allocated (t := t) (b := b) (by rw [hpc]; rfl)
  obtain ⟨hold, -, -⟩ := h.moving_ne hpc
  have hfits := h.fits t b size _ hpc
  rw [h.proceed_eq hpc]
  refine ((h.heap_moved hpc).put32_data hold hb _ (by omega)).trans ?_
  refine (copy_inside _ _ _ _ hk).trans (h.heap.put32_data hb hold _ (by omega))

end System.Sound

/-! The steps. -/

variable [PageSize] {e : Event}

theorem step_spec (h : s.Sound place free) (hlegal : Legal s e) (hfits : Fits s e) :
    ∃ r s', s.step e = some (r, s') ∧ spec s e r s' s' := by
  cases e with
  | malloc t size vm =>
    obtain ⟨hpc, hfresh⟩ := hlegal
    unfold System.step
    dsimp only
    rw [if_pos hpc]
    rcases le_or_gt size.toInt 0 with hneg | hpos
    · unfold System.malloc
      rw [if_pos hneg]
      exact ⟨_, _, rfl, rfl, ⟨place, free, h⟩, ⟨rfl, rfl⟩, fun _ => Keeps.refl⟩
    · obtain ⟨b, heap, place', free', hmalloc, hsound, -, hmem⟩ :=
        h.malloc_eq hpc hpos (hfits hpos) hfresh
      rw [hmalloc none]
      refine ⟨_, _, rfl, rfl, ⟨place', free', hsound⟩, ⟨⟨b, update_self ..⟩, rfl⟩,
        fun _ c hc _ _ k hk => hmem _ (h.mapped_data hc hk)⟩
  | free t base =>
    obtain ⟨hpc, hbase⟩ := hlegal
    unfold System.step
    dsimp only
    rw [if_pos hpc]
    by_cases hnull : base = 0
    · rw [if_pos hnull]
      refine ⟨_, _, rfl, rfl, ⟨place, free, h⟩, (erase_of_not_mem fun hmem => ?_).symm,
        fun _ => Keeps.refl⟩
      obtain ⟨b, -, heq, -⟩ := (h.allocated_iff base).1 hmem
      rw [hnull] at heq
      exact absurd heq (Nat.succ_ne_zero _)
    · have hmem := hbase.resolve_left hnull
      obtain ⟨b, hb, rfl, hplace⟩ := (h.allocated_iff base).1 hmem
      rw [if_neg hnull, if_pos hmem]
      refine ⟨_, _, rfl, rfl, ⟨_, _, h.freed hb hplace⟩, ?_, fun _ => ?_⟩
      · rw [h.free_eq hb (.inl hplace)]
        rfl
      · rw [h.free_eq hb (.inl hplace)]
        exact fun c hc _ _ k hk => h.heap.put32_data hb hc _ hk
  | realloc t oldBase newSize vm =>
    obtain ⟨hpc, hbase, hfresh⟩ := hlegal
    unfold System.step
    dsimp only
    rw [if_pos hpc]
    by_cases hnull : oldBase = 0
    · rw [if_pos hnull]
      exact ⟨_, _, rfl, rfl, ⟨place, free, h⟩, ⟨rfl, rfl⟩, fun _ => Keeps.refl⟩
    · have hmem := hbase.resolve_left hnull
      obtain ⟨old, hold, rfl, hplace⟩ := (h.allocated_iff oldBase).1 hmem
      obtain ⟨hpos, hcan⟩ := hfits hnull
      obtain ⟨b, heap, place', free', hmalloc, hsound, hkept, hdata⟩ :=
        h.malloc_eq hpc hpos hcan hfresh
      obtain ⟨hold', hplace'⟩ := hkept old hold hplace
      have hmove := hsound.start_move (t := t) (update_self ..) hold' hplace'
      dsimp only at hmove
      rw [update_idem] at hmove
      rw [if_neg hnull, if_pos hmem, show old.base - headerSize = old.addr from
        Nat.add_sub_cancel .., h.heap.bucketAt hold (.inl hplace)]
      dsimp only
      rw [hmalloc]
      exact ⟨_, _, rfl, rfl, ⟨_, _, hmove⟩, ⟨⟨b, old, update_self .., rfl⟩, rfl⟩,
        fun _ c hc _ _ k hk => hdata _ (h.mapped_data hc hk)⟩
  | proceed t =>
    unfold System.step
    dsimp only
    cases hpc : s.pc t with
    | out => exact absurd hpc hlegal
    | popped b size old =>
      obtain ⟨hb, -, hnot⟩ := h.not_allocated (t := t) (b := b) (by rw [hpc]; rfl)
      have hsize := h.fits t b size old hpc
      cases old with
      | none =>
        exact ⟨_, _, rfl, rfl, ⟨_, _, h.returned hpc⟩,
          ⟨b, size, none, hpc, hb, rfl, hsize, hnot, rfl, nofun⟩, fun _ => h.keeps_proceed hpc⟩
      | some old =>
        refine ⟨_, _, rfl, rfl, h.reallocated hpc, ⟨b, size, some old, hpc, ?_, rfl, hsize, hnot,
          rfl, fun o ho k hk => ?_⟩, fun _ => h.keeps_moved hpc⟩
        · rw [h.proceed_eq hpc]
          exact hb
        · obtain rfl := some.inj ho
          exact h.moved_data hpc hk
  | store base i byte =>
    obtain ⟨hmem, b, hb, rfl, hi⟩ := hlegal
    unfold System.step
    dsimp only
    rw [if_pos hmem, show b.base - headerSize = b.addr from Nat.add_sub_cancel ..,
      h.heap.bucketAt hb (.inl ((h.base_mem hb).1 hmem))]
    dsimp only
    rw [if_pos (show i + headerSize < 2 ^ (b.bucket + 3) from hi)]
    exact ⟨_, _, rfl, rfl, ⟨_, _, h.stored hb hi byte⟩, rfl, fun hne => absurd rfl (hne _ _ _)⟩

omit [PageSize] [MallocFreeList] in
theorem mem_carve {size i n a : ℕ} {s : Heap} {c : Block} (hc : c ∈ s.carved) :
    c ∈ (Heap.carve size i n a s).carved := by
  induction n generalizing s a with
  | zero => exact hc
  | succ n ih => exact ih (mem_cons_of_mem _ hc)

omit [MallocFreeList] in
theorem mem_moreMemory (s : Heap) (i addr : ℕ) :
    (⟨addr, i⟩ : Block) ∈ (s.moreMemory (2 ^ (i + 3)) i addr).carved := by
  unfold Heap.moreMemory
  have hcount : 0 < if 2 ^ (i + 3) ≤ pageSize then pageSize / 2 ^ (i + 3) else 1 := by
    split
    · next hle => exact Nat.div_pos hle (Nat.two_pow_pos _)
    · exact one_pos
  obtain ⟨n, hn⟩ := Nat.exists_eq_add_of_lt hcount
  rw [hn, Nat.zero_add]
  unfold Heap.carve
  exact mem_carve mem_cons_self

variable {r : Result}

omit [MallocFreeList] in
theorem canServe_of_malloc {vm : Option ℕ} {old : Option Block} {s' : System}
    (hpos : 0 < size.toInt) (hmalloc : s.malloc t size vm old = some (r, s'))
    (hblocks : ∀ b ∈ s'.heap.carved, 0 < b.addr) : CanServe s size vm := by
  unfold System.malloc at hmalloc
  rw [if_neg (by omega), findBucket_malloc hpos] at hmalloc
  split at hmalloc
  · next hsize =>
    have hbucket := bucketFor_lt hsize
    have hpow : 2 ^ (bucketFor size + 3) < 2 ^ 32 :=
      Nat.pow_lt_pow_right (by norm_num) (by unfold nbuckets at hbucket; omega)
    rw [bind_some] at hmalloc
    dsimp only at hmalloc
    rw [BitVec.toNat_ofNat, Nat.mod_eq_of_lt hpow] at hmalloc
    refine ⟨hsize, fun hhead => ?_⟩
    obtain ⟨⟨a, heap⟩, htake, heq⟩ := map_eq_some_iff.1 hmalloc
    have hcarved : s'.heap.carved = heap.carved := by
      dsimp only at heq
      split at heq
      all_goals
        obtain ⟨-, rfl⟩ := Prod.mk.inj heq
        rfl
    unfold Heap.take at htake
    dsimp only at htake
    rw [if_pos hhead] at htake
    cases vm with
    | none => cases htake
    | some addr =>
      refine ⟨addr, rfl, fun haddr => ?_⟩
      have hmem : (⟨addr, bucketFor size⟩ : Block) ∈ heap.carved := by
        have hmore := mem_moreMemory s.heap (bucketFor size) addr
        dsimp only at htake
        split at htake
        all_goals
          obtain ⟨-, rfl⟩ := Prod.mk.inj (some.inj htake)
          exact hmore
      rw [← hcarved] at hmem
      exact absurd haddr (hblocks _ hmem).ne'
  · cases hmalloc

omit [PageSize] in
theorem carved_free (s : System) (base : ℕ) : (s.free base).heap.carved = s.heap.carved := by
  unfold System.free
  split <;> rfl

theorem fits_of_spec (h : s.Sound place free) {s' a' : System}
    (hstep : s.step e = some (r, s')) (hspec : spec s e r a' s') : Fits s e := by
  obtain ⟨-, ⟨place', free', hsound⟩, hserves, -⟩ := hspec
  cases e with
  | malloc t size vm =>
    intro hpos
    unfold System.step at hstep
    dsimp only at hstep
    split at hstep
    · exact canServe_of_malloc hpos hstep hsound.heap.pos
    · cases hstep
  | realloc t oldBase newSize vm =>
    intro hnull
    unfold System.step at hstep
    dsimp only at hstep
    split at hstep
    · split at hstep
      · next hmem =>
        obtain ⟨old, hold, rfl, hplace⟩ := (h.allocated_iff oldBase).1 hmem
        rw [show old.base - headerSize = old.addr from Nat.add_sub_cancel ..,
          h.heap.bucketAt hold (.inl hplace)] at hstep
        obtain ⟨⟨r₀, s₀⟩, hmalloc, heq⟩ := map_eq_some_iff.1 hstep
        have hcarved : s'.heap.carved = s₀.heap.carved := by
          cases r₀ with
          | returns base =>
            obtain ⟨-, rfl⟩ := Prod.mk.inj heq
            exact carved_free s₀ old.base
          | taken | done =>
            obtain ⟨-, rfl⟩ := Prod.mk.inj heq
            rfl
        have hpos : 0 < newSize.toInt := by
          by_contra hneg
          unfold System.malloc at hmalloc
          rw [if_pos (not_lt.1 hneg)] at hmalloc
          obtain ⟨rfl, rfl⟩ := Prod.mk.inj (some.inj hmalloc)
          obtain ⟨rfl, rfl⟩ := Prod.mk.inj heq
          have hsame := congrArg (List.length ∘ System.allocated) hserves.2
          rw [h.free_eq hold (.inl hplace)] at hsame
          have hlength := length_erase_of_mem hmem
          have hsome := length_pos_of_mem hmem
          simp only [comp_apply] at hsame
          omega
        refine ⟨hpos, canServe_of_malloc hpos hmalloc ?_⟩
        rw [← hcarved]
        exact hsound.heap.pos
      · cases hstep
    · cases hstep
  | free t base => trivial
  | proceed t => trivial
  | store base i byte => trivial

end System

/-- At first the allocator has no memory, and no thread is in it. -/
def start (mem : Mem) (mapped : ℕ → Bool) : System where
  heap := ⟨mem, mapped, fun _ => 0, []⟩
  pc _ := .out
  allocated := []

theorem start_sound [MallocFreeList] (mem : Mem) (mapped : ℕ → Bool) :
    (start mem mapped).Sound (fun _ => .free) fun _ => [] where
  heap := ⟨nofun, nofun, nofun, nofun, .nil, fun _ => rfl, fun _ _ => iff_of_false nofun nofun,
    nofun⟩
  nodup := .nil
  allocated_iff _ := iff_of_false nofun nofun
  taken_iff _ _ := iff_of_false nofun nofun
  moving_iff _ _ := iff_of_false nofun nofun
  fits _ _ _ _ := nofun

/-- In every run of calls with blocks that are allocated, the calls are sound exactly if each
positive size has a block size, memory can be obtained, and `realloc` is not asked for a size that
is not positive. -/
theorem malloc_sound [PageSize] [MallocFreeList] (mem : Mem) (mapped : ℕ → Bool) (es : List Event)
    (hes : Along System.step Legal (start mem mapped) es) :
    Does System.step spec (start mem mapped) (start mem mapped) es ↔
      Along System.step Fits (start mem mapped) es := by
  refine Does.iff_along_of (fun s a => a = s ∧ ∃ place free, s.Sound place free) ?_ ?_
    ⟨rfl, _, _, start_sound mem mapped⟩ hes
  · rintro _ s e ⟨rfl, place, free, h⟩ hlegal hfits
    obtain ⟨r, s', hstep, hspec⟩ := step_spec h hlegal hfits
    exact ⟨r, s', s', hstep, hspec, rfl, hspec.2.1⟩
  · rintro _ s e r s' a' ⟨rfl, place, free, h⟩ hstep hspec
    exact ⟨fits_of_spec h hstep hspec, hspec.1, hspec.2.1⟩

local instance fourKilobytes : PageSize := pages4096

local instance dataSegment : MallocFreeList := ⟨0x8000, by decide⟩

/-- A block of two pages is allocated, made bigger and given back. -/
def growRun : List Event :=
  [.malloc 0 5000 (some 0x10000), .proceed 0, .realloc 1 0x10004 9000 (some 0x20000), .proceed 1,
    .free 0 0x20004]

theorem growRun_legal : Along System.step Legal (start (fun _ => 0) fun _ => false) growRun := by
  have h5000 : amount (2 ^ (bucketFor 5000 + 3)) = 0x2000 := by decide +kernel
  have h9000 : amount (2 ^ (bucketFor 9000 + 3)) = 0x4000 := by decide +kernel
  refine ⟨⟨rfl, fun addr haddr => ?_⟩, fun r hr => ?_⟩
  · obtain rfl := some.inj haddr
    exact ⟨by rw [h5000]; norm_num, fun _ _ _ => rfl⟩
  · obtain rfl := some.inj hr
    refine ⟨nofun, fun r hr => ?_⟩
    obtain rfl := some.inj hr
    refine ⟨⟨rfl, .inr mem_cons_self, fun addr haddr => ?_⟩, fun r hr => ?_⟩
    · obtain rfl := some.inj haddr
      refine ⟨by rw [h9000]; norm_num, fun a ha _ => ?_⟩
      have hold : decide (0x10000 ≤ a ∧ a < 0x10000 + amount (2 ^ (bucketFor 5000 + 3))) =
          false := by
        rw [h5000, decide_eq_false_iff_not]
        omega
      exact hold
    · obtain rfl := some.inj hr
      refine ⟨nofun, fun r hr => ?_⟩
      obtain rfl := some.inj hr
      exact ⟨⟨rfl, .inr mem_cons_self⟩, fun _ _ => trivial⟩

theorem malloc_sound_growRun :
    Does System.step spec (start (fun _ => 0) fun _ => false) (start (fun _ => 0) fun _ => false)
      growRun := by
  refine (malloc_sound _ _ _ growRun_legal).2 ?_
  refine ⟨fun _ => ⟨by decide, fun _ => ⟨0x10000, rfl, by norm_num⟩⟩, fun r hr => ?_⟩
  obtain rfl := some.inj hr
  refine ⟨trivial, fun r hr => ?_⟩
  obtain rfl := some.inj hr
  refine ⟨fun _ => ⟨by decide, by decide, fun _ => ⟨0x20000, rfl, by norm_num⟩⟩, fun r hr => ?_⟩
  obtain rfl := some.inj hr
  exact ⟨trivial, fun _ _ => ⟨trivial, fun _ _ => trivial⟩⟩

/-- The second half of the sizes is refused, but the old block is given back. -/
def refusedRun : List Event :=
  [.malloc 0 5000 (some 0x10000), .proceed 0, .realloc 1 0x10004 0x80000000 none]

theorem realloc_frees : Along System.step Legal (start (fun _ => 0) fun _ => false) refusedRun ∧
    ¬ Does System.step spec (start (fun _ => 0) fun _ => false)
      (start (fun _ => 0) fun _ => false) refusedRun := by
  refine ⟨⟨growRun_legal.1, fun r hr => ?_⟩, ?_⟩
  · obtain rfl := some.inj hr
    refine ⟨nofun, fun r hr => ?_⟩
    obtain rfl := some.inj hr
    exact ⟨⟨rfl, .inr mem_cons_self, nofun⟩, fun _ _ => trivial⟩
  · rintro ⟨_, _, _, h₁, ⟨rfl, -⟩, _, _, _, h₂, ⟨rfl, -⟩, _, _, _, h₃, ⟨rfl, -, hserves, -⟩, -⟩
    obtain ⟨rfl, rfl⟩ := Prod.mk.inj (some.inj h₁)
    obtain ⟨rfl, rfl⟩ := Prod.mk.inj (some.inj h₂)
    obtain ⟨rfl, rfl⟩ := Prod.mk.inj (some.inj h₃)
    have hallocated : [] = [0x10004] := congrArg System.allocated hserves.2
    cases hallocated

end MachKernel.Cthreads.Malloc
