import MachKernel.Vm.Clip
import MachKernel.Vm.Collapse

/-! Allocating a range in an address map (`vm_map_enter`). -/

namespace MachKernel.Vm
open List VmMapEntry
open Word32 Linked

/-! ## Rounding up to a mask -/

/-- `(start + mask) & ~mask`. -/
def alignMask (start mask : ℕ) : ℕ := add start mask &&& Word32.not mask

theorem alignMask_lt (c mask : ℕ) : alignMask c mask < modulus :=
  (Nat.and_le_left).trans_lt (add_lt c mask)

variable {mask c : ℕ}

theorem alignMask_and (hm : mask < modulus) (c : ℕ) : alignMask c mask &&& mask = 0 :=
  and_not_and _ hm

theorem le_alignMask (hm : mask < modulus) (h : c + mask < modulus) : c ≤ alignMask c mask := by
  have hsum := and_not_add_and (add_lt c mask) hm
  have hle : add c mask &&& mask ≤ mask := Nat.and_le_right
  rw [add_of_lt h] at hsum hle
  unfold alignMask
  rw [add_of_lt h]
  omega

theorem alignMask_lt_of_wrap (hc : c < modulus) (hm : mask < modulus)
    (h : modulus ≤ c + mask) : alignMask c mask < c := by
  have hle : alignMask c mask ≤ add c mask := Nat.and_le_left
  rw [add_of_ge hc hm h] at hle
  omega

section
variable [PageSize] {α : Type*}

theorem pageAligned_alignMask {c mask : ℕ} (hc : PageAligned c) (hm : mask < modulus) :
    PageAligned (alignMask c mask) := by
  have hlow : add c mask % pageSize = mask % pageSize := by
    unfold add
    rw [Nat.mod_mod_of_dvd _ pageSize_dvd_modulus, Nat.add_mod, Nat.mod_eq_zero_of_dvd hc]
    simp
  have hzero : alignMask c mask &&& pageMask = 0 := by
    apply Nat.eq_of_testBit_eq
    intro i
    have hbit : (add c mask % pageSize).testBit i = (mask % pageSize).testBit i := by rw [hlow]
    simp only [pageSize, Nat.testBit_mod_two_pow] at hbit
    simp only [alignMask, pageMask, pageSize, Nat.testBit_and, Nat.zero_testBit, testBit_not hm,
      Nat.testBit_two_pow_sub_one]
    by_cases hi : i < PageSize.pageShift
    · simp only [hi, decide_true, Bool.true_and] at hbit
      rw [hbit]
      cases mask.testBit i <;> simp
    · simp [hi]
  rw [and_pageMask] at hzero
  exact Nat.dvd_of_mod_eq_zero hzero

/-! ## Extending the object below -/

/-- The pages that `vm_object_page_remove` takes out one lookup at a time. -/
def pageRemoveLookup (ob : VmObject α) (start : ℕ) : ℕ → VmObject α
  | 0 => ob
  | n + 1 => pageRemoveLookup (ob.pageFree start) (add start pageSize) n

def vmObjectPageRemove (ob : VmObject α) (start stop : ℕ) : VmObject α :=
  if atop (sub stop start) < ob.memq.length / 16 then
    pageRemoveLookup ob start (if start < stop then (stop - start + pageMask) / pageSize else 0)
  else
    { ob with
      memq := ob.memq.filter fun p => ¬ (start ≤ p.offset ∧ p.offset < stop)
      absentCount := ob.absentCount -
        ob.memq.countP fun p => (start ≤ p.offset ∧ p.offset < stop) ∧ p.absent }

/-- `vm_object_coalesce` with no next object; `none` while the collapse has not come to its end. -/
def vmObjectCoalesce (st : ObjectStore α) (g : CollapseGlobals) (lockTry : ℕ → Bool) (turns : ℕ)
    (prevObject : Option ObjId) (prevOffset prevSize nextSize : ℕ) :
    Option (Bool × ObjectStore α) :=
  match prevObject with
  | none => some (true, st)
  | some o =>
    match st.vmObjectCollapse g lockTry prevObject turns with
    | .error _ => none
    | .ok st' =>
      match st'.objs o with
      | none => none
      | some ob =>
        if ob.refCount > 1 ∨ ob.pagerCreated ∨ ob.shadow.isSome ∨ ob.copy.isSome then
          some (false, st')
        else
          let newSize := add (add prevOffset prevSize) nextSize
          let ob' := vmObjectPageRemove ob (add prevOffset prevSize) newSize
          some (true, st'.set o { ob' with size := max newSize ob'.size })

/-! ## The search for a range -/

structure EnterArgs where
  size : ℕ
  mask : ℕ
  anywhere : Bool
  object : Option ObjId
  offset : ℕ
  needsCopy : Bool
  curProtection : VmProt
  maxProtection : VmProt
  inheritance : VmInherit

/-- How one pass from `StartAgain` ends: it waits for space, it returns, or its collapse of the
object below has not come to its end. -/
inductive EnterPass (α : Type*)
  | wait (m : VmMap)
  | ret (kr : KernReturn) (address : ℕ) (m : VmMap) (st : ObjectStore α)
  | collapsing

/-- The loop that looks for room after `entry`: the address found and the entry before it. -/
def findSpace (size mask maxOffset : ℕ) : ℕ → Option ℕ → List VmMapEntry → Option (ℕ × Option ℕ)
  | start, entry, post =>
    let start' := alignMask start mask
    let stop := add start' size
    if maxOffset < stop ∨ stop < start' then none
    else
      match post with
      | [] => some (start', entry)
      | next :: rest =>
        if stop ≤ next.vmeStart then some (start', entry)
        else findSpace size mask maxOffset next.vmeEnd (some next.id) rest

namespace VmMap

/-- `entry->vme_end`, that of the header being the upper bound of the map. -/
def vmeEndOf (m : VmMap) (place : Option ℕ) : ℕ :=
  match place.bind fun i => m.entries.find? fun e => e.id = i with
  | none => m.maxOffset
  | some e => e.vmeEnd

/-- Where the search begins: after the hint for the first free space, or after the entry at the
address asked for. -/
def searchStart (m : VmMap) (start : ℕ) : ℕ × Option ℕ × VmMap :=
  if start = m.minOffset then
    match m.firstFree with
    | none => (start, none, m)
    | some i => (m.vmeEndOf (some i), some i, m)
  else
    let (found, entry, m') := m.lookupEntry start
    (if found then m'.vmeEndOf entry else start, entry, m')

/-- The neighbour below may be extended as far as its map entry is concerned. -/
def extendable (args : EnterArgs) (start : ℕ) (e : VmMapEntry) : Bool :=
  args.object.isNone ∧ e.vmeEnd = start ∧ ¬ e.isAMap ∧ ¬ e.isSubMap ∧
    e.inheritance = args.inheritance ∧ e.protection = args.curProtection ∧
    e.maxProtection = args.maxProtection ∧ e.wiredCount = 0

/-- The entry below grows to `stop`. -/
def extend (m : VmMap) (e : VmMapEntry) (stop : ℕ) : VmMap :=
  { m with
    entries := update id e.id (fun e => { e with vmeEnd := stop }) m.entries
    size := add m.size (sub stop e.vmeEnd) }

def newEntry (m : VmMap) (args : EnterArgs) (start stop : ℕ) : VmMapEntry :=
  { id := m.nextId, vmeStart := start, vmeEnd := stop, object := args.object
    offset := args.offset, isAMap := false, isSubMap := false, inTransition := false
    needsWakeup := false, needsCopy := args.needsCopy, protection := args.curProtection
    maxProtection := args.maxProtection, inheritance := args.inheritance, wiredCount := 0
    userWiredCount := 0 }

/-- The new entry is linked in after the place `entry`. -/
def enterNew (m : VmMap) (args : EnterArgs) (start stop : ℕ) (entry : Option ℕ) : VmMap :=
  { m.entryLink entry (m.newEntry args start stop) with
    nextId := m.nextId + 1
    size := add m.size args.size
    firstFree := if m.firstFree = entry ∧ start ≤ m.vmeEndOf entry then some m.nextId
      else m.firstFree
    hint := some m.nextId }

/-- The range has been found: extend the entry below, or make a new one. -/
def enterAt (m : VmMap) (st : ObjectStore α) (g : CollapseGlobals) (lockTry : ℕ → Bool)
    (turns : ℕ) (args : EnterArgs) (start stop : ℕ) (entry : Option ℕ) : EnterPass α :=
  match entry.bind fun i => m.entries.find? fun e => e.id = i with
  | none => .ret .success start (m.enterNew args start stop entry) st
  | some e =>
    if extendable args start e then
      match vmObjectCoalesce st g lockTry turns e.object e.offset (sub e.vmeEnd e.vmeStart)
        (sub stop e.vmeEnd) with
      | none => .collapsing
      | some (true, st') => .ret .success start (m.extend e stop) st'
      | some (false, st') => .ret .success start (m.enterNew args start stop entry) st'
    else .ret .success start (m.enterNew args start stop entry) st

/-- `vm_map_enter` from `StartAgain` on. -/
def enterPass (m : VmMap) (st : ObjectStore α) (g : CollapseGlobals) (lockTry : ℕ → Bool)
    (turns : ℕ) (address : ℕ) (args : EnterArgs) : EnterPass α :=
  if args.anywhere then
    let m := m.lock
    let start := if address < m.minOffset then m.minOffset else address
    if m.maxOffset < start then .ret .noSpace address m st
    else
      let (start, entry, m) := m.searchStart start
      match findSpace args.size args.mask m.maxOffset start entry
        (after VmMapEntry.id entry m.entries) with
      | none =>
        if m.waitForSpace ∧ args.size ≤ sub m.maxOffset m.minOffset then .wait m
        else .ret .noSpace address m st
      | some (start, entry) =>
        m.enterAt st g lockTry turns args start (add start args.size) entry
  else if address &&& args.mask ≠ 0 then .ret .noSpace address m st
  else
    let m := m.lock
    let stop := add address args.size
    if address < m.minOffset ∨ m.maxOffset < stop ∨ stop ≤ address then
      .ret .invalidAddress address m st
    else
      let (found, entry, m) := m.lookupEntry address
      if found then .ret .noSpace address m st
      else
        match after VmMapEntry.id entry m.entries with
        | [] => m.enterAt st g lockTry turns args address stop entry
        | next :: _ =>
          if next.vmeStart < stop then .ret .noSpace address m st
          else m.enterAt st g lockTry turns args address stop entry

end VmMap

/-- A call of `vm_map_enter`. While it waits for space other threads change the map; `m` is the
map as the last pass found it. -/
inductive VmMapEnter (address : ℕ) (args : EnterArgs) :
    VmMap → ObjectStore α → VmMap → KernReturn → ℕ → VmMap → ObjectStore α → Prop
  | ret {m m' : VmMap} {st st' : ObjectStore α} {g : CollapseGlobals} {lockTry : ℕ → Bool}
      {turns address' : ℕ} {kr : KernReturn}
      (h : m.enterPass st g lockTry turns address args = .ret kr address' m' st') :
      VmMapEnter address args m st m kr address' m' st'
  | wait {m₀ m₁ m₂ m m' : VmMap} {st₀ st₂ st' : ObjectStore α} {g : CollapseGlobals}
      {lockTry : ℕ → Bool} {turns address' : ℕ} {kr : KernReturn}
      (h : m₀.enterPass st₀ g lockTry turns address args = .wait m₁)
      (hwf : m₂.WellFormed) (rest : VmMapEnter address args m₂ st₂ m kr address' m' st') :
      VmMapEnter address args m₀ st₀ m kr address' m' st'

/-- The part of `vm_map` in front of `vm_map_enter`; the object, its offset and `needsCopy` are what
the memory object or the copy of it gave. -/
def vmMapArgs (address : ℕ) (args : EnterArgs) : ℕ × EnterArgs :=
  (truncPage address, { args with size := roundPage args.size })

/-- The part of `vm_allocate` in front of `vm_map_enter`: `none` for the request of no space. -/
def vmAllocateArgs (m : VmMap) (addr size : ℕ) (anywhere : Bool) : Option (ℕ × EnterArgs) :=
  if size = 0 then none
  else some (if anywhere then m.minOffset else truncPage addr,
    { size := roundPage size, mask := 0, anywhere := anywhere, object := none, offset := 0
      needsCopy := false, curProtection := vmProtDefault, maxProtection := vmProtAll
      inheritance := vmInheritDefault })

/-! ## The gaps of a map -/

section
variable {m : VmMap} {args : EnterArgs} {lower c size mask : ℕ} {place : Option ℕ}
  {pre post : List VmMapEntry}

/-- A place at which the search may stand: the entries below end at or below `c`, which is the
lowest address allowed or the end of the entry before. -/
structure Gap (l : List VmMapEntry) (lower c : ℕ) (place : Option ℕ)
    (pre post : List VmMapEntry) : Prop where
  split : l = pre ++ post
  place : place = last VmMapEntry.id pre
  below : ∀ e ∈ pre, e.vmeEnd ≤ c
  above : ∀ e ∈ post, c ≤ e.vmeEnd
  lowerLe : lower ≤ c
  tight : c = lower ∨ ∃ init e, pre = init ++ [e] ∧ c = e.vmeEnd

/-- The search meets a gap that takes the range without the rounding passing the end of the
address space. -/
def FitsUnwrapped (size mask maxOffset : ℕ) : ℕ → List VmMapEntry → Prop
  | c, [] => c + mask < modulus ∧ alignMask c mask + size ≤ maxOffset
  | c, next :: rest =>
    (c + mask < modulus ∧ alignMask c mask + size ≤ maxOffset ∧
      alignMask c mask + size ≤ next.vmeStart) ∨
    FitsUnwrapped size mask maxOffset next.vmeEnd rest

instance FitsUnwrapped.decidable (size mask maxOffset : ℕ) :
    ∀ c post, Decidable (FitsUnwrapped size mask maxOffset c post)
  | c, [] =>
    inferInstanceAs (Decidable (c + mask < modulus ∧ alignMask c mask + size ≤ maxOffset))
  | c, next :: rest =>
    have := FitsUnwrapped.decidable size mask maxOffset next.vmeEnd rest
    inferInstanceAs (Decidable ((c + mask < modulus ∧ alignMask c mask + size ≤ maxOffset ∧
        alignMask c mask + size ≤ next.vmeStart) ∨
      FitsUnwrapped size mask maxOffset next.vmeEnd rest))

theorem Gap.next {next : VmMapEntry} (h : Gap m.entries lower c place pre (next :: post))
    (hwf : m.WellFormed) : Gap m.entries lower next.vmeEnd (some next.id) (pre ++ [next]) post := by
  have hasc := hwf.ascending
  rw [h.split, append_cons] at hasc
  refine ⟨by rw [h.split, append_cons], by simp [last], fun e he => ?_, fun e he => ?_,
    h.lowerLe.trans (h.above next mem_cons_self), .inr ⟨pre, next, rfl, rfl⟩⟩
  · rcases mem_append.mp he with he | he
    · exact (h.below e he).trans (h.above next mem_cons_self)
    · rw [mem_singleton.mp he]
  · have hlt := hwf.nonempty e (by rw [h.split]; simp [he])
    have := hasc.le_of_mem (mem_append_right pre (mem_singleton_self next)) he
    omega

omit [PageSize] in
theorem FitsUnwrapped.lt (h : FitsUnwrapped size mask m.maxOffset c post)
    (hasc : ∀ e ∈ post, c ≤ e.vmeEnd) (hchain : post.Pairwise fun a b => a.vmeEnd ≤ b.vmeEnd) :
    c + mask < modulus := by
  induction post generalizing c with
  | nil => exact h.1
  | cons next rest ih =>
    obtain ⟨hnext, hrest⟩ := pairwise_cons.mp hchain
    rcases h with h | h
    · exact h.1
    · have := ih h hnext hrest
      have := hasc next mem_cons_self
      omega

theorem VmMap.WellFormed.pairwise_end (h : m.WellFormed) :
    m.entries.Pairwise fun a b => a.vmeEnd ≤ b.vmeEnd := by
  refine h.ascending.imp_of_mem fun {a b} _ hb hab => ?_
  have := h.nonempty b hb
  omega

theorem findSpace_spec (hwf : m.WellFormed) (hsize : size < modulus)
    (h : Gap m.entries lower c place pre post) {s : ℕ} {place' : Option ℕ}
    (hfind : findSpace size mask m.maxOffset c place post = some (s, place')) :
    ∃ c' pre' post', Gap m.entries lower c' place' pre' post' ∧ s = alignMask c' mask ∧
      add s size = s + size ∧ s + size ≤ m.maxOffset ∧ (∀ e ∈ post', s + size ≤ e.vmeStart) ∧
      (FitsUnwrapped size mask m.maxOffset c post ↔ c' + mask < modulus) := by
  induction post generalizing c place pre with
  | nil =>
    rw [findSpace] at hfind
    split at hfind
    · cases hfind
    · next hno =>
      cases hfind
      have hadd := add_of_le_add (alignMask_lt c mask) hsize (by omega)
      rw [hadd] at hno
      exact ⟨c, pre, [], h, rfl, hadd, by omega, by simp, fun h' => h'.1, fun h' => ⟨h', by omega⟩⟩
  | cons next rest ih =>
    have hends : c ≤ next.vmeEnd ∧ ∀ e ∈ rest, next.vmeEnd ≤ e.vmeEnd :=
      ⟨h.above next mem_cons_self, (h.next hwf).above⟩
    rw [findSpace] at hfind
    split at hfind
    · cases hfind
    · next hno =>
      have hadd := add_of_le_add (alignMask_lt c mask) hsize (by omega)
      rw [hadd] at hno hfind
      split at hfind
      · next hfit =>
        cases hfind
        have hasc := hwf.ascending
        rw [h.split] at hasc
        refine ⟨c, pre, next :: rest, h, rfl, hadd, by omega, fun e he => ?_, fun h' => ?_,
          fun h' => .inl ⟨h', by omega, hfit⟩⟩
        · rcases mem_cons.mp he with rfl | he
          · exact hfit
          · have hle := (pairwise_cons.mp (pairwise_append.mp hasc).2.1).1 e he
            have := hwf.nonempty next (by rw [h.split]; simp)
            omega
        · refine h'.lt h.above ?_
          have := hwf.pairwise_end
          rw [h.split] at this
          exact (pairwise_append.mp this).2.1
      · next hnofit =>
        obtain ⟨c', pre', post', hgap, hs, haddr, hmax, hpost, hiff⟩ := ih (h.next hwf) hfind
        refine ⟨c', pre', post', hgap, hs, haddr, hmax, hpost, ?_⟩
        rw [← hiff, FitsUnwrapped]
        exact ⟨fun h' => h'.resolve_left fun h'' => hnofit h''.2.2, .inr⟩

variable {e : VmMapEntry} {init : List VmMapEntry}

theorem VmMap.WellFormed.vmeEndOf_last (hwf : m.WellFormed) (h : m.entries = init ++ [e] ++ post) :
    m.vmeEndOf (last VmMapEntry.id (init ++ [e])) = e.vmeEnd := by
  have hmem : e ∈ m.entries := by rw [h]; simp
  rw [VmMap.vmeEndOf, last, getLast?_concat, Option.map_some, Option.bind_some,
    hwf.distinct.find hmem]

theorem VmMap.WellFormed.searchStart_spec (hwf : m.WellFormed) (start : ℕ) :
    ∃ c place hint pre post, m.searchStart start = (c, place, m.saveHint hint) ∧
      (∀ i, hint = some i → i ∈ m.entries.map VmMapEntry.id) ∧
      Gap m.entries start c place pre post := by
  have hend : ∀ e ∈ m.entries, m.minOffset ≤ e.vmeEnd := fun e he => by
    have := hwf.nonempty e he
    have := (hwf.inside e he).1
    omega
  -- after the entry before the gap the search begins at its end
  have hafter : ∀ {init e post}, m.entries = init ++ [e] ++ post → start ≤ e.vmeEnd →
      Gap m.entries start e.vmeEnd (last VmMapEntry.id (init ++ [e])) (init ++ [e]) post := by
    intro init e post h hle
    have hp := hwf.pairwise_end
    rw [h] at hp
    obtain ⟨hp₁, -, hp₂⟩ := pairwise_append.mp hp
    refine ⟨h, rfl, fun a ha => ?_, fun a ha => hp₂ e (by simp) a ha, hle, .inr ⟨_, _, rfl, rfl⟩⟩
    rcases mem_append.mp ha with ha | ha
    · exact (pairwise_append.mp hp₁).2.2 a ha e (mem_singleton_self e)
    · rw [mem_singleton.mp ha]
  unfold VmMap.searchStart
  split_ifs with hmin
  · cases hf : m.firstFree with
    | none =>
      exact ⟨start, none, m.hint, [], m.entries, rfl, hwf.hint, rfl, rfl, by simp,
        fun e he => hmin ▸ hend e he, le_refl _, .inl rfl⟩
    | some i =>
      obtain ⟨init, e, post, h, rfl⟩ := mem_split_of_name (hwf.firstFree i hf)
      rw [append_cons] at h
      have hplace : some e.id = last VmMapEntry.id (init ++ [e]) := by simp [last]
      refine ⟨e.vmeEnd, some e.id, m.hint, init ++ [e], post, ?_, hwf.hint, ?_⟩
      · simp only [hplace, hwf.vmeEndOf_last h]
        rfl
      · rw [hplace]
        exact hafter h (hmin ▸ hend e (by rw [h]; simp))
  · obtain ⟨found, hint, pre, post, hlook, hhint, hsplit, hpost, hcase⟩ :=
      hwf.lookupEntry_spec start
    simp only [hlook]
    rcases hcase with ⟨rfl, hpre⟩ | ⟨rfl, init, e, rfl, -, -, hlt⟩
    · refine ⟨start, _, hint, pre, post, rfl, hhint, hsplit, rfl, hpre, fun e he => ?_, le_refl _,
        .inl rfl⟩
      have := hpost e he
      have := hwf.nonempty e (by rw [hsplit]; simp [he])
      omega
    · refine ⟨e.vmeEnd, _, hint, init ++ [e], post, ?_, hhint, hafter hsplit hlt.le⟩
      rw [if_pos rfl, (hwf.saveHint hhint).vmeEndOf_last hsplit]

/-! ## Taking the range -/

/-- What `vm_map_enter` promises of a range: the map stays well formed and grows by the range. -/
structure EnterOk (m m' : VmMap) (requested address size mask : ℕ) : Prop where
  wellFormed : m'.WellFormed
  nonempty : 0 < size
  inside : m.minOffset ≤ address ∧ address + size ≤ m.maxOffset
  masked : address &&& mask = 0
  requested : requested ≤ address
  free : ∀ x, address ≤ x → x < address + size → ¬ m.Maps x
  grew : ∀ x, m'.Maps x ↔ m.Maps x ∨ address ≤ x ∧ x < address + size

/-- A range that lies free between two parts of the list of entries. -/
structure FreeRange (m : VmMap) (pre post : List VmMapEntry) (start size : ℕ) : Prop where
  split : m.entries = pre ++ post
  below : ∀ e ∈ pre, e.vmeEnd ≤ start
  above : ∀ e ∈ post, start + size ≤ e.vmeStart
  inside : m.minOffset ≤ start ∧ start + size ≤ m.maxOffset
  pos : 0 < size
  aligned : PageAligned start ∧ PageAligned size

variable {start : ℕ} {m' : VmMap}

theorem FreeRange.not_maps (h : FreeRange m pre post start size) (x : ℕ) (hx : start ≤ x)
    (hx' : x < start + size) : ¬ m.Maps x := by
  rintro ⟨e, he, hle, hlt⟩
  rw [h.split] at he
  rcases mem_append.mp he with he | he
  · have := h.below e he
    omega
  · have := h.above e he
    omega

/-- The range has been taken: the map is well formed and maps it in addition. -/
structure VmMap.Takes (m m' : VmMap) (start size : ℕ) : Prop where
  wellFormed : m'.WellFormed
  minOffset : m'.minOffset = m.minOffset
  maps : ∀ x, m'.Maps x ↔ m.Maps x ∨ start ≤ x ∧ x < start + size

/-- What entries with new names, linked in on a range, make of a map. -/
structure VmMap.Links (m m' : VmMap) (pre l post : List VmMapEntry) (start size : ℕ) : Prop where
  entries : m'.entries = pre ++ l ++ post
  covers : Covers start (start + size) l
  aligned : ∀ a ∈ l, PageAligned a.vmeStart ∧ PageAligned a.vmeEnd
  names : ∀ a ∈ l, m.nextId ≤ a.id ∧ a.id < m'.nextId
  distinct : Distinct VmMapEntry.id l
  nextId : m.nextId ≤ m'.nextId
  nentries : m'.nentries = m.nentries + l.length
  size : m'.size = add m.size size
  minOffset : m'.minOffset = m.minOffset
  maxOffset : m'.maxOffset = m.maxOffset
  hint : ∀ i, m'.hint = some i → i ∈ l.map VmMapEntry.id
  firstFree : m'.firstFree = m.firstFree ∨ m'.firstFree = last VmMapEntry.id l

theorem FreeRange.links (h : FreeRange m pre post start size) (hwf : m.WellFormed)
    (hl : m.Links m' pre l post start size) : m.Takes m' start size := by
  have hseg := hwf.segment
  rw [h.split] at hseg
  have hpos := h.pos
  have hin := h.inside
  have hnew : Segment start (start + size) l :=
    ⟨hl.covers.ascending, fun a ha => (hl.covers.bounds ha).2.1, hl.aligned,
      fun a ha => ⟨(hl.covers.bounds ha).1, (hl.covers.bounds ha).2.2⟩⟩
  have hall : Segment m.minOffset m.maxOffset (pre ++ l ++ post) := by
    rw [append_assoc]
    apply (hseg.left h.below).append _ hin.1 (by omega)
    exact hnew.append (hseg.right h.above) (by omega) hin.2
  have hsum : sizeSum (pre ++ l ++ post) = m.size + size := by
    rw [hwf.size, h.split, sizeSum_append, sizeSum_append, sizeSum_append, hl.covers.sizeSum]
    omega
  have hmem : ∀ a, a ∈ m'.entries ↔ a ∈ m.entries ∨ a ∈ l := by
    intro a
    rw [hl.entries, h.split]
    simp only [mem_append]
    tauto
  have hnames : ∀ i, i ∈ m'.entries.map VmMapEntry.id ↔
      i ∈ m.entries.map VmMapEntry.id ∨ i ∈ l.map VmMapEntry.id := by
    intro i
    simp only [mem_map, hmem, or_and_right, exists_or]
  have hd : Distinct VmMapEntry.id (pre ++ l ++ post) := by
    have hperm : (pre ++ l ++ post).Perm (l ++ (pre ++ post)) := by
      rw [← append_assoc]
      exact (List.perm_append_comm).append_right post
    refine (hperm.map VmMapEntry.id).nodup_iff.mpr ?_
    rw [map_append]
    refine List.Nodup.append hl.distinct (h.split ▸ hwf.distinct) fun i hi hi' => ?_
    obtain ⟨b, hb, rfl⟩ := mem_map.mp hi
    obtain ⟨a, ha, hid⟩ := mem_map.mp hi'
    have := hwf.nextId a (h.split ▸ ha)
    have := (hl.names b hb).1
    omega
  refine ⟨⟨?_, ?_, ?_, ?_, ?_, ?_, ?_, ?_, fun a ha => ?_, fun i hi => ?_, fun i hi => ?_⟩,
    hl.minOffset, fun x => ?_⟩
  · exact hl.entries ▸ hall.ascending
  · exact hl.entries ▸ hall.nonempty
  · exact hl.entries ▸ hall.aligned
  · rw [hl.entries, hl.minOffset, hl.maxOffset]
    exact hall.inside
  · rw [hl.nentries, hwf.nentries, hl.entries, h.split]
    simp only [length_append]
    omega
  · have hle := hall.sizeSum_le hwf.bounds.1
    have hmax := hwf.bounds.2.1
    rw [hl.size, hl.entries, hsum]
    exact add_of_lt (by omega)
  · rw [hl.minOffset, hl.maxOffset]
    exact hwf.bounds
  · exact hl.entries ▸ hd
  · rcases (hmem a).mp ha with ha | ha
    · exact (hwf.nextId a ha).trans_le hl.nextId
    · exact (hl.names a ha).2
  · exact (hnames i).mpr (.inr (hl.hint i hi))
  · rw [hnames]
    rcases hl.firstFree with hf | hf
    · exact .inl (hwf.firstFree i (hf ▸ hi))
    · exact .inr (last_mem (hf ▸ hi))
  · have hcov := hl.covers.mem_iff x
    simp only [VmMap.Maps, hmem, or_and_right, exists_or]
    rw [hcov]

omit [PageSize] in
theorem VmMap.enterNew_entries (hd : Distinct VmMapEntry.id (pre ++ post))
    (h : m.entries = pre ++ post) (stop : ℕ) :
    (m.enterNew args start stop (last VmMapEntry.id pre)).entries =
      pre ++ m.newEntry args start stop :: post := by
  simp only [VmMap.enterNew, VmMap.entryLink, h]
  exact insertAfter_last hd _

theorem FreeRange.single (h : FreeRange m pre post start size) (hwf : m.WellFormed)
    (he : e.id = m.nextId ∧ e.vmeStart = start ∧ e.vmeEnd = start + size)
    (hentries : m'.entries = (m.entryLink (last VmMapEntry.id pre) e).entries)
    (hcounts : m'.nentries = m.nentries + 1 ∧ m'.size = add m.size size ∧ m'.nextId = m.nextId + 1)
    (hbounds : m'.minOffset = m.minOffset ∧ m'.maxOffset = m.maxOffset)
    (hhint : m'.hint = some m.nextId)
    (hfree : m'.firstFree = m.firstFree ∨ m'.firstFree = some m.nextId) :
    m'.entries = pre ++ e :: post ∧ m.Takes m' start size := by
  have hd : Distinct VmMapEntry.id (pre ++ post) := h.split ▸ hwf.distinct
  have hpos := h.pos
  obtain ⟨hid, hs, hend⟩ := he
  have hlinked : m'.entries = pre ++ e :: post := by
    rw [hentries, VmMap.entryLink, h.split]
    exact insertAfter_last hd e
  refine ⟨hlinked, h.links (l := [e]) hwf ⟨?_, ⟨hs, by omega, hend⟩, fun a ha => ?_,
    fun a ha => ?_, nodup_singleton _, by omega, hcounts.1, hcounts.2.1, hbounds.1, hbounds.2,
    fun i hi => ?_, ?_⟩⟩
  · rw [hlinked, append_cons]
  · rw [mem_singleton.mp ha, hs, hend]
    exact ⟨h.aligned.1, Nat.dvd_add h.aligned.1 h.aligned.2⟩
  · rw [mem_singleton.mp ha, hid]
    omega
  · rw [hhint] at hi
    simpa [hid] using hi.symm
  · simpa [last, hid] using hfree

theorem FreeRange.enterNew (h : FreeRange m pre post start args.size) (hwf : m.WellFormed) :
    (m.enterNew args start (start + args.size) (last VmMapEntry.id pre)).WellFormed ∧
    ∀ x, (m.enterNew args start (start + args.size) (last VmMapEntry.id pre)).Maps x ↔
      m.Maps x ∨ start ≤ x ∧ x < start + args.size := by
  have hfree : (m.enterNew args start (start + args.size) (last VmMapEntry.id pre)).firstFree =
      m.firstFree ∨ (m.enterNew args start (start + args.size) (last VmMapEntry.id pre)).firstFree =
      some m.nextId := by
    simp only [VmMap.enterNew]
    split_ifs
    · exact .inr rfl
    · exact .inl rfl
  generalize hm' : m.enterNew args start (start + args.size) (last VmMapEntry.id pre) = m' at *
  have ht : m.Takes m' start args.size := by
    refine (h.single (e := m.newEntry args start (start + args.size)) hwf ⟨rfl, rfl, rfl⟩
      ?_ ?_ ?_ ?_ hfree).2
    all_goals rw [← hm']
    · rfl
    · exact ⟨rfl, rfl, rfl⟩
    · exact ⟨rfl, rfl⟩
    · rfl
  exact ⟨ht.wellFormed, ht.maps⟩

theorem FreeRange.grow {e' : VmMapEntry}
    (h : FreeRange m (init ++ [e]) post start size) (hwf : m.WellFormed) (hend : e.vmeEnd = start)
    (he : e'.id = e.id ∧ e'.vmeStart = e.vmeStart ∧ e'.vmeEnd = start + size)
    (hentries : m'.entries = init ++ [e'] ++ post)
    (hcounts : m'.nentries = m.nentries ∧ m'.size = add m.size size ∧ m'.nextId = m.nextId)
    (hbounds : m'.minOffset = m.minOffset ∧ m'.maxOffset = m.maxOffset)
    (hhint : m'.hint = m.hint ∨ m'.hint = some e.id)
    (hfree : m'.firstFree = m.firstFree ∨ m'.firstFree = some e.id) : m.Takes m' start size := by
  have hsplit : m.entries = init ++ e :: post := by rw [h.split, append_assoc]; rfl
  rw [append_assoc, singleton_append] at hentries
  have hids : m'.entries.map VmMapEntry.id = m.entries.map VmMapEntry.id := by
    rw [hentries, hsplit]
    simp only [map_append, map_cons, he.1]
  have hmem : e ∈ m.entries := by rw [hsplit]; simp
  have hname : e.id ∈ m'.entries.map VmMapEntry.id := hids ▸ mem_map_of_mem hmem
  have hlt := hwf.nonempty e hmem
  have hin := hwf.inside e hmem
  have hpos := h.pos
  have hbelow : ∀ a ∈ init, a.vmeEnd ≤ e.vmeStart := fun a ha => by
    have hasc := hwf.ascending
    rw [hsplit] at hasc
    exact hasc.le_of_mem ha mem_cons_self
  have hall : Segment m.minOffset m.maxOffset (init ++ e' :: post) := by
    have hseg := hwf.segment
    have hgrown : Segment e.vmeStart (start + size) [e'] :=
      Segment.single he.2.1 he.2.2 (by omega) (hwf.aligned e hmem).1
        (Nat.dvd_add h.aligned.1 h.aligned.2)
    rw [h.split] at hseg
    have hinit : Segment m.minOffset m.maxOffset (init ++ ([e] ++ post)) := by
      rwa [← append_assoc]
    apply (hinit.left hbelow).append _ hin.1 (by omega)
    exact hgrown.append (hseg.right h.above) (by omega) h.inside.2
  have hsum : sizeSum (init ++ e' :: post) = m.size + size := by
    rw [hwf.size, hsplit, sizeSum_append, sizeSum_append, sizeSum_cons, sizeSum_cons]
    omega
  have hle := hall.sizeSum_le hwf.bounds.1
  rw [← hentries] at hall hsum hle
  refine ⟨⟨hall.ascending, hall.nonempty, hall.aligned, ?_, ?_, ?_, ?_, ?_, fun a ha => ?_,
    fun i hi => ?_, fun i hi => ?_⟩, hbounds.1, fun x => ?_⟩
  · rw [hbounds.1, hbounds.2]
    exact hall.inside
  · rw [hcounts.1, hwf.nentries, ← length_map VmMapEntry.id, ← hids, length_map]
  · have hmax := hwf.bounds.2.1
    rw [hcounts.2.1, hsum]
    exact add_of_lt (by omega)
  · rw [hbounds.1, hbounds.2]
    exact hwf.bounds
  · unfold Distinct
    rw [hids]
    exact hwf.distinct
  · have ha' : a.id ∈ m.entries.map VmMapEntry.id := hids ▸ mem_map_of_mem ha
    obtain ⟨b, hb, heq⟩ := mem_map.mp ha'
    rw [hcounts.2.2, ← heq]
    exact hwf.nextId b hb
  · rcases hhint with hhint | hhint
    · rw [hids]
      exact hwf.hint i (hhint ▸ hi)
    · rw [hhint] at hi
      exact Option.some.inj hi ▸ hname
  · rcases hfree with hfree | hfree
    · rw [hids]
      exact hwf.firstFree i (hfree ▸ hi)
    · rw [hfree] at hi
      exact Option.some.inj hi ▸ hname
  · simp only [VmMap.Maps, hentries, hsplit, mem_append, mem_cons]
    constructor
    · rintro ⟨a, ha | rfl | ha, hx⟩
      · exact .inl ⟨a, .inl ha, hx⟩
      · by_cases hlo : x < start
        · exact .inl ⟨e, .inr (.inl rfl), by omega, by omega⟩
        · exact .inr (by omega)
      · exact .inl ⟨a, .inr (.inr ha), hx⟩
    · rintro (⟨a, ha | rfl | ha, hx⟩ | hx)
      · exact ⟨a, .inl ha, hx⟩
      · exact ⟨e', .inr (.inl rfl), by omega, by omega⟩
      · exact ⟨a, .inr (.inr ha), hx⟩
      · exact ⟨e', .inr (.inl rfl), by omega, by omega⟩

theorem FreeRange.extend_entries (h : FreeRange m (init ++ [e]) post start size)
    (hwf : m.WellFormed) (stop : ℕ) :
    (m.extend e stop).entries = init ++ [{ e with vmeEnd := stop }] ++ post := by
  have hsplit : m.entries = init ++ e :: post := by rw [h.split, append_assoc]; rfl
  simp only [VmMap.extend, hsplit, append_assoc, singleton_append]
  exact update_split (hsplit ▸ hwf.distinct) _

theorem FreeRange.extend (h : FreeRange m (init ++ [e]) post start size) (hwf : m.WellFormed)
    (he : e.vmeEnd = start) : (m.extend e (start + size)).WellFormed ∧
    ∀ x, (m.extend e (start + size)).Maps x ↔ m.Maps x ∨ start ≤ x ∧ x < start + size := by
  have hsub : sub (start + size) e.vmeEnd = size := by
    have := h.inside
    have := hwf.bounds.2.1
    rw [sub_of_le (by omega) (by omega), he, Nat.add_sub_cancel_left]
  have ht : m.Takes (m.extend e (start + size)) start size := by
    refine h.grow hwf he ?_ (h.extend_entries hwf _) ⟨rfl, ?_, rfl⟩ ⟨rfl, rfl⟩ (.inl rfl) (.inl rfl)
    · exact ⟨rfl, rfl, rfl⟩
    · rw [VmMap.extend, hsub]
  exact ⟨ht.wellFormed, ht.maps⟩

end

/-! ## A call that succeeds -/

section
variable {m m' : VmMap} {st st' : ObjectStore α} {g : CollapseGlobals} {lockTry : ℕ → Bool}
  {turns : ℕ} {args : EnterArgs} {kr : KernReturn} {address address' start : ℕ}
  {pre post : List VmMapEntry}

omit [PageSize] in
theorem VmMap.distinct_find (hd : Distinct VmMapEntry.id m.entries)
    {e : VmMapEntry} {init : List VmMapEntry} (h : m.entries = init ++ [e] ++ post) :
    m.entries.find? (fun a => a.id = e.id) = some e := hd.find (by rw [h]; simp)

variable {stop c : ℕ} {place : Option ℕ}

theorem VmMap.enterAt_cases (hwf : m.WellFormed) (hsplit : m.entries = pre ++ post)
    (h : m.enterAt st g lockTry turns args start stop (last VmMapEntry.id pre) =
      .ret kr address' m' st') : kr = .success ∧ address' = start ∧
      (m' = m.enterNew args start stop (last VmMapEntry.id pre) ∨
        ∃ init e, pre = init ++ [e] ∧ e.vmeEnd = start ∧ m' = m.extend e stop) := by
  unfold enterAt at h
  split at h
  · cases h
    exact ⟨rfl, rfl, .inl rfl⟩
  · next e he =>
    obtain ⟨init, hpre⟩ : ∃ init, pre = init ++ [e] := by
      rcases List.eq_nil_or_concat' pre with rfl | ⟨init, a, rfl⟩
      · simp [last] at he
      · rw [last, getLast?_concat, Option.map_some, Option.bind_some,
          VmMap.distinct_find hwf.distinct hsplit] at he
        cases he
        exact ⟨init, rfl⟩
    split at h
    · next hext =>
      have hend : e.vmeEnd = start := by
        unfold extendable at hext
        simp only [Bool.decide_and, Bool.and_eq_true, decide_eq_true_eq] at hext
        exact hext.2.1
      split at h
      · cases h
      · cases h
        exact ⟨rfl, rfl, .inr ⟨init, e, hpre, hend, rfl⟩⟩
      · cases h
        exact ⟨rfl, rfl, .inl rfl⟩
    · cases h
      exact ⟨rfl, rfl, .inl rfl⟩

theorem FreeRange.enterAt (h : FreeRange m pre post start args.size) (hwf : m.WellFormed)
    (hret : m.enterAt st g lockTry turns args start (start + args.size)
      (last VmMapEntry.id pre) = .ret kr address' m' st') : address' = start ∧ m'.WellFormed ∧
      ∀ x, m'.Maps x ↔ m.Maps x ∨ start ≤ x ∧ x < start + args.size := by
  obtain ⟨-, haddr, rfl | ⟨init, e, rfl, hend, rfl⟩⟩ := VmMap.enterAt_cases hwf h.split hret
  · exact ⟨haddr, h.enterNew hwf⟩
  · exact ⟨haddr, h.extend hwf hend⟩

theorem VmMap.enterAt_not_wellFormed (hwf : m.WellFormed) {init : List VmMapEntry}
    {e : VmMapEntry} (hsplit : m.entries = init ++ [e] ++ post) (hlt : start < e.vmeEnd)
    (h : m.enterAt st g lockTry turns args start stop (last VmMapEntry.id (init ++ [e])) =
      .ret kr address' m' st') : ¬ m'.WellFormed := by
  obtain ⟨-, -, rfl | ⟨init', e', hpre, hend, -⟩⟩ := VmMap.enterAt_cases hwf hsplit h
  · intro hbad
    have hasc := hbad.ascending
    rw [VmMap.enterNew_entries (hsplit ▸ hwf.distinct) hsplit stop] at hasc
    have hle : e.vmeEnd ≤ start :=
      hasc.le_of_mem (mem_append_right init (mem_singleton_self e)) mem_cons_self
    omega
  · obtain ⟨-, heq⟩ := List.append_inj' hpre rfl
    cases heq
    omega

/-- A call that is for a range at the address given finds it free. -/
theorem VmMap.WellFormed.enterPass_address (hwf : m.WellFormed) (ha : address < modulus)
    (haa : PageAligned address) (hs : args.size < modulus) (hsa : PageAligned args.size)
    (hfix : args.anywhere = false)
    (h : m.enterPass st g lockTry turns address args = .ret .success address' m' st') :
    address &&& args.mask = 0 ∧ ∃ hint pre post,
      (∀ i, hint = some i → i ∈ m.entries.map VmMapEntry.id) ∧
      FreeRange (m.lock.saveHint hint) pre post address args.size ∧
      (m.lock.saveHint hint).enterAt st g lockTry turns args address (address + args.size)
        (last VmMapEntry.id pre) = .ret .success address' m' st' := by
  unfold VmMap.enterPass at h
  rw [hfix, if_neg Bool.false_ne_true] at h
  obtain ⟨found, hint, pre, post, hlook, hhint, hsplit, hpost, hcase⟩ :=
    hwf.lock.lookupEntry_spec address
  split at h
  · cases h
  next hmask =>
  simp only at h
  split at h
  · cases h
  next hbad =>
  simp only [hlook] at h
  have hstop : add address args.size = address + args.size := add_of_le_add ha hs (by omega)
  rw [hstop] at h hbad
  have hin : m.minOffset ≤ address ∧ address + args.size ≤ m.maxOffset ∧ 0 < args.size := by
    simp only [VmMap.lock] at hbad
    omega
  -- every way on from here takes the range between the two parts of the list
  obtain ⟨hfound, habove, hret⟩ : found = false ∧
      (∀ e ∈ post, address + args.size ≤ e.vmeStart) ∧
      (m.lock.saveHint hint).enterAt st g lockTry turns args address (address + args.size)
        (last VmMapEntry.id pre) = .ret .success address' m' st' := by
    have hafter : after VmMapEntry.id (last VmMapEntry.id pre) (m.lock.saveHint hint).entries =
        post := by
      have hd := hwf.lock.distinct
      rw [hsplit] at hd
      have hs' : (m.lock.saveHint hint).entries = pre ++ post := hsplit
      rw [hs', after_last hd]
    rw [hafter] at h
    split at h
    · cases h
    next hfound =>
    refine ⟨by simpa using hfound, ?_⟩
    cases post with
    | nil => exact ⟨by simp, h⟩
    | cons next rest =>
      simp only at h
      split at h
      · cases h
      have hseg := hwf.lock.segment
      rw [hsplit] at hseg
      exact ⟨(hseg.right hpost).tail_le (by omega), h⟩
  have hbelow : ∀ e ∈ pre, e.vmeEnd ≤ address := by
    rcases hcase with ⟨-, hpre⟩ | ⟨htrue, -⟩
    · exact hpre
    · rw [hfound] at htrue
      cases htrue
  exact ⟨not_not.mp hmask, hint, pre, post, hhint,
    ⟨hsplit, hbelow, habove, ⟨hin.1, hin.2.1⟩, hin.2.2, haa, hsa⟩, hret⟩

theorem VmMap.WellFormed.enterPass_fixed (hwf : m.WellFormed) (ha : address < modulus)
    (haa : PageAligned address) (hs : args.size < modulus) (hsa : PageAligned args.size)
    (hfix : args.anywhere = false)
    (h : m.enterPass st g lockTry turns address args = .ret .success address' m' st') :
    EnterOk m m' address address' args.size args.mask := by
  obtain ⟨hmask, hint, pre, post, hhint, hrange, hret⟩ :=
    hwf.enterPass_address ha haa hs hsa hfix h
  obtain ⟨rfl, hok, hgrew⟩ := hrange.enterAt (hwf.lock.saveHint hhint) hret
  exact ⟨hok, hrange.pos, hrange.inside, hmask, le_refl _, hrange.not_maps, hgrew⟩

/-- The condition under which a search for room takes the range as it should. -/
def SearchFits (m : VmMap) (address : ℕ) (args : EnterArgs) : Prop :=
  let found := m.lock.searchStart (max address m.minOffset)
  0 < args.size ∧
    FitsUnwrapped args.size args.mask m.maxOffset found.1 (after id found.2.1 m.entries)

instance (m : VmMap) (address : ℕ) (args : EnterArgs) : Decidable (SearchFits m address args) :=
  inferInstanceAs (Decidable (0 < args.size ∧ FitsUnwrapped _ _ _ _ _))

/-- A search that succeeds ends at a gap. -/
theorem VmMap.WellFormed.enterPass_gap (hwf : m.WellFormed) (hs : args.size < modulus)
    (hany : args.anywhere = true)
    (h : m.enterPass st g lockTry turns address args = .ret .success address' m' st') :
    ∃ c hint pre post, (∀ i, hint = some i → i ∈ m.entries.map VmMapEntry.id) ∧
      Gap m.entries (max address m.minOffset) c (last VmMapEntry.id pre) pre post ∧
      alignMask c args.mask + args.size ≤ m.maxOffset ∧
      (∀ e ∈ post, alignMask c args.mask + args.size ≤ e.vmeStart) ∧
      (SearchFits m address args ↔ 0 < args.size ∧ c + args.mask < modulus) ∧
      (m.lock.saveHint hint).enterAt st g lockTry turns args (alignMask c args.mask)
        (alignMask c args.mask + args.size) (last VmMapEntry.id pre) =
          .ret .success address' m' st' := by
  unfold VmMap.enterPass at h
  rw [hany, if_pos rfl] at h
  have hstart : (if address < m.lock.minOffset then m.lock.minOffset else address) =
      max address m.minOffset := by
    change (if address < m.minOffset then m.minOffset else address) = _
    by_cases hlt : address < m.minOffset
    · rw [if_pos hlt, max_eq_right hlt.le]
    · rw [if_neg hlt, max_eq_left (not_lt.mp hlt)]
  simp only [hstart] at h
  split at h
  · cases h
  obtain ⟨c, place, hint, pre, post, hsearch, hhint, hgap⟩ :=
    hwf.lock.searchStart_spec (max address m.minOffset)
  have hafter : after VmMapEntry.id place m.entries = post := by
    have hd := hwf.distinct
    have hsplit : m.entries = pre ++ post := hgap.split
    rw [hsplit] at hd
    rw [hsplit, hgap.place, after_last hd]
  have hafter' : after VmMapEntry.id place (m.lock.saveHint hint).entries = post := hafter
  simp only [SearchFits, hsearch, hafter]
  simp only [hsearch, hafter'] at h
  split at h
  · split at h <;> cases h
  next s place' hfind =>
  obtain ⟨c', pre', post', hgap', rfl, hadd, hmax, hpost, hiff⟩ :=
    findSpace_spec (m := m.lock.saveHint hint) (hwf.lock.saveHint hhint) hs hgap hfind
  have hiff' : FitsUnwrapped args.size args.mask m.maxOffset c post ↔ c' + args.mask < modulus :=
    hiff
  have hplace := hgap'.place
  subst hplace
  rw [hadd] at h
  exact ⟨c', hint, pre', post', hhint, hgap', hmax, hpost, by rw [hiff'], h⟩

theorem Gap.start_aligned (hwf : m.WellFormed) (ha : address < modulus) (haa : PageAligned address)
        (h : Gap m.entries (max address m.minOffset) c place pre post) :
    c < modulus ∧ PageAligned c := by
  have hb := hwf.bounds
  rcases h.tight with rfl | ⟨init, e, rfl, rfl⟩
  · rcases max_choice address m.minOffset with hmax | hmax <;> rw [hmax]
    · exact ⟨ha, haa⟩
    · exact ⟨by omega, hb.2.2⟩
  · have hmem : e ∈ m.entries := by
      rw [h.split]
      simp
    have := hwf.inside e hmem
    exact ⟨by omega, (hwf.aligned e hmem).2⟩

theorem Gap.freeRange {lower size : ℕ}
    (h : Gap m.entries lower c place pre post) (hlower : m.minOffset ≤ lower) (hle : c ≤ start)
    (hmax : start + size ≤ m.maxOffset) (hpost : ∀ e ∈ post, start + size ≤ e.vmeStart)
    (hpos : 0 < size) (hal : PageAligned start ∧ PageAligned size) :
    FreeRange m pre post start size :=
  ⟨h.split, fun e he => (h.below e he).trans hle, hpost,
    ⟨hlower.trans (h.lowerLe.trans hle), hmax⟩, hpos, hal⟩

theorem VmMap.WellFormed.enterPass_anywhere (hwf : m.WellFormed) (ha : address < modulus)
    (haa : PageAligned address) (hs : args.size < modulus) (hsa : PageAligned args.size)
    (hm : args.mask < modulus) (hany : args.anywhere = true)
    (h : m.enterPass st g lockTry turns address args = .ret .success address' m' st') :
    EnterOk m m' address address' args.size args.mask ↔ SearchFits m address args := by
  obtain ⟨c, hint, pre, post, hhint, hgap, hmax, hpost, hiff, h⟩ := hwf.enterPass_gap hs hany h
  have hwf' := hwf.lock.saveHint hhint
  have hc := hgap.start_aligned hwf ha haa
  rw [hiff]
  constructor
  · intro hok
    refine ⟨hok.nonempty, ?_⟩
    by_contra hwrap
    have hlt := alignMask_lt_of_wrap hc.1 hm (by omega)
    obtain ⟨-, rfl, -⟩ := VmMap.enterAt_cases hwf' hgap.split h
    rcases hgap.tight with rfl | ⟨init, e, rfl, rfl⟩
    · have := hok.requested
      have := hok.inside.1
      omega
    · exact VmMap.enterAt_not_wellFormed hwf' hgap.split hlt h hok.wellFormed
  · rintro ⟨hpos, hfit⟩
    have hle := le_alignMask hm hfit
    have hrange : FreeRange (m.lock.saveHint hint) pre post (alignMask c args.mask) args.size :=
      Gap.freeRange (m := m.lock.saveHint hint) hgap (le_max_right _ _) hle hmax hpost hpos
        ⟨pageAligned_alignMask hc.2 hm, hsa⟩
    obtain ⟨rfl, hok, hgrew⟩ := hrange.enterAt hwf' h
    exact ⟨hok, hpos, hrange.inside, alignMask_and hm c,
      (le_max_left address m.minOffset).trans (hgap.lowerLe.trans hle), hrange.not_maps, hgrew⟩

end

theorem VmMapEnter.last_pass {address address' : ℕ} {args : EnterArgs} {m₀ m m' : VmMap}
    {st₀ st' : ObjectStore α} {kr : KernReturn} (hwf : m₀.WellFormed)
    (h : VmMapEnter address args m₀ st₀ m kr address' m' st') : m.WellFormed ∧ ∃ st g lockTry turns,
      m.enterPass st g lockTry turns address args = .ret kr address' m' st' := by
  induction h with
  | ret h => exact ⟨hwf, _, _, _, _, h⟩
  | wait _ hwf' _ ih => exact ih hwf'

/-- What `vm_map_enter` needs of a request. -/
structure EnterRequest (address : ℕ) (args : EnterArgs) : Prop where
  address_lt : address < modulus
  address_aligned : PageAligned address
  size_lt : args.size < modulus
  size_aligned : PageAligned args.size
  mask_lt : args.mask < modulus

/-- For every request that the callers let through, a successful `vm_map_enter` takes the range as
it should if and only if it was asked for a fixed address, or for some room and met it without
the rounding passing the end of the address space. -/
theorem vmMapEnter_success {address address' : ℕ} {args : EnterArgs} {m₀ m m' : VmMap}
    {st₀ st' : ObjectStore α} (hwf : m₀.WellFormed) (hreq : EnterRequest address args)
    (h : VmMapEnter address args m₀ st₀ m .success address' m' st') :
    EnterOk m m' address address' args.size args.mask ↔
      (args.anywhere = true → SearchFits m address args) := by
  obtain ⟨ha, haa, hs, hsa, hm⟩ := hreq
  obtain ⟨hwf', st, g, lockTry, turns, hpass⟩ := h.last_pass hwf
  cases hany : args.anywhere with
  | false =>
    have hok := hwf'.enterPass_fixed ha haa hs hsa hany hpass
    simp [hok]
  | true =>
    rw [hwf'.enterPass_anywhere ha haa hs hsa hm hany hpass]
    simp

end

/-! ## Requests that go wrong -/

def noObjects : ObjectStore ℕ where
  objs _ := none
  next := 0
  kobject _ := none
  pagerData _ _ := none

/-- A request for the room that `vm_map` asks for with the given size and mask. -/
def anywhereArgs (size mask : ℕ) : EnterArgs where
  size := size
  mask := mask
  anywhere := true
  object := none
  offset := 0
  needsCopy := false
  curProtection := vmProtDefault
  maxProtection := vmProtAll
  inheritance := vmInheritDefault

theorem vmMapEnter_success_page : letI := pages4096
    EnterOk (VmMap.create 4096 8192)
      ((VmMap.create 4096 8192).lock.enterNew (anywhereArgs 4096 0) 4096 8192 none)
      4096 4096 4096 0 := by
  let _ := pages4096
  have hwf : (VmMap.create 4096 8192).WellFormed :=
    VmMap.create_wellFormed (by norm_num) (by norm_num) (by decide)
  have hpass : (VmMap.create 4096 8192).enterPass noObjects ⟨false, false⟩ (fun _ => true) 0 4096
      (anywhereArgs 4096 0) = .ret .success 4096
        ((VmMap.create 4096 8192).lock.enterNew (anywhereArgs 4096 0) 4096 8192 none) noObjects :=
    rfl
  exact (vmMapEnter_success hwf ⟨by norm_num, by decide, by decide, by decide, by decide⟩
    (.ret hpass)).mpr fun _ => by decide

/-- A size in the last page rounds up to no page at all, and the map gets an empty entry; an address
in the last page rounds up past the end of the address space, to a place below the map. -/
theorem vmMapEnter_wraps : letI := pages4096
    (∃ address args m', vmAllocateArgs (VmMap.create 4096 3221225472) 0 4294963201 true =
        some (address, args) ∧
      VmMapEnter address args (VmMap.create 4096 3221225472) noObjects
        (VmMap.create 4096 3221225472) .success 4096 m' noObjects ∧
      ¬ EnterOk (VmMap.create 4096 3221225472) m' address 4096 args.size args.mask) ∧
    ∃ address args m', vmMapArgs 4294959104 (anywhereArgs 4096 65535) = (address, args) ∧
      VmMapEnter address args (VmMap.create 4096 4294963200) noObjects
        (VmMap.create 4096 4294963200) .success 0 m' noObjects ∧
      ¬ EnterOk (VmMap.create 4096 4294963200) m' address 0 args.size args.mask := by
  let _ := pages4096
  have hzero : (VmMap.create 4096 3221225472).enterPass noObjects ⟨false, false⟩ (fun _ => true) 0
      4096 (anywhereArgs 0 0) = .ret .success 4096
        ((VmMap.create 4096 3221225472).lock.enterNew (anywhereArgs 0 0) 4096 4096 none)
        noObjects := rfl
  have hlow : (VmMap.create 4096 4294963200).enterPass noObjects ⟨false, false⟩ (fun _ => true) 0
      4294959104 (anywhereArgs 4096 65535) = .ret .success 0
        (((VmMap.create 4096 4294963200).lock.saveHint none).enterNew (anywhereArgs 4096 65535)
          0 4096 none) noObjects := rfl
  refine ⟨⟨4096, anywhereArgs 0 0, _, rfl, .ret hzero, fun h => ?_⟩,
    4294959104, anywhereArgs 4096 65535, _, rfl, .ret hlow, fun h => ?_⟩
  · exact absurd h.nonempty (by decide)
  · exact absurd h.inside.1 (by decide)

end MachKernel.Vm
