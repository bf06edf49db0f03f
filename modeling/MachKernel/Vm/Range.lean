import MachKernel.Vm.Refs

/-! Operations on a range of addresses: `vm_map_protect` and `vm_map_inherit`, and what every page
of the map looks like before and after. -/

namespace MachKernel.Vm
open List
open Word32 Linked

/-- A map together with the objects and maps that its entries point to. -/
structure MapState (α : Type*) where
  kernel : Kernel α
  map : VmMap

namespace VmMap

/-- `vme_next` of a place. -/
def next (m : VmMap) (place : Option ℕ) : Option ℕ :=
  (after VmMapEntry.id place m.entries).head?.map VmMapEntry.id

/-- `VM_MAP_RANGE_CHECK`. -/
def rangeCheck (m : VmMap) (start stop : ℕ) : ℕ × ℕ :=
  let start := if start < m.minOffset then m.minOffset else start
  let stop := if m.maxOffset < stop then m.maxOffset else stop
  (if stop < start then stop else start, stop)

end VmMap

/-- Bitwise and of two protections. -/
def VmProt.and (p q : VmProt) : VmProt :=
  ⟨p.read && q.read, p.write && q.write, p.execute && q.execute⟩

/-- The inheritances that `vm_map_inherit` accepts, by value. -/
def vmInheritOf : ℕ → Option VmInherit
  | 0 => some .share
  | 1 => some .copy
  | 2 => some .none
  | _ => none

namespace MapState
variable {α : Type*} (s : MapState α)

/-- `vm_map_clip_start`, with the reference that the new entry takes. -/
def clipStart (i start : ℕ) : MapState α :=
  match s.map.entryAt i with
  | none => s
  | some e =>
    ⟨if e.vmeStart < start then s.kernel.reference e.target else s.kernel, s.map.clipStart i start⟩

/-- `vm_map_clip_end`, with the reference that the new entry takes. -/
def clipEnd (i stop : ℕ) : MapState α :=
  match s.map.entryAt i with
  | none => s
  | some e =>
    ⟨if stop < e.vmeEnd then s.kernel.reference e.target else s.kernel, s.map.clipEnd i stop⟩

def update (i : ℕ) (f : VmMapEntry → VmMapEntry) : MapState α :=
  { s with map := { s.map with entries := Linked.update VmMapEntry.id i f s.map.entries } }

/-- The first entry of a range: the entry with its start, clipped, or else the next one. -/
def firstEntry (start : ℕ) : Bool × MapState α × Option ℕ :=
  match s.map.lookupEntry start with
  | (true, some i, m) => (true, clipStart ⟨s.kernel, m⟩ i start, some i)
  | (_, place, m) => (false, ⟨s.kernel, m⟩, m.next place)

/-- The entries from one on. -/
def suffix : Option ℕ → List VmMapEntry
  | none => []
  | some i => s.map.entries.dropWhile fun e => e.id ≠ i

/-- The loop over the entries of a range that clips the last one and changes each. -/
def changeLoop (f : VmMapEntry → VmMapEntry) (stop : ℕ) : ℕ → MapState α → Option ℕ → MapState α
  | turns + 1, s, some i =>
    match s.map.entryAt i with
    | none => s
    | some e =>
      if e.vmeStart < stop then
        let s := (s.clipEnd i stop).update i f
        changeLoop f stop turns s (s.map.next (some i))
      else s
  | _, s, _ => s

/-- The first pass of `vm_map_protect`: the error of the first entry that has one. -/
def protectCheck (newProt : VmProt) (stop : ℕ) : List VmMapEntry → Option KernReturn
  | [] => none
  | current :: l =>
    if current.vmeStart < stop then
      if current.isSubMap then some .invalidArgument
      else if newProt.and current.maxProtection ≠ newProt then some .protectionFailure
      else protectCheck newProt stop l
    else none

/-- What the second pass does to an entry. -/
def protectEntry (newProt : VmProt) (setMax : Bool) (current : VmMapEntry) : VmMapEntry :=
  if setMax then
    { current with maxProtection := newProt, protection := newProt.and current.protection }
  else { current with protection := newProt }

def vmMapProtect (start stop : ℕ) (newProt : VmProt) (setMax : Bool) : KernReturn × MapState α :=
  let (start, stop) := s.map.rangeCheck start stop
  let (_, s, entry) := firstEntry ⟨s.kernel, s.map.lock⟩ start
  match protectCheck newProt stop (s.suffix entry) with
  | some result => (result, s)
  | none => (.success, changeLoop (protectEntry newProt setMax) stop s.map.entries.length s entry)

def inheritEntry (newInheritance : VmInherit) (entry : VmMapEntry) : VmMapEntry :=
  { entry with inheritance := newInheritance }

def vmMapInherit (start stop newInheritance : ℕ) : KernReturn × MapState α :=
  match vmInheritOf newInheritance with
  | none => (.invalidArgument, s)
  | some inheritance =>
    let (start, stop) := s.map.rangeCheck start stop
    let (_, s, entry) := firstEntry ⟨s.kernel, s.map.lock⟩ start
    (.success, changeLoop (inheritEntry inheritance) stop s.map.entries.length s entry)

end MapState

/-- What an address is mapped to. -/
structure PageView where
  object : Option Target
  offset : ℕ
  protection : VmProt
  maxProtection : VmProt
  inheritance : VmInherit
  wiredCount : ℕ
  userWiredCount : ℕ
  needsCopy : Bool
  deriving DecidableEq

/-- The page at an address of an entry. -/
def VmMapEntry.page (e : VmMapEntry) (x : ℕ) : PageView where
  object := e.target
  offset := add e.offset (sub x e.vmeStart)
  protection := e.protection
  maxProtection := e.maxProtection
  inheritance := e.inheritance
  wiredCount := e.wiredCount
  userWiredCount := e.userWiredCount
  needsCopy := e.needsCopy

def VmMapEntry.Covers (e : VmMapEntry) (x : ℕ) : Prop := e.vmeStart ≤ x ∧ x < e.vmeEnd

instance (e : VmMapEntry) (x : ℕ) : Decidable (e.Covers x) :=
  inferInstanceAs (Decidable (_ ∧ _))

/-- A list of entries as a function from addresses to pages. -/
def view (l : List VmMapEntry) (x : ℕ) : Option PageView :=
  (l.find? fun e => e.Covers x).map fun e => e.page x

/-- The part of an entry below an address, and the part above it. -/
def VmMapEntry.low (e : VmMapEntry) (i x : ℕ) : VmMapEntry := { e with id := i, vmeEnd := x }

def VmMapEntry.high (e : VmMapEntry) (j x : ℕ) : VmMapEntry :=
  { e with id := j, vmeStart := x, offset := add e.offset (sub x e.vmeStart) }

/-! ## Views of lists of entries -/

section
variable {l l' : List VmMapEntry} {e : VmMapEntry} {x : ℕ}

theorem view_append (l l' : List VmMapEntry) (x : ℕ) :
    view (l ++ l') x = (view l x).or (view l' x) := by
  unfold view
  rw [find?_append, Option.map_or]

theorem view_cons (e : VmMapEntry) (l : List VmMapEntry) (x : ℕ) :
    view (e :: l) x = if e.Covers x then some (e.page x) else view l x := by
  unfold view
  rw [List.find?_cons]
  by_cases h : e.Covers x
  · simp [h]
  · simp [h]

@[simp] theorem view_nil (x : ℕ) : view [] x = none := rfl

theorem view_eq_none (h : ∀ e ∈ l, ¬ e.Covers x) : view l x = none := by
  unfold view
  rw [find?_eq_none.mpr (by simpa using h), Option.map_none]

theorem view_of_le (h : ∀ e ∈ l, e.vmeEnd ≤ x) : view l x = none :=
  view_eq_none fun e he hc => by
    have := h e he
    have := hc.2
    omega

theorem view_of_lt (h : ∀ e ∈ l, x < e.vmeStart) : view l x = none :=
  view_eq_none fun e he hc => by
    have := h e he
    have := hc.1
    omega

theorem view_split {stop : ℕ} (hlo : e.vmeStart ≤ stop) (hhi : stop ≤ e.vmeEnd)
    (hmod : e.vmeEnd < modulus) (i j x : ℕ) :
    view [e.low i stop, e.high j stop] x = view [e] x := by
  simp only [view_cons, view_nil, VmMapEntry.Covers, VmMapEntry.low, VmMapEntry.high]
  rcases Nat.lt_or_ge x stop with hlt | hge
  · have h₁ : (e.vmeStart ≤ x ∧ x < stop) ↔ (e.vmeStart ≤ x ∧ x < e.vmeEnd) := by omega
    have h₂ : ¬ (stop ≤ x ∧ x < e.vmeEnd) := by omega
    simp only [h₁, h₂, if_false]
    rfl
  · have h₁ : ¬ (e.vmeStart ≤ x ∧ x < stop) := by omega
    have h₂ : (stop ≤ x ∧ x < e.vmeEnd) ↔ (e.vmeStart ≤ x ∧ x < e.vmeEnd) := by omega
    simp only [h₁, h₂, if_false]
    refine if_ctx_congr Iff.rfl (fun hc => ?_) fun _ => rfl
    have hsum : add (stop - e.vmeStart) (x - stop) = x - e.vmeStart := by
      rw [add_of_lt (by omega)]
      omega
    have hoff : add (add e.offset (sub stop e.vmeStart)) (sub x stop) =
        add e.offset (sub x e.vmeStart) := by
      rw [add_assoc, sub_of_le (by omega) hlo, sub_of_le (by omega) hge,
        sub_of_le (by omega) hc.1, hsum]
    simp only [VmMapEntry.page, hoff]
    rfl

end

/-! ## Clipping -/

/-- Pages of one byte: every address is aligned. -/
@[reducible] def bytes : PageSize := ⟨0, by norm_num⟩

/-- Counts that are right, over at most `turns` well-formed maps. -/
structure Kernel.Sound {α : Type*} (turns : ℕ) (k : Kernel α) (out : Target → ℕ) : Prop where
  counted : k.Counted out
  subMaps : ∀ sm ∈ k.maps, @VmMap.WellFormed bytes sm.map ∧
    ∀ e ∈ sm.map.entries, e.inTransition = false
  few : k.maps.length ≤ turns

/-- A well-formed map, each of whose entries counts as a reference; `out` are the others. -/
structure MapState.Ok [PageSize] {α : Type*} (turns : ℕ) (out : Target → ℕ) (s : MapState α) :
    Prop where
  map : s.map.WellFormed
  kernel : s.kernel.Sound turns fun t => out t + refsTo t s.map.entries

section
variable {α : Type*} {k : Kernel α} {turns : ℕ} {out : Target → ℕ}

theorem Kernel.Sound.reference (h : k.Sound turns out) {x : Option Target}
    (hx : ∀ t, x = some t → 0 < out t) : (k.reference x).Sound turns (Held out x) := by
  refine ⟨h.counted.reference fun t ht => h.counted.refCount_pos (hx t ht), ?_, ?_⟩
  · rcases x with _ | o | j
    · exact h.subMaps
    · exact h.subMaps
    · intro sm hsm
      obtain ⟨a, ha, rfl⟩ := mem_map.mp hsm
      split_ifs
      · exact h.subMaps a ha
      · exact h.subMaps a ha
  · rcases x with _ | o | j
    · exact h.few
    · exact h.few
    · simpa [Kernel.reference, Kernel.vmMapReference, update] using h.few

end

section
variable [PageSize] {α : Type*} {s : MapState α} {turns : ℕ} {out : Target → ℕ}
variable {pre post : List VmMapEntry} {e : VmMapEntry} {start stop : ℕ}

theorem MapState.Ok.mem_split (_h : s.Ok turns out) (hsplit : s.map.entries = pre ++ e :: post) :
    e ∈ s.map.entries := by
  rw [hsplit]
  simp

theorem MapState.Ok.entryAt_split (h : s.Ok turns out)
    (hsplit : s.map.entries = pre ++ e :: post) : s.map.entryAt e.id = some e :=
  h.map.entryAt (h.mem_split hsplit)

variable {m : VmMap} {f : VmMapEntry → VmMapEntry} {g : PageView → PageView}
  {r : Bool × MapState α × Option ℕ}

theorem MapState.Ok.two (h : s.Ok turns out) (hsplit : s.map.entries = pre ++ e :: post)
    {a b : VmMapEntry} (hm : m.WellFormed)
    (hentries : m.entries = pre ++ [a, b] ++ post) (ha : a.target = e.target)
    (hb : b.target = e.target) : MapState.Ok turns out ⟨s.kernel.reference e.target, m⟩ := by
  refine ⟨hm, ?_⟩
  have hpos : ∀ t, e.target = some t → 0 < out t + refsTo t s.map.entries := by
    intro t ht
    rw [hsplit, Kernel.refsTo_append, Kernel.refsTo_cons, if_pos ht]
    omega
  have hsum : (fun t => out t + refsTo t m.entries) =
      Held (fun t => out t + refsTo t s.map.entries) e.target := by
    funext t
    simp only [Held, hentries, hsplit, Kernel.refsTo_append, Kernel.refsTo_cons,
      Kernel.refsTo_nil, ha, hb]
    omega
  rw [hsum]
  exact h.kernel.reference hpos

/-- What clipping the end of an entry leaves: the entry up to the address, and what was above it as
an entry of its own. -/
structure VmMap.CutEnd (m m' : VmMap) (pre post : List VmMapEntry) (e e' : VmMapEntry)
    (back : List VmMapEntry) (stop : ℕ) : Prop where
  wellFormed : m'.WellFormed
  entries : m'.entries = pre ++ e' :: (back ++ post)
  entry : e' = { e with vmeEnd := min stop e.vmeEnd }
  above : ∀ b ∈ back, b.vmeStart = stop ∧ b.inTransition = e.inTransition
  fresh : ∀ b ∈ back, m.nextId ≤ b.id
  whole : back = [] ∧ e.vmeEnd ≤ stop ∨ stop < e.vmeEnd
  parts : stop < e.vmeEnd → ∃ b, back = [b] ∧ b.target = e.target
  view : ∀ x, view (e' :: back) x = view [e] x
  header : m.SameHeader m'

theorem VmMap.WellFormed.cutEnd (h : m.WellFormed)
    (hsplit : m.entries = pre ++ e :: post) (hal : PageAligned stop) (hlt : e.vmeStart < stop) :
    ∃ e' back, m.CutEnd (m.clipEnd e.id stop) pre post e e' back stop := by
  have hmem : e ∈ m.entries := by rw [hsplit]; simp
  have hat := h.entryAt hmem
  have hin := h.inside e hmem
  have hb := h.bounds
  have hd := h.distinct
  rw [hsplit] at hd
  obtain ⟨c, hclip, -⟩ := h.clipEnd hmem hal hlt
  have hwf := hclip.wellFormed
  unfold VmMap.clipEnd at hwf ⊢
  simp only [hat] at hwf ⊢
  split_ifs at hwf ⊢ with hcut
  · have hentries : (m.split e.id fun e => [e.low e.id stop, e.high m.nextId stop]).entries =
        pre ++ [e.low e.id stop, e.high m.nextId stop] ++ post := by
      simp only [VmMap.split, hsplit]
      exact replace_split hd _
    refine ⟨e.low e.id stop, [e.high m.nextId stop], hwf, hentries.trans (by simp), ?_, ?_, ?_,
      .inr hcut, fun _ => ⟨_, rfl, rfl⟩, ?_, ⟨rfl, rfl, rfl, rfl, rfl, Nat.le_succ _⟩⟩
    · rw [min_eq_left hcut.le]
      rfl
    · intro b hb
      rw [mem_singleton.mp hb]
      exact ⟨rfl, rfl⟩
    · intro b hb
      rw [mem_singleton.mp hb]
      exact le_rfl
    · exact view_split hlt.le hcut.le (by omega) e.id m.nextId
  · refine ⟨e, [], h, hsplit, ?_, by simp, by simp, .inl ⟨rfl, by omega⟩, fun hc => absurd hc hcut,
      fun _ => rfl, ⟨rfl, rfl, rfl, rfl, rfl, le_rfl⟩⟩
    rw [min_eq_right (by omega)]

structure CutEnd (turns : ℕ) (out : Target → ℕ) (s s' : MapState α) (pre post : List VmMapEntry)
    (e e' : VmMapEntry) (back : List VmMapEntry) (stop : ℕ) : Prop
    extends s.map.CutEnd s'.map pre post e e' back stop where
  ok : s'.Ok turns out

theorem MapState.Ok.clipEnd (h : s.Ok turns out) (hsplit : s.map.entries = pre ++ e :: post)
    (hal : PageAligned stop) (hlt : e.vmeStart < stop) :
    ∃ e' back, CutEnd turns out s (s.clipEnd e.id stop) pre post e e' back stop := by
  obtain ⟨e', back, hcut⟩ := h.map.cutEnd hsplit hal hlt
  have hat := h.entryAt_split hsplit
  have hdef : s.clipEnd e.id stop = ⟨if stop < e.vmeEnd then s.kernel.reference e.target
      else s.kernel, s.map.clipEnd e.id stop⟩ := by
    unfold MapState.clipEnd
    rw [hat]
  rw [hdef]
  refine ⟨e', back, hcut, ?_⟩
  by_cases hstop : stop < e.vmeEnd
  · obtain ⟨b, rfl, hb⟩ := hcut.parts hstop
    rw [if_pos hstop]
    exact h.two hsplit hcut.wellFormed (by simpa using hcut.entries) (by rw [hcut.entry]; rfl) hb
  · have hsame : s.map.clipEnd e.id stop = s.map := by
      simp only [VmMap.clipEnd, hat, if_neg hstop]
    rw [if_neg hstop, hsame]
    exact h

/-- What clipping the start of an entry leaves: what was below the address as an entry of its own,
and the entry from the address on. -/
structure VmMap.CutStart (m m' : VmMap) (pre post : List VmMapEntry) (e e' : VmMapEntry)
    (front : List VmMapEntry) (start : ℕ) : Prop where
  wellFormed : m'.WellFormed
  entries : m'.entries = (pre ++ front) ++ e' :: post
  id : e'.id = e.id
  starts : e'.vmeStart = start
  inTransition : ∀ a ∈ e' :: front, a.inTransition = e.inTransition
  below : ∀ a ∈ front, a.vmeEnd = start
  parts : e.vmeStart < start → ∃ a, front = [a] ∧ a.target = e.target
  target : e'.target = e.target
  view : ∀ x, view (front ++ [e']) x = view [e] x
  header : m.SameHeader m'

theorem VmMap.WellFormed.cutStart (h : m.WellFormed)
    (hsplit : m.entries = pre ++ e :: post) (hal : PageAligned start) (hc : e.Covers start) :
    ∃ e' front, m.CutStart (m.clipStart e.id start) pre post e e' front start := by
  have hmem : e ∈ m.entries := by rw [hsplit]; simp
  have hat := h.entryAt hmem
  have hin := h.inside e hmem
  have hb := h.bounds
  have hd := h.distinct
  rw [hsplit] at hd
  obtain ⟨hlo, hhi⟩ := hc
  obtain ⟨c, hclip, -⟩ := h.clipStart hmem hal hlo hhi
  have hwf := hclip.wellFormed
  unfold VmMap.clipStart at hwf ⊢
  simp only [hat] at hwf ⊢
  split_ifs at hwf ⊢ with hcut
  · have hentries : (m.split e.id fun e => [e.low m.nextId start, e.high e.id start]).entries =
        pre ++ [e.low m.nextId start, e.high e.id start] ++ post := by
      simp only [VmMap.split, hsplit]
      exact replace_split hd _
    refine ⟨e.high e.id start, [e.low m.nextId start], hwf, hentries.trans (by simp), rfl, rfl, ?_,
      ?_, fun _ => ⟨_, rfl, rfl⟩, rfl, ?_, ⟨rfl, rfl, rfl, rfl, rfl, Nat.le_succ _⟩⟩
    · intro a ha
      rcases List.mem_pair.mp ha with rfl | rfl <;> rfl
    · intro a ha
      rw [mem_singleton.mp ha]
      rfl
    · exact view_split hlo hhi.le (by omega) m.nextId e.id
  · refine ⟨e, [], h, by simpa using hsplit, rfl, by omega, by simp, by simp,
      fun hc => absurd hc hcut, rfl, fun _ => rfl, ⟨rfl, rfl, rfl, rfl, rfl, le_rfl⟩⟩

structure CutStart (turns : ℕ) (out : Target → ℕ) (s s' : MapState α) (pre post : List VmMapEntry)
    (e e' : VmMapEntry) (front : List VmMapEntry) (start : ℕ) : Prop
    extends s.map.CutStart s'.map pre post e e' front start where
  ok : s'.Ok turns out

theorem MapState.Ok.clipStart (h : s.Ok turns out) (hsplit : s.map.entries = pre ++ e :: post)
    (hal : PageAligned start) (hc : e.Covers start) :
    ∃ e' front, CutStart turns out s (s.clipStart e.id start) pre post e e' front start := by
  obtain ⟨e', front, hcut⟩ := h.map.cutStart hsplit hal hc
  have hat := h.entryAt_split hsplit
  have hdef : s.clipStart e.id start = ⟨if e.vmeStart < start then s.kernel.reference e.target
      else s.kernel, s.map.clipStart e.id start⟩ := by
    unfold MapState.clipStart
    rw [hat]
  rw [hdef]
  refine ⟨e', front, hcut, ?_⟩
  by_cases hstart : e.vmeStart < start
  · obtain ⟨a, rfl, ha⟩ := hcut.parts hstart
    rw [if_pos hstart]
    exact h.two hsplit hcut.wellFormed (by simpa using hcut.entries) ha hcut.target
  · have hsame : s.map.clipStart e.id start = s.map := by
      simp only [VmMap.clipStart, hat, if_neg hstart]
    rw [if_neg hstart, hsame]
    exact h

omit [PageSize] in
theorem VmMap.lookupEntry_hint {m : VmMap} {x : ℕ} (h : (m.lookupEntry x).1 = false) :
    (m.lookupEntry x).2.2.hint = (m.lookupEntry x).2.1 := by
  unfold VmMap.lookupEntry at h ⊢
  cases hc : m.hintEntry with
  | none => rfl
  | some cur =>
    simp only [hc] at h ⊢
    split_ifs at h ⊢ <;> rfl

/-- The entries on either side of the start of a range. -/
structure VmMap.AtStart (m : VmMap) (start : ℕ) (r : Bool × MapState α × Option ℕ)
    (pre post : List VmMapEntry) : Prop where
  wellFormed : r.2.1.map.WellFormed
  entries : r.2.1.map.entries = pre ++ post
  entry : r.2.2 = post.head?.map VmMapEntry.id
  below : ∀ e ∈ pre, e.vmeEnd ≤ start
  above : ∀ e ∈ post, start ≤ e.vmeStart
  same : ∀ x, view (pre ++ post) x = view m.entries x
  inTransition : (∀ e ∈ m.entries, e.inTransition = false) →
    ∀ e ∈ pre ++ post, e.inTransition = false
  minOffset : r.2.1.map.minOffset = m.minOffset
  maxOffset : r.2.1.map.maxOffset = m.maxOffset
  hint : r.1 = false → ∀ i, r.2.1.map.hint = some i → i ∈ pre.map VmMapEntry.id

theorem VmMap.WellFormed.firstEntry (h : s.map.WellFormed) (hal : PageAligned start) :
    ∃ pre post, s.map.AtStart start (s.firstEntry start) pre post := by
  obtain ⟨found, hint, pre, post, hlook, hhint, hsplit, hpost, hcase⟩ := h.lookupEntry_spec start
  have hs : (s.map.saveHint hint).WellFormed := h.saveHint hhint
  unfold MapState.firstEntry
  rcases hcase with ⟨rfl, hpre⟩ | ⟨rfl, init, e, rfl, hinit, hlo, hhi⟩
  · have hd := h.distinct
    rw [hsplit] at hd
    have hsaved := VmMap.lookupEntry_hint (m := s.map) (x := start) (by rw [hlook])
    rw [hlook] at hsaved ⊢
    refine ⟨pre, post, hs, hsplit, ?_, hpre, fun e he => (hpost e he).le, fun x => ?_, ?_, rfl, rfl,
      ?_⟩
    · simp only [VmMap.next, VmMap.saveHint, hsplit, after_last hd]
    · rw [hsplit]
    · intro hn e he
      exact hn e (hsplit ▸ he)
    · intro _ i hi
      exact last_mem (hsaved.symm.trans hi)
  · have hplace : last VmMapEntry.id (init ++ [e]) = some e.id := by simp [last]
    rw [hlook, hplace]
    have hsplit' : (s.map.saveHint hint).entries = init ++ e :: post := by
      rw [append_cons]
      exact hsplit
    obtain ⟨e', front, hcut⟩ := hs.cutStart hsplit' hal ⟨hlo, hhi⟩
    have hmap : (MapState.clipStart ⟨s.kernel, s.map.saveHint hint⟩ e.id start).map =
        (s.map.saveHint hint).clipStart e.id start := by
      unfold MapState.clipStart
      rw [hs.entryAt (by rw [hsplit']; simp)]
    refine ⟨init ++ front, e' :: post, ?_⟩
    dsimp only
    constructor
    · rw [hmap]
      exact hcut.wellFormed
    · rw [hmap]
      exact hcut.entries
    · simp [hcut.id]
    · intro a ha
      rcases mem_append.mp ha with ha | ha
      · exact hinit a ha
      · exact (hcut.below a ha).le
    · intro a ha
      rcases mem_cons.mp ha with rfl | ha
      · exact hcut.starts.ge
      · exact (hpost a ha).le
    · intro x
      have heq : init ++ front ++ e' :: post = init ++ ((front ++ [e']) ++ post) := by simp
      rw [heq, hsplit, view_append, view_append, hcut.view, view_append, view_append,
        Option.or_assoc]
    · intro hn a ha
      have he : e.inTransition = false := hn e (by rw [hsplit]; simp)
      simp only [mem_append, mem_cons] at ha
      rcases ha with (ha | ha) | rfl | ha
      · exact hn a (by rw [hsplit]; simp [ha])
      · exact (hcut.inTransition a (mem_cons_of_mem _ ha)).trans he
      · exact (hcut.inTransition a mem_cons_self).trans he
      · exact hn a (by rw [hsplit]; simp [ha])
    · rw [hmap]
      exact hcut.header.minOffset
    · rw [hmap]
      exact hcut.header.maxOffset
    · simp

structure AtStart (turns : ℕ) (out : Target → ℕ) (s : MapState α) (start : ℕ)
    (r : Bool × MapState α × Option ℕ) (pre post : List VmMapEntry) : Prop
    extends s.map.AtStart start r pre post where
  ok : r.2.1.Ok turns out

theorem MapState.Ok.firstEntry (h : s.Ok turns out) (hal : PageAligned start) :
    ∃ pre post, AtStart turns out s start (s.firstEntry start) pre post := by
  obtain ⟨pre, post, hat⟩ := h.map.firstEntry hal
  refine ⟨pre, post, hat, ?_⟩
  obtain ⟨found, hint, pre, post, hlook, hhint, hsplit, -, hcase⟩ := h.map.lookupEntry_spec start
  have hs : MapState.Ok turns out ⟨s.kernel, s.map.saveHint hint⟩ :=
    ⟨h.map.saveHint hhint, h.kernel⟩
  unfold MapState.firstEntry
  rcases hcase with ⟨rfl, -⟩ | ⟨rfl, init, e, rfl, -, hlo, hhi⟩
  · rw [hlook]
    exact hs
  · have hplace : last VmMapEntry.id (init ++ [e]) = some e.id := by simp [last]
    rw [hlook, hplace]
    rw [append_assoc] at hsplit
    obtain ⟨e', front, hcut⟩ := hs.clipStart hsplit hal ⟨hlo, hhi⟩
    exact hcut.ok

/-! ## Changing the entries of a range -/

/-- A change to entries that leaves their names, their ranges and what they point to, and makes `g`
of every page. -/
structure Changes (f : VmMapEntry → VmMapEntry) (g : PageView → PageView) : Prop where
  id : ∀ e, (f e).id = e.id
  vmeStart : ∀ e, (f e).vmeStart = e.vmeStart
  vmeEnd : ∀ e, (f e).vmeEnd = e.vmeEnd
  target : ∀ e, (f e).target = e.target
  page : ∀ e x, (f e).page x = g (e.page x)

omit [PageSize] in
theorem Changes.view {f : VmMapEntry → VmMapEntry} {g : PageView → PageView} (hf : Changes f g)
    (e : VmMapEntry) (x : ℕ) : view [f e] x = (view [e] x).map g := by
  have hc : (f e).Covers x ↔ e.Covers x := by
    simp only [VmMapEntry.Covers, hf.vmeStart, hf.vmeEnd]
  simp only [view_cons, view_nil, hc, hf.page]
  by_cases h : e.Covers x
  · simp only [if_pos h, Option.map_some]
  · simp only [if_neg h, Option.map_none]

theorem MapState.Ok.update (h : s.Ok turns out) (hsplit : s.map.entries = pre ++ e :: post)
    (hf : Changes f g) :
    (s.update e.id f).Ok turns out ∧ (s.update e.id f).map.entries = pre ++ f e :: post := by
  obtain ⟨hentries, hwf, -⟩ := h.map.modify hsplit (hf.id e) (hf.vmeStart e) (hf.vmeEnd e)
  refine ⟨⟨hwf, ?_⟩, hentries⟩
  have hrefs : ∀ t, refsTo t (s.update e.id f).map.entries = refsTo t s.map.entries := by
    intro t
    have hentries' : (s.update e.id f).map.entries = pre ++ f e :: post := hentries
    rw [hentries', hsplit]
    simp only [Kernel.refsTo_append, Kernel.refsTo_cons, hf.target]
  simp only [hrefs]
  exact h.kernel

theorem changeLoop_stop (h : s.map.WellFormed)
    (hsplit : s.map.entries = pre ++ post) (hstop : ∀ e ∈ post, stop ≤ e.vmeStart) (n : ℕ) :
    MapState.changeLoop f stop n s (post.head?.map VmMapEntry.id) = s := by
  cases n with
  | zero => simp only [MapState.changeLoop]
  | succ n =>
    cases post with
    | nil => simp only [List.head?_nil, Option.map_none, MapState.changeLoop]
    | cons e post =>
      have hat : s.map.entryAt e.id = some e := h.entryAt (by rw [hsplit]; simp)
      have := hstop e mem_cons_self
      simp only [head?_cons, Option.map_some, MapState.changeLoop, hat]
      rw [if_neg (by omega)]

omit [PageSize] in
theorem VmMap.next_split {m : VmMap} (hd : Distinct VmMapEntry.id m.entries)
    (hsplit : m.entries = pre ++ e :: post) :
    m.next (some e.id) = post.head?.map VmMapEntry.id := by
  rw [hsplit] at hd
  rw [VmMap.next, hsplit, after_split hd]

theorem changeLoop_spec (hf : Changes f g)
    (hal : PageAligned stop) (n : ℕ) : ∀ {s : MapState α} {pre post : List VmMapEntry},
    s.Ok turns out → s.map.entries = pre ++ post → post.length ≤ n →
    ∃ post', (MapState.changeLoop f stop n s (post.head?.map VmMapEntry.id)).Ok turns out ∧
      (MapState.changeLoop f stop n s (post.head?.map VmMapEntry.id)).map.entries = pre ++ post' ∧
      ∀ x, view post' x = if x < stop then (view post x).map g else view post x := by
  induction n with
  | zero =>
    intro s pre post h hsplit hlen
    have hnil := eq_nil_of_length_eq_zero (Nat.le_zero.mp hlen)
    subst hnil
    exact ⟨[], h, hsplit, by simp⟩
  | succ n ih =>
    intro s pre post h hsplit hlen
    cases post with
    | nil => exact ⟨[], h, hsplit, by simp⟩
    | cons e post =>
      have hasc := h.map.ascending
      rw [hsplit, append_cons] at hasc
      have hpost : ∀ a ∈ post, e.vmeEnd ≤ a.vmeStart := fun a ha => hasc.le_of_mem (by simp) ha
      rcases Nat.lt_or_ge e.vmeStart stop with hlt | hge
      · obtain ⟨e', back, hcut⟩ := h.clipEnd hsplit hal hlt
        have hid : e'.id = e.id := by rw [hcut.entry]
        have hend : e'.vmeEnd = min stop e.vmeEnd := by rw [hcut.entry]
        obtain ⟨hok, hentries⟩ := hcut.ok.update hcut.entries hf
        rw [hid] at hok hentries
        have hnext := VmMap.next_split hok.map.distinct hentries
        rw [hf.id, hid] at hnext
        simp only [head?_cons, Option.map_some, MapState.changeLoop, h.entryAt_split hsplit,
          if_pos hlt, hnext]
        rcases hcut.whole with ⟨rfl, hle⟩ | hsplits
        · -- the whole entry is inside the range
          rw [nil_append] at hentries ⊢
          rw [append_cons] at hentries
          obtain ⟨post', hok', hentries', hview⟩ := ih hok hentries (by simpa using hlen)
          refine ⟨f e' :: post', hok', by rw [hentries', ← append_cons], fun x => ?_⟩
          have hhead : view [f e'] x = (view [e] x).map g := by rw [hf.view, hcut.view]
          have hwhole : view (e :: post) x = (view [e] x).or (view post x) := by
            rw [← singleton_append, view_append]
          rw [← singleton_append, view_append, hhead, hview, hwhole]
          split_ifs with hx
          · rw [Option.map_or]
          · have hnone : view [e] x = none := view_of_le fun a ha => by
              rw [mem_singleton.mp ha]
              omega
            rw [hnone, Option.map_none]
        · -- the entry goes over the end, and its upper part is left alone
          have habove : ∀ a ∈ back ++ post, stop ≤ a.vmeStart := by
            intro a ha
            rcases mem_append.mp ha with ha | ha
            · exact (hcut.above a ha).1.ge
            · have := hpost a ha
              omega
          rw [append_cons] at hentries
          rw [changeLoop_stop hok.map hentries habove]
          refine ⟨f e' :: (back ++ post), hok, by rw [hentries, ← append_cons], fun x => ?_⟩
          have hwhole : view (e :: post) x = (view [e'] x).or (view (back ++ post) x) := by
            rw [← singleton_append, view_append, ← hcut.view, ← singleton_append,
              view_append, Option.or_assoc, ← view_append]
          rw [← singleton_append, view_append, hf.view, hwhole]
          split_ifs with hx
          · have hnone : view (back ++ post) x = none := view_of_lt fun a ha => by
              have := habove a ha
              omega
            rw [hnone, Option.or_none, Option.or_none]
          · have hnone : view [e'] x = none := view_of_le fun a ha => by
              rw [mem_singleton.mp ha, hend]
              omega
            rw [hnone, Option.map_none]
      · have habove : ∀ a ∈ e :: post, stop ≤ a.vmeStart := by
          intro a ha
          rcases mem_cons.mp ha with rfl | ha
          · exact hge
          · have := hpost a ha
            have := h.map.nonempty e (h.mem_split hsplit)
            omega
        rw [changeLoop_stop h.map hsplit habove]
        refine ⟨e :: post, h, hsplit, fun x => ?_⟩
        split_ifs with hx
        · rw [view_of_lt fun a ha => by have := habove a ha; omega, Option.map_none]
        · rfl

/-! ## The operations -/

/-- What an operation does to every page: those of the range change, the others do not. -/
def UpdatesRange (l l' : List VmMapEntry) (start stop : ℕ)
    (g : Option PageView → Option PageView) : Prop :=
  ∀ x, view l' x = if start ≤ x ∧ x < stop then g (view l x) else view l x

theorem VmMap.WellFormed.view_bounds (h : m.WellFormed) {x : ℕ}
    (hx : view m.entries x ≠ none) : m.minOffset ≤ x ∧ x < m.maxOffset := by
  by_contra hout
  apply hx
  apply view_eq_none
  intro e he hc
  have := h.inside e he
  have := hc.1
  have := hc.2
  omega

theorem VmMap.WellFormed.rangeCheck_iff (h : m.WellFormed) {x : ℕ}
    (hx : view m.entries x ≠ none) (start stop : ℕ) :
    ((m.rangeCheck start stop).1 ≤ x ∧ x < (m.rangeCheck start stop).2) ↔ start ≤ x ∧ x < stop := by
  have := h.view_bounds hx
  simp only [VmMap.rangeCheck]
  split_ifs <;> omega

theorem UpdatesRange.rangeCheck (h : m.WellFormed) {l' : List VmMapEntry}
    {start stop : ℕ} {g : Option PageView → Option PageView} (hg : g none = none)
    (hu : UpdatesRange m.entries l' (m.rangeCheck start stop).1 (m.rangeCheck start stop).2 g) :
    UpdatesRange m.entries l' start stop g := by
  intro x
  rw [hu x]
  by_cases hx : view m.entries x = none
  · simp only [hx, hg, ite_self]
  · simp only [h.rangeCheck_iff hx start stop]

theorem AtStart.updatesRange
    (h : AtStart turns out s start r pre post) {post' : List VmMapEntry}
    {g : Option PageView → Option PageView} (hg : g none = none)
    (hview : ∀ x, view post' x = if x < stop then g (view post x) else view post x) :
    UpdatesRange s.map.entries (pre ++ post') start stop g := by
  intro x
  rw [← h.same x, view_append, view_append, hview]
  rcases Nat.lt_or_ge x start with hlt | hge
  · have hnone : view post x = none := view_of_lt fun a ha => by
      have := h.above a ha
      omega
    simp only [hnone, hg, ite_self, Option.or_none]
    rw [if_neg (by omega)]
  · have hnone : view pre x = none := view_of_le fun a ha => by
      have := h.below a ha
      omega
    simp only [hnone, Option.none_or, hge, true_and]

theorem suffix_head (h : s.map.WellFormed) (hsplit : s.map.entries = pre ++ post) :
    s.suffix (post.head?.map VmMapEntry.id) = post := by
  cases post with
  | nil => rfl
  | cons e post =>
    have hd := h.distinct
    rw [hsplit] at hd
    simp only [head?_cons, Option.map_some, MapState.suffix, hsplit]
    rw [List.dropWhile_append_of_pos (by simpa using hd.ne_of_split.1)]
    simp

section
omit [PageSize]

theorem protectEntry_changes (newProt : VmProt) (setMax : Bool) :
    Changes (MapState.protectEntry newProt setMax) fun p =>
      if setMax then { p with maxProtection := newProt, protection := newProt.and p.protection }
      else { p with protection := newProt } := by
  constructor
  all_goals
    intros
    unfold MapState.protectEntry
    split_ifs <;> rfl

theorem inheritEntry_changes (newInheritance : VmInherit) :
    Changes (MapState.inheritEntry newInheritance) fun p =>
      { p with inheritance := newInheritance } :=
  ⟨fun _ => rfl, fun _ => rfl, fun _ => rfl, fun _ => rfl, fun _ _ => rfl⟩

theorem protectCheck_error {newProt : VmProt} {result : KernReturn} {l : List VmMapEntry}
    (h : MapState.protectCheck newProt stop l = some result) :
    result = .invalidArgument ∨ result = .protectionFailure := by
  induction l with
  | nil => cases h
  | cons e l ih =>
    rw [MapState.protectCheck] at h
    split_ifs at h
    · exact .inl (Option.some.inj h).symm
    · exact .inr (Option.some.inj h).symm
    · exact ih h

end

theorem MapState.Ok.lock (h : s.Ok turns out) :
    MapState.Ok turns out ⟨s.kernel, s.map.lock⟩ := ⟨h.map.lock, h.kernel⟩

theorem AtStart.changeRange (hf : Changes f g)
    (hstart : AtStart turns out s start r pre post) (hstop : PageAligned stop) :
    (MapState.changeLoop f stop r.2.1.map.entries.length r.2.1 r.2.2).Ok turns out ∧
      UpdatesRange s.map.entries
        (MapState.changeLoop f stop r.2.1.map.entries.length r.2.1 r.2.2).map.entries start stop
        (Option.map g) := by
  obtain ⟨post', hok, hentries, hview⟩ := changeLoop_spec hf hstop r.2.1.map.entries.length
    hstart.ok hstart.entries (by rw [hstart.entries]; simp)
  rw [hstart.entry]
  refine ⟨hok, ?_⟩
  rw [hentries]
  exact hstart.updatesRange rfl hview

/-- `vm_map_protect` changes the protections of the range, or fails and changes no page. -/
theorem MapState.Ok.vmMapProtect (h : s.Ok turns out) (newProt : VmProt) (setMax : Bool)
    (hstart : PageAligned (s.map.rangeCheck start stop).1)
    (hstop : PageAligned (s.map.rangeCheck start stop).2) :
    let r := s.vmMapProtect start stop newProt setMax
    r.2.Ok turns out ∧
      (r.1 = .success ∧ UpdatesRange s.map.entries r.2.map.entries start stop (Option.map fun p =>
          if setMax then { p with maxProtection := newProt, protection := newProt.and p.protection }
          else { p with protection := newProt }) ∨
        (r.1 = .invalidArgument ∨ r.1 = .protectionFailure) ∧
          ∀ x, view r.2.map.entries x = view s.map.entries x) := by
  obtain ⟨pre, post, hs⟩ := h.lock.firstEntry hstart
  simp only [MapState.vmMapProtect]
  generalize MapState.firstEntry ⟨s.kernel, s.map.lock⟩ (s.map.rangeCheck start stop).1 = r at hs ⊢
  obtain ⟨found, s', entry⟩ := r
  have hsuffix : s'.suffix entry = post := by
    have hentry := hs.entry
    simp only at hentry
    rw [hentry]
    exact suffix_head hs.ok.map hs.entries
  simp only [hsuffix]
  cases hcheck : MapState.protectCheck newProt (s.map.rangeCheck start stop).2 post with
  | some result =>
    refine ⟨hs.ok, .inr ⟨protectCheck_error hcheck, fun x => ?_⟩⟩
    rw [hs.entries]
    exact hs.same x
  | none =>
    obtain ⟨hok, hu⟩ := hs.changeRange (protectEntry_changes newProt setMax) hstop
    exact ⟨hok, .inl ⟨rfl, UpdatesRange.rangeCheck h.map rfl hu⟩⟩

/-- `vm_map_inherit` changes the inheritance of the range. -/
theorem MapState.Ok.vmMapInherit (h : s.Ok turns out) (newInheritance : ℕ)
    (hstart : PageAligned (s.map.rangeCheck start stop).1)
    (hstop : PageAligned (s.map.rangeCheck start stop).2) :
    let r := s.vmMapInherit start stop newInheritance
    r.2.Ok turns out ∧
      (r = (.invalidArgument, s) ∧ vmInheritOf newInheritance = none ∨
        ∃ i, vmInheritOf newInheritance = some i ∧ r.1 = .success ∧
          UpdatesRange s.map.entries r.2.map.entries start stop
            (Option.map fun p => { p with inheritance := i })) := by
  simp only [MapState.vmMapInherit]
  cases hv : vmInheritOf newInheritance with
  | none => exact ⟨h, .inl ⟨rfl, rfl⟩⟩
  | some i =>
    obtain ⟨pre, post, hs⟩ := h.lock.firstEntry hstart
    obtain ⟨hok, hu⟩ := hs.changeRange (inheritEntry_changes i) hstop
    exact ⟨hok, .inr ⟨i, rfl, rfl, UpdatesRange.rangeCheck h.map rfl hu⟩⟩

end

end MachKernel.Vm
