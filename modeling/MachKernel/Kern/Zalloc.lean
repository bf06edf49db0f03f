import MachKernel.Lib.FreeList

/-! Zones (`kern/zalloc.c`): free elements threaded into lists, and the space that new elements are
cut from, between collections. Addresses stay far below 2^32. -/

namespace MachKernel.Kern.Zalloc
open FreeList Function List

def roundPage (n : ℕ) : ℕ := (n + 4095) / 4096 * 4096

/-- `struct zone`, first what is about its elements. -/
structure Elements where
  freeElements : ℕ
  count : ℤ
  curSize : ℕ
  elemSize : ℕ
  elemSize_pos : 0 < elemSize

structure Zone extends Elements where
  maxSize : ℕ
  allocSize : ℕ
  pageable : Bool
  doingAlloc : Bool
  exhaustible : Bool
  collectable : Bool
  expandable : Bool

def zinit (size maxSize alloc : ℕ) (pageable : Bool) : Zone where
  freeElements := 0
  count := 0
  curSize := 0
  maxSize := max (roundPage maxSize) (roundPage (if alloc = 0 then 4096 else alloc))
  elemSize := (if size = 0 then 4 else size) - 1 + 4 - ((if size = 0 then 4 else size) - 1) % 4
  allocSize := roundPage (if alloc = 0 then 4096 else alloc)
  pageable := pageable
  doingAlloc := false
  exhaustible := false
  collectable := false
  expandable := true
  elemSize_pos := by omega

def Zone.Full (zone : Zone) : Prop :=
  zone.maxSize < zone.curSize + if zone.pageable then zone.allocSize else zone.elemSize

instance : DecidablePred Zone.Full := fun _ => Nat.decLt _ _

/-- It may get more, over its limit if need be. -/
def Zone.expand (zone : Zone) : Zone :=
  { zone with
    maxSize := if zone.Full ∧ zone.expandable then zone.maxSize + zone.maxSize / 2 else zone.maxSize
    doingAlloc := zone.pageable }

/-- Where a thread in `zalloc` has let go of the locks. -/
inductive Pc
  | out
  | waiting (zone : ℕ)
  -- about to get memory, and with that memory crammed into the zone
  | getting (zone : ℕ)
  | crammed (zone : ℕ) (pageable : Bool)
  -- in `zget_space` without its lock, and back with an element that is not yet counted
  | wiring (zone : ℕ)
  | got (zone addr : ℕ)

/-- All zones, the first words of the elements, the space of `zget_space`, and the elements that
callers have. -/
structure System where
  mem : ℕ → ℕ
  zones : ℕ → Zone
  nextSpace : ℕ
  endOfSpace : ℕ
  wastedSpace : ℕ
  pc : ℕ → Pc
  held : ℕ → List ℕ

namespace System
variable (s : System)

@[simp] def setZone (z : ℕ) (zone : Zone) : System := { s with zones := update s.zones z zone }

@[simp] def goto (t : ℕ) (pc : Pc) : System := { s with pc := update s.pc t pc }

/-- The call returns an element. -/
@[simp] def give (t z addr : ℕ) : System :=
  { s with pc := update s.pc t .out, held := update s.held z (addr :: s.held z) }

/-- `ADD_TO_ZONE`. -/
@[simp] def addToZone (z element : ℕ) : System :=
  { s with
    mem := update s.mem element (s.zones z).freeElements
    zones := update s.zones z { s.zones z with
      freeElements := element
      count := (s.zones z).count - 1 } }

/-- `REMOVE_FROM_ZONE` when there is an element. -/
@[simp] def removeFromZone (z : ℕ) : System :=
  s.setZone z { s.zones z with
    freeElements := s.mem (s.zones z).freeElements
    count := (s.zones z).count + 1 }

/-- An element more, wherever it is. -/
@[simp] def countElement (z : ℕ) : System :=
  s.setZone z { s.zones z with
    count := (s.zones z).count + 1
    curSize := (s.zones z).curSize + (s.zones z).elemSize }

/-- `zcram`. -/
def zcram (z : ℕ) : ℕ → ℕ → ℕ → System → System
  | 0, _, _, s => s
  | fuel + 1, newmem, size, s =>
    if size < (s.zones z).elemSize then s
    else zcram z fuel (newmem + (s.zones z).elemSize) (size - (s.zones z).elemSize)
      ((s.addToZone z newmem).countElement z)

/-- The loop of `zalloc` when nothing was there, up to where it unlocks the zone. -/
def more (t z : ℕ) : System :=
  if (s.zones z).doingAlloc then s.goto t (.waiting z)
  else if (s.zones z).Full ∧ (s.zones z).exhaustible then s.goto t .out
  else (s.setZone z (s.zones z).expand).goto t (.getting z)

def zallocLocked (t z : ℕ) : System :=
  if (s.zones z).freeElements = 0 then s.more t z
  else (s.removeFromZone z).give t z (s.zones z).freeElements

/-- `zget_space` from its test on, with no new memory. -/
def zgetSpace (t z : ℕ) : System :=
  if s.nextSpace + (s.zones z).elemSize ≤ s.endOfSpace then
    { s with
      nextSpace := s.nextSpace + (s.zones z).elemSize
      pc := update s.pc t (.got z s.nextSpace) }
  else s.goto t (.wiring z)

/-- New memory behind the space, or in its place. -/
def addSpace (newSpace size : ℕ) : System :=
  { s with
    wastedSpace :=
      if newSpace = s.endOfSpace then s.wastedSpace
      else s.wastedSpace + (s.endOfSpace - s.nextSpace)
    nextSpace := if newSpace = s.endOfSpace then s.nextSpace else newSpace
    endOfSpace := newSpace + roundPage size }

/-- A thread goes on, at `addr` with new memory if it asks for some. A thread that waits may be
interrupted, too. -/
def resume (t addr : ℕ) : System :=
  match s.pc t with
  | .out => s
  | .waiting z => s.more t z
  | .getting z =>
    if (s.zones z).pageable || (s.zones z).collectable then
      (zcram z (s.zones z).allocSize addr (s.zones z).allocSize s).goto t
        (.crammed z (s.zones z).pageable)
    else s.zgetSpace t z
  | .crammed z pageable =>
    (s.setZone z { s.zones z with
      doingAlloc := !pageable && (s.zones z).doingAlloc }).zallocLocked t z
  | .wiring z =>
    if s.nextSpace + (s.zones z).elemSize ≤ s.endOfSpace then s.zgetSpace t z
    else (s.addSpace addr (s.zones z).elemSize).zgetSpace t z
  | .got z elem => (s.countElement z).give t z elem

end System

inductive Event
  | zalloc (thread zone : ℕ)
  | resume (thread addr : ℕ)
  | zget (thread zone : ℕ)
  | zfree (zone elem : ℕ)
  | zcram (zone newmem size : ℕ)
  | zchange (zone : ℕ) (pageable exhaustible collectable : Bool)
  -- callers write to their elements
  | write (mem : ℕ → ℕ)

def System.step (s : System) : Event → System
  | .zalloc t z => s.zallocLocked t z
  | .resume t addr => s.resume t addr
  | .zget t z =>
    if (s.zones z).freeElements = 0 then s
    else (s.removeFromZone z).give t z (s.zones z).freeElements
  | .zfree z elem => { s.addToZone z elem with held := update s.held z ((s.held z).erase elem) }
  | .zcram z newmem size => zcram z size newmem size s
  | .zchange z pageable exhaustible collectable =>
    s.setZone z { s.zones z with
      pageable := pageable
      exhaustible := exhaustible
      collectable := collectable }
  | .write mem => { s with mem := mem }

/-- Where an element is: in its zone's list, with a caller, or on its way to one. -/
inductive Place
  | free
  | held
  | got (thread : ℕ)

def System.At (s : System) (free : ℕ → List ℕ) (elem z : ℕ) : Place → Prop
  | .free => elem ∈ free z
  | .held => elem ∈ s.held z
  | .got t => s.pc t = .got z elem

/-- The byte is in an element of the zone. -/
def System.Covers (s : System) (z elem x : ℕ) : Prop :=
  elem ≤ x ∧ x < elem + (s.zones z).elemSize

/-- Memory that zones do not use. -/
def System.Fresh (s : System) (addr size : ℕ) : Prop :=
  0 < addr ∧ ∀ x, addr ≤ x → x < addr + size → ¬(s.nextSpace ≤ x ∧ x < s.endOfSpace) ∧
    ∀ free, (∀ z, Chain s.mem (s.zones z).freeElements (free z)) →
      ∀ elem z p, s.At free elem z p → ¬s.Covers z elem x

/-- How much memory a thread asks for. -/
def System.asks (s : System) (t : ℕ) : ℕ :=
  match s.pc t with
  | .getting z =>
    if (s.zones z).pageable || (s.zones z).collectable then (s.zones z).allocSize else 0
  | .wiring z => roundPage (s.zones z).elemSize
  | _ => 0

/-- What callers keep to, and the maps that memory comes from. -/
def System.Allows (s : System) : Event → Prop
  | .zalloc t _ | .zget t _ => s.pc t = .out
  | .resume t addr => s.Fresh addr (s.asks t)
  | .zfree z elem => elem ∈ s.held z
  | .zcram _ newmem size => s.Fresh newmem size
  | .zchange .. => True
  | .write mem => ∀ x, (∀ z, ∀ elem ∈ s.held z, ¬s.Covers z elem x) → mem x = s.mem x

/-- Runs from `zone_bootstrap` on. -/
inductive Reachable : System → Prop
  | start {s : System} (hzones : ∀ z, ∃ size maxSize alloc pageable,
        s.zones z = zinit size maxSize alloc pageable) (hspace : 0 < s.nextSpace)
      (hpc : ∀ t, s.pc t = .out) (hheld : ∀ z, s.held z = []) : Reachable s
  | step {s : System} (h : Reachable s) (e : Event) (he : s.Allows e) : Reachable (s.step e)

namespace System

structure ZoneOk (s : System) (l : List ℕ) (z : ℕ) : Prop where
  list : Chain s.mem (s.zones z).freeElements l
  nodup : (s.held z).Nodup
  count : (s.zones z).count = (s.held z).length
  curSize : (s.zones z).curSize = (l.length + (s.held z).length) * (s.zones z).elemSize

structure Inv (s : System) (free : ℕ → List ℕ) (place : ℕ → Option (ℕ × Place)) : Prop where
  zones : ∀ z, s.ZoneOk (free z) z
  places : ∀ a z p, s.At free a z p ↔ place a = some (z, p)
  space : 0 < s.nextSpace
  pos : ∀ a z p, place a = some (z, p) → 0 < a
  rest : ∀ a z p x, place a = some (z, p) → s.Covers z a x → ¬(s.nextSpace ≤ x ∧ x < s.endOfSpace)
  apart : ∀ a z p b y q x, place a = some (z, p) → place b = some (y, q) →
    s.Covers z a x → s.Covers y b x → a = b

def Good (s : System) : Prop := ∃ free place, s.Inv free place

variable {s s' : System} {free : ℕ → List ℕ} {place : ℕ → Option (ℕ × Place)} {l : List ℕ}
  {a n t z : ℕ} {p q : Place}

/-- What is not in use, as far as the elements go that have a place. -/
def Clear (s : System) (place : ℕ → Option (ℕ × Place)) (a n : ℕ) : Prop :=
  0 < a ∧ ∀ x, a ≤ x → x < a + n → ¬(s.nextSpace ≤ x ∧ x < s.endOfSpace) ∧
    ∀ b y r, place b = some (y, r) → ¬s.Covers y b x

theorem Inv.clear (h : s.Inv free place) (hf : s.Fresh a n) : s.Clear place a n :=
  ⟨hf.1, fun x hax hxa => ⟨(hf.2 x hax hxa).1, fun b y r hb =>
    (hf.2 x hax hxa).2 free (fun z => (h.zones z).list) b y r ((h.places b y r).2 hb)⟩⟩

theorem covers_self (s : System) (z a : ℕ) : s.Covers z a a :=
  ⟨le_rfl, Nat.lt_add_of_pos_right (s.zones z).elemSize_pos⟩

theorem Inv.one (h : s.Inv free place) (hp : s.At free a z p) {y : ℕ} {r : Place}
    (hr : s.At free a y r) : y = z ∧ r = p := by
  simpa [(h.places a z p).1 hp, eq_comm] using (h.places a y r).1 hr

/-- Steps that change neither elements nor lists. -/
structure Same (s s' : System) : Prop where
  mem : s'.mem = s.mem
  held : s'.held = s.held
  space : s'.nextSpace = s.nextSpace ∧ s'.endOfSpace = s.endOfSpace
  zones : ∀ z, (s'.zones z).toElements = (s.zones z).toElements
  pc : ∀ t z a, s'.pc t = .got z a ↔ s.pc t = .got z a

theorem Inv.same (h : s.Inv free place) (hs : Same s s') : s'.Inv free place := by
  have hcovers : ∀ y b x, s'.Covers y b x ↔ s.Covers y b x := fun y b x => by
    unfold Covers
    rw [hs.zones]
  obtain ⟨hnext, hend⟩ := hs.space
  refine ⟨fun z => ?_, fun a z p => ?_, hnext ▸ h.space, h.pos, ?_, ?_⟩
  · obtain ⟨hlist, hnodup, hcount, hsize⟩ := h.zones z
    refine ⟨?_, ?_, ?_, ?_⟩ <;> simpa only [hs.mem, hs.held, hs.zones]
  · rw [← h.places]
    cases p with
    | free => rfl
    | held => simp [At, hs.held]
    | got t => exact hs.pc t z a
  · simpa only [hcovers, hnext, hend] using h.rest
  · simpa only [hcovers] using h.apart

theorem same_zone {zone : Zone} (hzone : zone.toElements = (s.zones z).toElements) :
    Same s (s.setZone z zone) := by
  refine ⟨rfl, rfl, ⟨rfl, rfl⟩, fun y => ?_, fun _ _ _ => Iff.rfl⟩
  rcases eq_or_ne y z with rfl | hy
  · simpa using hzone
  · simp [hy]

theorem got_update (hpc : ∀ z a, s.pc t ≠ .got z a) {pc : Pc} {y b : ℕ} (hpc' : pc ≠ .got y b)
    (i : ℕ) : update s.pc t pc i = .got y b ↔ s.pc i = .got y b := by
  rcases eq_or_ne i t with rfl | hi <;> simp [*]

theorem Inv.goto (h : s.Inv free place) (hpc : ∀ z a, s.pc t ≠ .got z a) {pc : Pc}
    (hpc' : ∀ z a, pc ≠ .got z a) : (s.goto t pc).Inv free place := by
  exact h.same ⟨rfl, rfl, ⟨rfl, rfl⟩, fun _ => rfl, fun i y b => got_update hpc (hpc' y b) i⟩

theorem Inv.more (h : s.Inv free place) (hpc : ∀ z a, s.pc t ≠ .got z a) (z : ℕ) :
    (s.more t z).Inv free place := by
  unfold System.more
  split_ifs
  · exact h.goto hpc (by simp)
  · exact h.goto hpc (by simp)
  · refine (h.same (same_zone ?_)).goto hpc ?_
    · rfl
    · simp

/-- What a step does with one element of a zone: it is put in a place, perhaps from another one. -/
structure Puts (s s' : System) (free : ℕ → List ℕ) (l : List ℕ) (z a : ℕ) (p q : Place) : Prop where
  space : s.nextSpace ≤ s'.nextSpace ∧ s'.endOfSpace = s.endOfSpace
  others : ∀ y ≠ z, s'.zones y = s.zones y ∧ s'.held y = s.held y ∧
    ∀ i b, s'.pc i = .got y b ↔ s.pc i = .got y b
  mem : ∀ b ≠ a, s'.mem b = s.mem b
  elemSize : (s'.zones z).elemSize = (s.zones z).elemSize
  zone : s'.ZoneOk l z
  places : ∀ b r, s'.At (update free z l) b z r ↔
    b = a ∧ r = q ∨ s.At free b z r ∧ ¬(b = a ∧ r = p)

theorem Inv.put (h : s.Inv free place) (hputs : Puts s s' free l z a p q)
    (ha : ∀ y r, place a = some (y, r) → y = z ∧ r = p) (hpos : 0 < a)
    (hcovers : ∀ x, s.Covers z a x → ¬(s'.nextSpace ≤ x ∧ x < s'.endOfSpace) ∧
      ∀ b y r, place b = some (y, r) → s.Covers y b x → b = a) :
    s'.Inv (update free z l) (update place a (some (z, q))) := by
  have hsame : ∀ y b x, s'.Covers y b x ↔ s.Covers y b x := fun y b x => by
    unfold Covers
    rcases eq_or_ne y z with rfl | hy
    · rw [hputs.elemSize]
    · rw [(hputs.others y hy).1]
  have hcases : ∀ b y r, update place a (some (z, q)) b = some (y, r) →
      b = a ∧ y = z ∨ b ≠ a ∧ place b = some (y, r) := by
    intro b y r hb
    rcases eq_or_ne b a with rfl | hne
    · rw [update_self] at hb
      exact .inl ⟨rfl, (congrArg Prod.fst (Option.some.inj hb)).symm⟩
    · exact .inr ⟨hne, by rwa [update_of_ne hne] at hb⟩
  have hother : ∀ y r, y ≠ z → ¬s.At free a y r := fun y r hy hr =>
    hy (ha y r ((h.places a y r).1 hr)).1
  refine ⟨fun y => ?_, fun b y r => ?_, h.space.trans_le hputs.space.1, ?_, ?_, ?_⟩
  · rcases eq_or_ne y z with rfl | hy
    · rw [update_self]
      exact hputs.zone
    · obtain ⟨hlist, hnodup, hcount, hcurSize⟩ := h.zones y
      obtain ⟨hzones, hheld, -⟩ := hputs.others y hy
      rw [update_of_ne hy]
      refine ⟨?_, by rwa [hheld], by rwa [hzones, hheld], by rwa [hzones, hheld]⟩
      rw [hzones]
      refine hlist.congr fun b hb => hputs.mem b ?_
      rintro rfl
      exact hother y .free hy hb
  · have hplace : update place a (some (z, q)) b = some (y, r) ↔
        b = a ∧ y = z ∧ r = q ∨ b ≠ a ∧ s.At free b y r := by
      rw [update_apply, h.places]
      split_ifs with hb <;> simp [hb, eq_comm]
    rw [hplace]
    rcases eq_or_ne y z with rfl | hy
    · rw [hputs.places]
      have := fun hr => (ha y r ((h.places a y r).1 hr)).2
      grind
    · have hsame : s'.At (update free z l) b y r ↔ s.At free b y r := by
        obtain ⟨-, hheld, hpc⟩ := hputs.others y hy
        cases r with
        | free => simp [At, hy]
        | held => simp [At, hheld]
        | got i => exact hpc i b
      have := hother y r hy
      grind
  · intro b y r hb
    obtain ⟨rfl, -⟩ | ⟨-, hb⟩ := hcases b y r hb
    · exact hpos
    · exact h.pos b y r hb
  · intro b y r x hb hx
    rw [hsame] at hx
    have := h.rest b y r x
    have := hputs.space
    have := hcases b y r hb
    grind
  · intro b y r c w v x hb hc hx hx'
    rw [hsame] at hx hx'
    have := h.apart b y r c w v x
    have := hcases b y r hb
    have := hcases c w v hc
    grind

/-- An element goes from one place to another. -/
theorem Inv.move (h : s.Inv free place) (hp : s.At free a z p)
    (hputs : Puts s s' free l z a p q) (hnext : s'.nextSpace = s.nextSpace) :
    s'.Inv (update free z l) (update place a (some (z, q))) := by
  have ha := (h.places a z p).1 hp
  refine h.put hputs (fun y r hr => ?_) (h.pos a z p ha)
    fun x hx => ⟨?_, fun b y r hb hx' => h.apart b y r a z p x hb ha hx' hx⟩
  · simpa [ha, eq_comm] using hr
  · rw [hnext, hputs.space.2]
    exact h.rest a z p x ha hx

/-- The first free element is handed out. -/
theorem Inv.remove (h : s.Inv free place) (hne : (s.zones z).freeElements ≠ 0)
    (hpc : ∀ z a, s.pc t ≠ .got z a) :
    ((s.removeFromZone z).give t z (s.zones z).freeElements).Good := by
  obtain ⟨hchain, hnodup, hcount, hsize⟩ := h.zones z
  cases hl : free z with
  | nil =>
    rw [hl] at hchain
    exact absurd hchain hne
  | cons a l =>
    have hnot : a ∉ l := (nodup_cons.1 (hl ▸ hchain.nodup : (a :: l).Nodup)).1
    rw [hl] at hchain hsize
    obtain ⟨ha, -, hrest⟩ := hchain
    have hmem : s.At free a z .free := by simp [At, hl]
    have hheld : a ∉ s.held z := fun hc => by cases (h.one hmem (r := .held) hc).2
    rw [ha]
    refine ⟨_, _, h.move (l := l) (q := .held) hmem ⟨⟨le_rfl, rfl⟩, fun y hy => ?_,
      fun _ _ => rfl, by simp, ⟨by simpa [ha], by simp [*], by simp [hcount], ?_⟩, ?_⟩ rfl⟩
    · exact ⟨by simp [hy], by simp [hy], fun i b => got_update hpc (by simp) i⟩
    · simp [hsize]
      ring_nf
      simp
    · rintro b (_ | _ | i)
      · simp [At, hl]
        grind
      · simp [At]
      · simpa [At] using got_update hpc (by simp) i

/-- An element from `zget_space` is counted and handed out. -/
theorem Inv.counted (h : s.Inv free place) (hpc : s.pc t = .got z a) :
    ((s.countElement z).give t z a).Good := by
  obtain ⟨hchain, hnodup, hcount, hsize⟩ := h.zones z
  have hmem : s.At free a z (.got t) := hpc
  have hheld : a ∉ s.held z := fun hc => by cases (h.one hmem (r := .held) hc).2
  refine ⟨_, _, h.move (l := free z) (q := .held) hmem ⟨⟨le_rfl, rfl⟩, fun y hy => ?_,
    fun _ _ => rfl, by simp, ⟨by simpa, by simp [*], by simp [hcount], ?_⟩, ?_⟩ rfl⟩
  · refine ⟨by simp [hy], by simp [hy], fun i b => ?_⟩
    rcases eq_or_ne i t with rfl | hi <;> simp [*, hy.symm]
  · simp [hsize]
    ring
  · rintro b (_ | _ | i)
    · simp [At]
    · simp [At]
    · rcases eq_or_ne i t with rfl | hi
      · simp [At, hpc]
        grind
      · simp [At, *]

theorem Inv.zfree (h : s.Inv free place) (hmem : a ∈ s.held z) :
    (s.step (.zfree z a)).Good := by
  obtain ⟨hchain, hnodup, hcount, hsize⟩ := h.zones z
  have hp : s.At free a z .held := hmem
  have hnot : a ∉ free z := fun hc => by cases (h.one hp (r := .free) hc).2
  have := length_pos_of_mem hmem
  refine ⟨_, _, h.move (l := a :: free z) (q := .free) hp ⟨⟨le_rfl, rfl⟩, fun y hy => ?_,
    fun b hb => ?_, by simp [step], ⟨⟨by simp [step], h.pos a z .held ((h.places a z .held).1 hp),
      ?_⟩, ?_, ?_, ?_⟩, ?_⟩ rfl⟩
  · simp [step, hy]
  · simp [step, hb]
  · simpa [step] using hchain.congr fun b hb => update_of_ne (fun hc => hnot (by rwa [← hc])) _ _
  · simpa [step] using hnodup.erase a
  · simp [step, hcount, length_erase_of_mem hmem]
    omega
  · simp [step, hsize, length_erase_of_mem hmem]
    left
    omega
  · rintro b (_ | _ | i)
    · simp [At]
    · simp [At, step, hnodup.mem_erase_iff, and_comm]
    · simp [At, step]

/-- An element that is crammed into a zone. -/
theorem Inv.cram (h : s.Inv free place) (hclear : s.Clear place a n)
    (hn : (s.zones z).elemSize ≤ n) :
    ((s.addToZone z a).countElement z).Inv (update free z (a :: free z))
      (update place a (some (z, .free))) := by
  obtain ⟨hchain, hnodup, hcount, hsize⟩ := h.zones z
  have hin : ∀ x, s.Covers z a x → a ≤ x ∧ x < a + n := fun x hx => ⟨hx.1, by have := hx.2; omega⟩
  have hnone : ∀ y r, place a ≠ some (y, r) := fun y r hr =>
    (hclear.2 a le_rfl (hin a (s.covers_self z a)).2).2 a y r hr (s.covers_self y a)
  have hnot : a ∉ free z := fun hc => hnone z .free ((h.places a z .free).1 hc)
  refine h.put (p := .free) ⟨⟨le_rfl, rfl⟩, fun y hy => ?_, fun b hb => ?_, by simp,
    ⟨⟨by simp, hclear.1, ?_⟩, hnodup, by simp [hcount], ?_⟩, ?_⟩
    (fun y r hr => absurd hr (hnone y r)) hclear.1 fun x hx => ?_
  · simp [hy]
  · simp [hb]
  · simpa using hchain.congr fun b hb => update_of_ne (fun hc => hnot (by rwa [← hc])) _ _
  · simp [hsize]
    ring
  · rintro b (_ | _ | i)
    · simp [At]
      grind
    · simp [At]
    · simp [At]
  · have hx' := hclear.2 x (hin x hx).1 (hin x hx).2
    exact ⟨hx'.1, fun b y r hb hc => absurd hc (hx'.2 b y r hb)⟩

theorem Inv.zcram {fuel : ℕ} (h : s.Inv free place) (hclear : s.Clear place a n) :
    (zcram z fuel a n s).Good := by
  induction fuel generalizing s free place a n with
  | zero => exact ⟨_, _, h⟩
  | succ fuel ih =>
    unfold System.zcram
    split_ifs with hlt
    · exact ⟨_, _, h⟩
    · refine ih (h.cram hclear (not_lt.1 hlt)) ⟨by have := hclear.1; omega, fun x hax hxa => ?_⟩
      obtain ⟨hrest, hfree⟩ := hclear.2 x (by omega) (by omega)
      refine ⟨hrest, fun b y r hb hx => ?_⟩
      have hcovers : s.Covers y b x := by
        unfold Covers at hx ⊢
        rcases eq_or_ne y z with rfl | hy <;> simpa [*] using hx
      rcases eq_or_ne b a with rfl | hne
      · rw [update_self] at hb
        obtain rfl : z = y := congrArg Prod.fst (Option.some.inj hb)
        have := hcovers.2
        omega
      · exact hfree b y r (by rwa [update_of_ne hne] at hb) hcovers

theorem zcram_pc {fuel : ℕ} : (zcram z fuel a n s).pc = s.pc := by
  induction fuel generalizing s a n with
  | zero => rfl
  | succ fuel ih =>
    unfold System.zcram
    split_ifs
    · rfl
    · exact ih

theorem Inv.zgetSpace (h : s.Inv free place) (hpc : ∀ z a, s.pc t ≠ .got z a) :
    (s.zgetSpace t z).Good := by
  obtain ⟨hchain, hnodup, hcount, hsize⟩ := h.zones z
  unfold System.zgetSpace
  split_ifs with hfits
  · have hrest : ∀ x, s.Covers z s.nextSpace x → s.nextSpace ≤ x ∧ x < s.endOfSpace :=
      fun x hx => ⟨hx.1, hx.2.trans_le hfits⟩
    have hnone : ∀ y r, place s.nextSpace ≠ some (y, r) := fun y r hr =>
      h.rest _ y r _ hr (s.covers_self y _) (hrest _ (s.covers_self z _))
    refine ⟨_, _, h.put (l := free z) (p := .got t) (q := .got t) ⟨⟨Nat.le_add_right _ _, rfl⟩,
      fun y hy => ⟨rfl, rfl, fun i b => got_update hpc (by simp [hy.symm]) i⟩, fun _ _ => rfl, rfl,
      ⟨hchain, hnodup, hcount, hsize⟩, ?_⟩ (fun y r hr => absurd hr (hnone y r)) h.space
      fun x hx => ⟨?_, fun b y r hb hc => ?_⟩⟩
    · rintro b (_ | _ | i)
      · simp [At]
      · simp [At]
      · rcases eq_or_ne i t with rfl | hi
        · have := hpc z b
          simp [At, this, eq_comm]
        · simp [At, hi]
    · exact fun hc => absurd hx.2 (not_lt.2 hc.1)
    · exact absurd (hrest x hx) (h.rest b y r x hb hc)
  · exact ⟨_, _, h.goto hpc (by simp)⟩

theorem Inv.addSpace (h : s.Inv free place) (hclear : s.Clear place a (roundPage n)) :
    (s.addSpace a n).Inv free place := by
  refine ⟨fun z => ?_, fun b y r => ?_, ?_, h.pos, fun b y r x hb hx hc => ?_, h.apart⟩
  · obtain ⟨hchain, hnodup, hcount, hsize⟩ := h.zones z
    exact ⟨hchain, hnodup, hcount, hsize⟩
  · rw [← h.places]
    cases r <;> rfl
  · unfold System.addSpace
    dsimp only
    split_ifs
    · exact h.space
    · exact hclear.1
  · unfold System.addSpace at hc
    dsimp only at hc
    by_cases hax : a ≤ x
    · exact (hclear.2 x hax hc.2).2 b y r hb hx
    · split_ifs at hc with heq
      · exact h.rest b y r x hb hx ⟨hc.1, by omega⟩
      · exact hax hc.1

theorem Inv.write (h : s.Inv free place) {mem : ℕ → ℕ} (he : s.Allows (.write mem)) :
    (s.step (.write mem)).Inv free place := by
  refine ⟨fun z => ?_, fun b y r => ?_, h.space, h.pos, h.rest, h.apart⟩
  swap
  · rw [← h.places]
    cases r <;> rfl
  obtain ⟨hchain, hnodup, hcount, hsize⟩ := h.zones z
  refine ⟨hchain.congr fun b hb => he b fun y elem helem hx => ?_, hnodup, hcount, hsize⟩
  have hfree := (h.places b z .free).1 hb
  have hheld := (h.places elem y .held).1 helem
  obtain rfl := h.apart b z .free elem y .held b hfree hheld (s.covers_self z b) hx
  cases (h.one (p := .free) hb (r := .held) helem).2

theorem Inv.zallocLocked (h : s.Inv free place) (hpc : ∀ z a, s.pc t ≠ .got z a) (z : ℕ) :
    (s.zallocLocked t z).Good := by
  unfold System.zallocLocked
  split_ifs with hne
  · exact ⟨_, _, h.more hpc z⟩
  · exact h.remove hne hpc

theorem Inv.resume (h : s.Inv free place) (hf : s.Fresh a (s.asks t)) :
    (s.resume t a).Good := by
  have hclear := h.clear hf
  unfold asks at hclear
  unfold System.resume
  cases hpc : s.pc t with
  | out => exact ⟨_, _, h⟩
  | waiting z => exact ⟨_, _, h.more (by simp [hpc]) z⟩
  | getting z =>
    rw [hpc] at hclear
    dsimp only at hclear ⊢
    split_ifs at hclear ⊢
    · obtain ⟨free', place', h'⟩ := h.zcram hclear
      exact ⟨free', place', h'.goto (by simp [zcram_pc, hpc]) (by simp)⟩
    · exact h.zgetSpace (by simp [hpc])
  | crammed z pageable =>
    refine (h.same (same_zone ?_)).zallocLocked ?_ z
    · rfl
    · simp [hpc]
  | wiring z =>
    rw [hpc] at hclear
    dsimp only
    split_ifs
    · exact h.zgetSpace (by simp [hpc])
    · exact (h.addSpace hclear).zgetSpace (by simp [System.addSpace, hpc])
  | got z elem => exact h.counted hpc

theorem Inv.step (h : s.Inv free place) {e : Event} (he : s.Allows e) :
    (s.step e).Good := by
  cases e with
  | zalloc t z =>
    have hpc : s.pc t = .out := he
    exact h.zallocLocked (by simp [hpc]) z
  | resume t a => exact h.resume he
  | zget t z =>
    have hpc : s.pc t = .out := he
    unfold System.step
    dsimp only
    split_ifs with hne
    · exact ⟨_, _, h⟩
    · exact h.remove hne (by simp [hpc])
  | zfree z a => exact h.zfree he
  | zcram z a n => exact h.zcram (h.clear he)
  | zchange z => exact ⟨_, _, h.same (same_zone rfl)⟩
  | write mem => exact ⟨_, _, h.write he⟩

end System

theorem Reachable.good {s : System} (h : Reachable s) : s.Good := by
  induction h with
  | start hzones hspace hpc hheld =>
    refine ⟨fun _ => [], fun _ => none, ⟨fun z => ?_, fun a z p => ?_, hspace, by simp, by simp,
      by simp⟩⟩
    · obtain ⟨size, maxSize, alloc, pageable, hz⟩ := hzones z
      refine ⟨?_, ?_, ?_, ?_⟩ <;> simp [hz, hheld, zinit, FreeList.Chain]
    · cases p <;> simp [System.At, hpc, hheld]
  | step h e he ih =>
    obtain ⟨free, place, h⟩ := ih
    exact h.step he

/-- However threads allocate and free at once, the list of every zone holds its free elements, each
once, none of them is with a caller or given to two, and no byte is in two elements, of whatever
zones; the counts are those of the elements. -/
theorem zones_run {s : System} (h : Reachable s) : ∃ free : ℕ → List ℕ,
    (∀ z, Chain s.mem (s.zones z).freeElements (free z) ∧ (free z ++ s.held z).Nodup ∧
      (s.zones z).count = (s.held z).length ∧ (s.zones z).curSize =
        (free z ++ s.held z).length * (s.zones z).elemSize) ∧
    ∀ y z a b x, a ∈ free y ++ s.held y → b ∈ free z ++ s.held z → s.Covers y a x →
      s.Covers z b x → y = z ∧ a = b := by
  obtain ⟨free, place, h⟩ := h.good
  have hat : ∀ y a, a ∈ free y ++ s.held y → ∃ p, s.At free a y p := fun y a ha =>
    (mem_append.1 ha).elim (⟨.free, ·⟩) (⟨.held, ·⟩)
  refine ⟨free, fun z => ?_, fun y z a b x ha hb hx hx' => ?_⟩
  · obtain ⟨hchain, hnodup, hcount, hsize⟩ := h.zones z
    refine ⟨hchain, hchain.nodup.append hnodup fun a ha hc => ?_, hcount, ?_⟩
    · cases (h.one (p := .free) ha (r := .held) hc).2
    · rw [hsize, length_append]
  · obtain ⟨p, ha⟩ := hat y a ha
    obtain ⟨q, hb⟩ := hat z b hb
    obtain rfl := h.apart a y p b z q x ((h.places a y p).1 ha) ((h.places b z q).1 hb) hx hx'
    exact ⟨(h.one hb ha).1, rfl⟩

/-- Zones of elements of 16 bytes, and a page of space. -/
def bootstrapped : System :=
  ⟨fun _ => 0, fun _ => zinit 16 0 0 false, 4096, 8192, 0, fun _ => .out, fun _ => []⟩

theorem zones_run_bootstrapped : ∃ (s : System) (free : ℕ → List ℕ), s.held 0 = [4096] ∧
    (free 0 ++ s.held 0).Nodup := by
  have hstart : Reachable bootstrapped :=
    .start (fun _ => ⟨16, 0, 0, false, rfl⟩) (by decide) (fun _ => rfl) fun _ => rfl
  have hcarved := (hstart.step (.zalloc 0 0) rfl).step (.resume 0 1) ⟨by decide, fun x hlo hhi =>
    absurd hhi (not_lt.2 hlo)⟩
  have hgot := hcarved.step (.resume 0 1) ⟨by decide, fun x hlo hhi => absurd hhi (not_lt.2 hlo)⟩
  obtain ⟨free, hzones, -⟩ := zones_run hgot
  exact ⟨_, free, rfl, (hzones 0).2.1⟩

end MachKernel.Kern.Zalloc
