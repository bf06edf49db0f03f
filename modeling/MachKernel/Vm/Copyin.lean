import MachKernel.Vm.Clip

/-! Copying a range of an address map into a list of entries (`vm_map_copyin`), without
destroying the source. -/

namespace MachKernel.Vm
open List
open Word32 Linked

/-- The source map and the sharing maps, by address. -/
structure MapStore where
  map : VmMap
  share : ℕ → Option VmMap

def MapStore.setShare (M : MapStore) (k : ℕ) (m : VmMap) : MapStore :=
  { M with share := fun j => if j = k then some m else M.share j }

/-- `vm_map_copy_t` for a list of entries. -/
structure VmMapCopy where
  entries : List VmMapEntry
  nentries : ℕ
  offset : ℕ
  size : ℕ

/-- What one turn of the loop meets: which objects are temporary, how a copy of a permanent or a
wired object ends, and what other threads do to the maps while that copy is made. -/
structure Window where
  temporary : ℕ → Bool
  result : KernReturn
  object : Option ℕ
  offset : ℕ
  needsCopy : Bool
  others : MapStore → MapStore

/-- How `vm_map_copyin` ends. It panics where a lookup in a sharing map fails, or where it would
take something for an entry that is none. -/
inductive CopyinOutcome
  | ret (kr : KernReturn) (copy : Option VmMapCopy) (M : MapStore)
  | panic

/-- The loop at its head: `tmpEntry` is an entry of the source map. -/
structure CopyinState where
  maps : MapStore
  srcStart : ℕ
  tmpEntry : ℕ
  copy : VmMapCopy

open CopyinState

inductive CopyinTurn
  | again (s : CopyinState)
  | done (o : CopyinOutcome)

/-- The entry to copy after clipping, and the one with the object, which may be in a sharing map. -/
structure CopyinSource where
  maps : MapStore
  srcEntry : VmMapEntry
  srcSize : ℕ
  subMap : Option ℕ
  tmpEntry : VmMapEntry

def vmMapEntryCopy (e : VmMapEntry) : VmMapEntry :=
  { e with needsWakeup := false, inTransition := false, wiredCount := 0, userWiredCount := 0 }

/-- The answer of `vm_object_copy_temporary`: whether the source and the copy need a copy. -/
def vmObjectCopyTemporary (temporary : ℕ → Bool) (object : Option ℕ) : Option (Bool × Bool) :=
  match object with
  | none => some (false, false)
  | some o => if temporary o then some (true, true) else none

/-- The sharing map of an entry. -/
def MapStore.shareOf (M : MapStore) (e : VmMapEntry) : Option (ℕ × VmMap) :=
  e.object.bind fun k => (M.share k).map fun m => (k, m)

/-- Clips the source entry, and the entry of a sharing map, to the same range. -/
def MapStore.clipSource (M : MapStore) (srcStart srcEnd tmpEntry : ℕ) : Option CopyinSource :=
  let m := M.map.clipEnd tmpEntry srcEnd
  match m.entryAt tmpEntry with
  | none => none
  | some e =>
    let srcSize := sub e.vmeEnd srcStart
    if e.isAMap then
      match M.shareOf e with
      | none => none
      | some (k, sub₀) =>
        match sub₀.lock.lookupEntry e.offset with
        | (true, some t, sub₁) =>
          let sub₂ := sub₁.clipStart t e.offset
          match sub₂.entryAt t with
          | none => none
          | some tmp =>
            let subSize := sub tmp.vmeEnd tmp.vmeStart
            if srcSize < subSize then
              some ⟨{ M with map := m }.setShare k (sub₂.clipEnd t (add e.offset srcSize)), e,
                srcSize, some k, tmp⟩
            else if subSize < srcSize then
              let m := m.clipEnd tmpEntry (add srcStart subSize)
              match m.entryAt tmpEntry with
              | none => none
              | some e => some ⟨{ M with map := m }.setShare k sub₂, e, subSize, some k, tmp⟩
            else some ⟨{ M with map := m }.setShare k sub₂, e, srcSize, some k, tmp⟩
        | _ => none
    else some ⟨{ M with map := m }, e, srcSize, none, e⟩

/-- `new_entry` for the source. -/
def CopyinSource.newEntry (src : CopyinSource) : VmMapEntry :=
  let new := vmMapEntryCopy src.srcEntry
  if src.srcEntry.isAMap then
    { new with
      object := src.tmpEntry.object, offset := src.tmpEntry.offset
      isSubMap := false, isAMap := false }
  else new

def VmMap.setNeedsCopy (m : VmMap) (i : ℕ) : VmMap :=
  { m with entries := update VmMapEntry.id i (fun e => { e with needsCopy := true }) m.entries }

/-- The source of a copy on write is marked. -/
def CopyinSource.protect (src : CopyinSource) (srcNeedsCopy : Bool) : MapStore :=
  if srcNeedsCopy ∧ ¬ src.tmpEntry.needsCopy then
    match src.subMap with
    | none => { src.maps with map := src.maps.map.setNeedsCopy src.tmpEntry.id }
    | some k =>
      match src.maps.share k with
      | none => src.maps
      | some m => src.maps.setShare k (m.setNeedsCopy src.tmpEntry.id)
  else src.maps

/-- `CopySuccessful`: the new entry is linked in, and the loop moves on to the next entry. -/
def CopyinState.link (s : CopyinState) (new : VmMapEntry) (srcEntry srcEnd : ℕ) : CopyinTurn :=
  let copy := { s.copy with
    entries := s.copy.entries ++ [new], nentries := s.copy.nentries + 1 }
  let srcStart := new.vmeEnd
  if srcEnd ≤ srcStart ∧ srcEnd ≠ 0 then .done (.ret .success (some copy) s.maps)
  else
    match after VmMapEntry.id (some srcEntry) s.maps.map.entries with
    | [] =>
      if s.maps.map.minOffset ≠ srcStart then .done (.ret .invalidAddress none s.maps)
      else .done .panic
    | next :: _ =>
      if next.vmeStart ≠ srcStart then .done (.ret .invalidAddress none s.maps)
      else .again ⟨s.maps, srcStart, next.id, copy⟩

/-- The lookup is done again when the maps have changed while they were unlocked. -/
def CopyinState.relookup (s : CopyinState) (src : CopyinSource) (new : VmMapEntry) (srcEnd : ℕ) :
    CopyinTurn :=
  match s.maps.map.lookupEntry s.srcStart with
  | (true, some i, m) =>
    let m := m.clipStart i s.srcStart
    let M := { s.maps with map := m }
    match m.entryAt i with
    | none => .done .panic
    | some e =>
      let verificationFailed (M : MapStore) : CopyinTurn :=
        .again { s with maps := M, tmpEntry := i }
      if ¬ e.protection.read then verificationFailed M
      else
        let srcSize := if e.vmeEnd < new.vmeEnd then sub e.vmeEnd s.srcStart else src.srcSize
        let new := if e.vmeEnd < new.vmeEnd then { new with vmeEnd := e.vmeEnd } else new
        if e.isAMap then
          match M.shareOf e with
          | none => .done .panic
          | some (k, sub₀) =>
            let (_, place, sub₁) := sub₀.lock.lookupEntry e.offset
            let M := M.setShare k sub₁
            match place.bind sub₁.entryAt with
            | none => .done .panic
            | some tmp =>
              if tmp.object ≠ src.tmpEntry.object ∨ tmp.offset ≠ src.tmpEntry.offset then
                verificationFailed M
              else
                let subSize := sub tmp.vmeEnd tmp.vmeStart
                let new :=
                  if subSize < srcSize then { new with vmeEnd := add new.vmeStart subSize } else new
                { s with maps := M }.link new i srcEnd
        else if e.object ≠ src.tmpEntry.object ∨ e.offset ≠ src.tmpEntry.offset then
          verificationFailed M
        else { s with maps := M }.link new i srcEnd
  | (_, _, m) => .done (.ret .invalidAddress none { s.maps with map := m })

/-- The copy that is made with the maps unlocked. -/
def CopyinState.copyUnlocked (s : CopyinState) (w : Window) (keepWired : Bool) (srcEnd : ℕ)
    (src : CopyinSource) : CopyinTurn :=
  let wasWired := src.srcEntry.wiredCount ≠ 0
  let M := w.others src.maps
  let M := { M with map := M.map.lock }
  if ¬ wasWired ∧ w.result ≠ .success then .done (.ret w.result none M)
  else
    let new :=
      if wasWired then
        { src.newEntry with
          object := w.object, offset := 0, needsCopy := false
          wiredCount := if keepWired then 1 else 0 }
      else { src.newEntry with object := w.object, offset := w.offset, needsCopy := w.needsCopy }
    let s := { s with maps := M }
    if src.maps.map.timestamp + 1 = M.map.timestamp ∧
        ∀ k, src.subMap = some k →
          (src.maps.share k).map VmMap.timestamp = (M.share k).map VmMap.timestamp then
      s.link new src.srcEntry.id srcEnd
    else s.relookup src new srcEnd

/-- One turn of the loop of `vm_map_copyin`. -/
def copyinTurn (w : Window) (keepWired : Bool) (srcEnd : ℕ) (s : CopyinState) : CopyinTurn :=
  match s.maps.map.entryAt s.tmpEntry with
  | none => .done .panic
  | some e =>
    if ¬ e.protection.read then .done (.ret .protectionFailure none s.maps)
    else
      match s.maps.clipSource s.srcStart srcEnd s.tmpEntry with
      | none => .done .panic
      | some src =>
        match vmObjectCopyTemporary w.temporary src.tmpEntry.object with
        | some (srcNeedsCopy, newNeedsCopy) =>
          if src.srcEntry.wiredCount = 0 then
            { s with maps := src.protect srcNeedsCopy }.link
              { src.newEntry with needsCopy := newNeedsCopy } src.srcEntry.id srcEnd
          else s.copyUnlocked w keepWired srcEnd src
        | none => s.copyUnlocked w keepWired srcEnd src

/-- The loop, for at most `turns` turns, the `n`-th of which meets `ws n`. -/
def copyinLoop (keepWired : Bool) (srcEnd : ℕ) :
    ℕ → (ℕ → Window) → CopyinState → Option CopyinOutcome
  | 0, _, _ => none
  | turns + 1, ws, s =>
    match copyinTurn (ws 0) keepWired srcEnd s with
    | .again s' => copyinLoop keepWired srcEnd turns (fun n => ws (n + 1)) s'
    | .done o => some o

section
variable [PageSize]

/-- `vm_map_copyin` with `src_destroy` false; `none` while it has not come to its end. -/
def vmMapCopyin (turns : ℕ) (ws : ℕ → Window) (M : MapStore) (srcAddr len : ℕ) (keepWired : Bool) :
    Option CopyinOutcome :=
  if len = 0 then some (.ret .success none M)
  else
    let srcStart := truncPage srcAddr
    let srcEnd := roundPage (add srcAddr len)
    if srcEnd ≤ srcStart ∧ (srcEnd < srcStart ∨ srcStart ≠ 0) then
      some (.ret .invalidAddress none M)
    else
      match M.map.lock.lookupEntry srcStart with
      | (true, some i, m) =>
        copyinLoop keepWired srcEnd turns ws
          ⟨{ M with map := m.clipStart i srcStart }, srcStart, i, ⟨[], 0, srcAddr, len⟩⟩
      | (_, _, m) => some (.ret .invalidAddress none { M with map := m })

/-! ## Well-formed maps with sharing maps -/

/-- The range that an entry shows of a sharing map is mapped there. -/
def Shared (share : ℕ → Option VmMap) (e : VmMapEntry) : Prop :=
  ∃ k m, e.object = some k ∧ share k = some m ∧ PageAligned e.offset ∧
    ∀ x, e.offset ≤ x → x < e.offset + (e.vmeEnd - e.vmeStart) → m.Maps x

structure MapStore.WellFormed (M : MapStore) : Prop where
  map : M.map.WellFormed
  share : ∀ k m, M.share k = some m → m.WellFormed
  shared : ∀ e ∈ M.map.entries, e.isAMap → Shared M.share e

variable {M M' : MapStore} {m m' : VmMap} {e e' a : VmMapEntry} {k : ℕ}

theorem Shared.piece (h : Shared M.share e) (hM : M.WellFormed) (hp : Piece e a)
    (hlt : a.vmeStart < a.vmeEnd) (hal : PageAligned a.vmeStart) (hel : PageAligned e.vmeStart) :
    Shared M.share a := by
  obtain ⟨k, m, hobj, hk, hoff, hmaps⟩ := h
  have hin := hp.inside
  refine ⟨k, m, hp.object.trans hobj, hk, ?_⟩
  rcases hp.offset with ⟨ho, hs⟩ | ho
  · rw [ho]
    exact ⟨hoff, fun x hx hx' => hmaps x hx (by omega)⟩
  · have hlast := (hmaps (e.offset + (a.vmeStart - e.vmeStart)) (by omega) (by omega)).lt
      (hM.share k m hk)
    rw [ho, add_of_lt hlast]
    exact ⟨Nat.dvd_add hoff (Nat.dvd_sub hal hel), fun x hx hx' => hmaps x (by omega) (by omega)⟩

theorem MapStore.WellFormed.clipped (hM : M.WellFormed) (he : e ∈ M.map.entries)
    (h : M.map.Clipped m' e e') : { M with map := m' }.WellFormed := by
  refine ⟨h.wellFormed, hM.share, fun a ha hisA => ?_⟩
  rcases h.pieces a ha with ha' | hp
  · exact hM.shared a ha' hisA
  · have he' := hM.shared e he (hp.isAMap ▸ hisA)
    exact he'.piece hM hp (h.wellFormed.nonempty a ha) (h.wellFormed.aligned a ha).1
      (hM.map.aligned e he).1

theorem MapStore.WellFormed.setShare (hM : M.WellFormed) (hk : M.share k = some m)
    (hwf : m'.WellFormed) (hmaps : ∀ x, m'.Maps x ↔ m.Maps x) : (M.setShare k m').WellFormed := by
  refine ⟨hM.map, fun j n hj => ?_, fun a ha hisA => ?_⟩
  · simp only [MapStore.setShare] at hj
    split_ifs at hj with heq
    · cases hj
      exact hwf
    · exact hM.share j n hj
  · obtain ⟨j, n, hobj, hj, hoff, hall⟩ := hM.shared a ha hisA
    by_cases heq : j = k
    · subst heq
      rw [hk] at hj
      cases hj
      exact ⟨j, m', hobj, by simp [MapStore.setShare], hoff,
        fun x hx hx' => (hmaps x).mpr (hall x hx hx')⟩
    · exact ⟨j, n, hobj, by simp [MapStore.setShare, heq, hj], hoff, hall⟩

theorem MapStore.WellFormed.lock (hM : M.WellFormed) : { M with map := M.map.lock }.WellFormed :=
  ⟨hM.map.lock, hM.share, hM.shared⟩

theorem MapStore.WellFormed.saveHint (hM : M.WellFormed) {hint : Option ℕ}
    (hh : ∀ i, hint = some i → i ∈ M.map.entries.map VmMapEntry.id) :
    { M with map := M.map.saveHint hint }.WellFormed :=
  ⟨hM.map.saveHint hh, hM.share, hM.shared⟩

/-! ## One turn -/

theorem VmMap.WellFormed.setNeedsCopy (hwf : m.WellFormed) (i : ℕ) :
    m.setNeedsCopy i = m ∨
      ∃ e ∈ m.entries, m.Clipped (m.setNeedsCopy i) e { e with needsCopy := true } := by
  by_cases hi : i ∈ m.entries.map VmMapEntry.id
  · obtain ⟨e, he, rfl⟩ := mem_map.mp hi
    have hp : Piece e { e with needsCopy := true } :=
      ⟨rfl, rfl, rfl, ⟨le_refl _, le_refl _⟩, .inl ⟨rfl, rfl⟩⟩
    exact .inr ⟨e, he, hwf.update (f := fun e => { e with needsCopy := true }) he rfl hp rfl rfl⟩
  · left
    have hsame : Linked.update VmMapEntry.id i (fun e => { e with needsCopy := true }) m.entries =
        m.entries := by
      have hne : ∀ e ∈ m.entries, e.id ≠ i := fun e he h => hi (h ▸ mem_map_of_mem he)
      unfold Linked.update
      rw [map_congr_left fun e he => if_neg (hne e he)]
      simp
    rw [VmMap.setNeedsCopy, hsame]

/-- What is known of the source entry once it is clipped. -/
structure CopyinSource.Ok (M : MapStore) (srcStart srcEnd : ℕ) (src : CopyinSource) : Prop where
  maps : src.maps.WellFormed
  same : ∀ x, src.maps.map.Maps x ↔ M.map.Maps x
  mem : src.srcEntry ∈ src.maps.map.entries
  start : src.srcEntry.vmeStart = srcStart
  stop : src.srcEntry.vmeEnd ≤ srcEnd
  size : src.srcSize = src.srcEntry.vmeEnd - srcStart

theorem MapStore.WellFormed.clipSource (hM : M.WellFormed) (he : e ∈ M.map.entries) {srcEnd : ℕ}
    (hlt : e.vmeStart < srcEnd) (hal : PageAligned srcEnd) :
    ∃ src, M.clipSource e.vmeStart srcEnd e.id = some src ∧ src.Ok M e.vmeStart srcEnd := by
  obtain ⟨e₁, hclip, hs₁, hend₁, hoff₁⟩ := hM.map.clipEnd he hal hlt
  have hM₁ := hM.clipped he hclip
  have hmax : e₁.vmeEnd < modulus := by
    have := (hclip.wellFormed.inside e₁ hclip.mem).2
    have := hclip.wellFormed.bounds.2.1
    omega
  have hlt₁ := hclip.wellFormed.nonempty e₁ hclip.mem
  have hfind : (M.map.clipEnd e.id srcEnd).entryAt e.id = some e₁ :=
    hclip.id ▸ hclip.wellFormed.entryAt hclip.mem
  have hsize : sub e₁.vmeEnd e.vmeStart = e₁.vmeEnd - e.vmeStart := sub_of_le hmax (by omega)
  have hstop : e₁.vmeEnd ≤ srcEnd := hend₁ ▸ min_le_left _ _
  unfold MapStore.clipSource
  simp only [hfind, hsize]
  generalize M.map.clipEnd e.id srcEnd = m₁ at *
  by_cases hisA : e₁.isAMap
  · rw [if_pos hisA]
    obtain ⟨k, sub₀, hobj, hk, hoff, hmapped⟩ := hM₁.shared e₁ hclip.mem hisA
    have hk' : M.share k = some sub₀ := hk
    have hof : ({ M with map := m₁ } : MapStore).shareOf e₁ = some (k, sub₀) := by
      simp [MapStore.shareOf, hobj, hk']
    have hof' : M.shareOf e₁ = some (k, sub₀) := hof
    have hwf₀ := (hM.share k sub₀ hk').lock
    have hat : sub₀.lock.Maps e₁.offset := hmapped e₁.offset (le_refl _) (by omega)
    obtain ⟨hint, t, ht, hlook, hhint, htle, htlt⟩ := hwf₀.lookupEntry_maps hat
    obtain ⟨tmp, hclip₂, hts, hte⟩ := (hwf₀.saveHint hhint).clipStart ht hoff htle htlt
    have hfind₂ : ((sub₀.lock.saveHint hint).clipStart t.id e₁.offset).entryAt t.id = some tmp :=
      hclip₂.id ▸ hclip₂.wellFormed.entryAt hclip₂.mem
    simp only [hof', hlook, hfind₂]
    have hmaps₂ : ∀ x, ((sub₀.lock.saveHint hint).clipStart t.id e₁.offset).Maps x ↔
        sub₀.Maps x := hclip₂.maps
    generalize (sub₀.lock.saveHint hint).clipStart t.id e₁.offset = sub₂ at *
    have htmax : tmp.vmeEnd < modulus := by
      have := (hclip₂.wellFormed.inside tmp hclip₂.mem).2
      have := hclip₂.wellFormed.bounds.2.1
      omega
    have hsub : sub tmp.vmeEnd tmp.vmeStart = tmp.vmeEnd - tmp.vmeStart :=
      sub_of_le htmax (by omega)
    have hsub_al : PageAligned (tmp.vmeEnd - tmp.vmeStart) :=
      Nat.dvd_sub (hclip₂.wellFormed.aligned tmp hclip₂.mem).2
        (hclip₂.wellFormed.aligned tmp hclip₂.mem).1
    have he₁al := hclip.wellFormed.aligned e₁ hclip.mem
    rw [hsub]
    split_ifs with hlt₂ hgt₂
    · -- the entry of the sharing map is longer
      have hadd : add e₁.offset (e₁.vmeEnd - e.vmeStart) =
          e₁.offset + (e₁.vmeEnd - e.vmeStart) := add_of_lt (by omega)
      have hcut : PageAligned (e₁.offset + (e₁.vmeEnd - e.vmeStart)) := by
        rw [← hs₁]
        exact Nat.dvd_add hoff (Nat.dvd_sub he₁al.2 he₁al.1)
      obtain ⟨tmp', hclip₃, -⟩ := hclip₂.wellFormed.clipEnd hclip₂.mem hcut (by omega)
      have hmaps₃ : ∀ x, (sub₂.clipEnd tmp.id (e₁.offset + (e₁.vmeEnd - e.vmeStart))).Maps x ↔
          sub₀.Maps x := fun x => (hclip₃.maps x).trans (hmaps₂ x)
      rw [hadd, ← hclip₂.id]
      exact ⟨_, rfl, hM₁.setShare hk hclip₃.wellFormed hmaps₃, hclip.maps, hclip.mem, hs₁, hstop,
        rfl⟩
    · -- the entry of the sharing map is shorter
      have hadd : add e.vmeStart (tmp.vmeEnd - tmp.vmeStart) =
          e₁.vmeStart + (tmp.vmeEnd - tmp.vmeStart) := by
        rw [hs₁]
        exact add_of_lt (by omega)
      have hcut : PageAligned (e₁.vmeStart + (tmp.vmeEnd - tmp.vmeStart)) :=
        Nat.dvd_add he₁al.1 hsub_al
      obtain ⟨e₂, hclip₃, hs₂, hend₂, -⟩ := hclip.wellFormed.clipEnd hclip.mem hcut (by omega)
      have hM₂ := hM₁.clipped hclip.mem hclip₃
      rw [hclip.id] at hclip₃ hM₂
      have hfind₃ : (m₁.clipEnd e.id (e₁.vmeStart + (tmp.vmeEnd - tmp.vmeStart))).entryAt e.id =
          some e₂ := by
        have hid : e₂.id = e.id := hclip₃.id.trans hclip.id
        exact hid ▸ hclip₃.wellFormed.entryAt hclip₃.mem
      simp only [hadd, hfind₃]
      refine ⟨_, rfl, hM₂.setShare hk hclip₂.wellFormed hmaps₂,
        fun x => (hclip₃.maps x).trans (hclip.maps x), hclip₃.mem, hs₂.trans hs₁, ?_, ?_⟩
      · simp only [hend₂]
        omega
      · simp only [hend₂]
        omega
    · exact ⟨_, rfl, hM₁.setShare hk hclip₂.wellFormed hmaps₂, hclip.maps, hclip.mem, hs₁, hstop,
        rfl⟩
  · rw [if_neg hisA]
    exact ⟨_, rfl, hM₁, hclip.maps, hclip.mem, hs₁, hstop, rfl⟩

/-- What other threads may do while the maps are unlocked: they leave the maps well formed and the
same addresses mapped, and whoever changes the source map has locked it. -/
structure Interferes (M M' : MapStore) : Prop where
  wellFormed : M'.WellFormed
  same : ∀ x, M'.map.Maps x ↔ M.map.Maps x
  timestamp : M'.map = M.map ∨ M.map.timestamp < M'.map.timestamp

/-- How a call ends well: the source maps are as before, a copy covers the range. -/
def CopyinOk (M₀ : MapStore) (lo hi : ℕ) : CopyinOutcome → Prop
  | .ret kr copy M => M.WellFormed ∧ (∀ x, M.map.Maps x ↔ M₀.map.Maps x) ∧
      (kr = .success → ∃ c, copy = some c ∧ Covers lo hi c.entries ∧ c.nentries = c.entries.length)
  | .panic => False

/-- The loop at its head, as long as the end of the range lies above. -/
structure CopyinInv (M₀ : MapStore) (lo srcEnd : ℕ) (s : CopyinState) : Prop where
  maps : s.maps.WellFormed
  same : ∀ x, s.maps.map.Maps x ↔ M₀.map.Maps x
  entry : ∃ e ∈ s.maps.map.entries, e.id = s.tmpEntry ∧ e.vmeStart = s.srcStart
  covers : Covers lo s.srcStart s.copy.entries
  nentries : s.copy.nentries = s.copy.entries.length
  lt : s.srcStart < srcEnd

/-- What a turn does: it ends the call well, or moves on, or stays where it is because of what other
threads did. -/
def TurnOk (M₀ : MapStore) (lo srcEnd srcStart : ℕ) (quiet : Prop) : CopyinTurn → Prop
  | .done o => CopyinOk M₀ lo srcEnd o
  | .again s => CopyinInv M₀ lo srcEnd s ∧ (srcStart < s.srcStart ∨ srcStart = s.srcStart ∧ ¬ quiet)

variable {M₀ : MapStore} {lo srcEnd : ℕ} {s : CopyinState} {src : CopyinSource} {w : Window}
  {new : VmMapEntry} {quiet shares : Prop}

theorem CopyinSource.Ok.protect {srcStart : ℕ} (h : src.Ok M srcStart srcEnd) (b : Bool) :
    (src.protect b).WellFormed ∧ (∀ x, (src.protect b).map.Maps x ↔ M.map.Maps x) ∧
      (src.protect b).map.minOffset = src.maps.map.minOffset := by
  unfold CopyinSource.protect
  split_ifs
  · cases src.subMap with
    | none =>
      rcases h.maps.map.setNeedsCopy src.tmpEntry.id with heq | ⟨e, he, hclip⟩
      · rw [heq]
        exact ⟨h.maps, h.same, rfl⟩
      · exact ⟨h.maps.clipped he hclip, fun x => (hclip.maps x).trans (h.same x), rfl⟩
    | some k =>
      cases hk : src.maps.share k with
      | none =>
        simp only [hk]
        exact ⟨h.maps, h.same, trivial⟩
      | some m =>
        simp only [hk]
        refine ⟨?_, h.same, rfl⟩
        rcases (h.maps.share k m hk).setNeedsCopy src.tmpEntry.id with heq | ⟨e, he, hclip⟩
        · rw [heq]
          exact h.maps.setShare hk (h.maps.share k m hk) fun _ => Iff.rfl
        · exact h.maps.setShare hk hclip.wellFormed hclip.maps
  · exact ⟨h.maps, h.same, rfl⟩

theorem CopyinState.link_ok (hM : s.maps.WellFormed)
    (hsame : ∀ x, s.maps.map.Maps x ↔ M₀.map.Maps x) (hcov : Covers lo s.srcStart s.copy.entries)
    (hn : s.copy.nentries = s.copy.entries.length) (hstart : new.vmeStart = s.srcStart)
    (hlt : s.srcStart < new.vmeEnd) (hle : new.vmeEnd ≤ srcEnd)
    (hmin : s.maps.map.minOffset ≤ s.srcStart) (i : ℕ) :
    TurnOk M₀ lo srcEnd s.srcStart quiet (s.link new i srcEnd) := by
  have hcov' : Covers lo new.vmeEnd (s.copy.entries ++ [new]) :=
    hcov.append ⟨hstart, by omega, rfl⟩
  have hn' : s.copy.nentries + 1 = (s.copy.entries ++ [new]).length := by
    rw [length_append, hn, length_singleton]
  simp only [link]
  by_cases hend : srcEnd ≤ new.vmeEnd ∧ srcEnd ≠ 0
  · rw [if_pos hend]
    have heq : new.vmeEnd = srcEnd := by omega
    exact ⟨hM, hsame, fun _ => ⟨_, rfl, heq ▸ hcov', hn'⟩⟩
  · rw [if_neg hend]
    cases hafter : after VmMapEntry.id (some i) s.maps.map.entries with
    | nil =>
      have hne : s.maps.map.minOffset ≠ new.vmeEnd := by omega
      simp only [hne, ne_eq, not_false_eq_true, if_true]
      exact ⟨hM, hsame, fun h => by cases h⟩
    | cons next rest =>
      have hmem : next ∈ s.maps.map.entries := by
        apply mem_of_mem_after
        rw [hafter]
        exact mem_cons_self
      by_cases hgap : next.vmeStart = new.vmeEnd
      · simp only [hgap, ne_eq, not_true_eq_false, if_false]
        have hlt' : new.vmeEnd < srcEnd := by omega
        exact ⟨⟨hM, hsame, ⟨next, hmem, rfl, hgap⟩, hcov', hn', hlt'⟩, .inl hlt⟩
      · simp only [hgap, ne_eq, not_false_eq_true, if_true]
        exact ⟨hM, hsame, fun h => by cases h⟩

theorem CopyinState.relookup_ok (hM : s.maps.WellFormed)
    (hsame : ∀ x, s.maps.map.Maps x ↔ M₀.map.Maps x) (hcov : Covers lo s.srcStart s.copy.entries)
    (hn : s.copy.nentries = s.copy.entries.length) (hstart : new.vmeStart = s.srcStart)
    (hal : PageAligned s.srcStart) (hlt : s.srcStart < new.vmeEnd) (hle : new.vmeEnd ≤ srcEnd)
    (hmax : new.vmeEnd < modulus) (hsize : src.srcSize = new.vmeEnd - s.srcStart) (hq : ¬ quiet) :
    TurnOk M₀ lo srcEnd s.srcStart quiet (s.relookup src new srcEnd) := by
  unfold relookup
  by_cases hmaps : s.maps.map.Maps s.srcStart
  · obtain ⟨hint, e, he, hlook, hhint, hele, helt⟩ := hM.map.lookupEntry_maps hmaps
    have hM₁ := hM.saveHint hhint
    obtain ⟨e', hclip, hs', he'⟩ := hM₁.map.clipStart he hal hele helt
    have hM₂ := hM₁.clipped he hclip
    have hfind : ((s.maps.map.saveHint hint).clipStart e.id s.srcStart).entryAt e.id = some e' :=
      hclip.id ▸ hclip.wellFormed.entryAt hclip.mem
    simp only [hlook, hfind]
    have hsame₂ : ∀ x, ((s.maps.map.saveHint hint).clipStart e.id s.srcStart).Maps x ↔
        M₀.map.Maps x := fun x => (hclip.maps x).trans (hsame x)
    have hM₂' : ({ s.maps with map := (s.maps.map.saveHint hint).clipStart e.id s.srcStart }
      : MapStore).WellFormed := hM₂
    have hid := hclip.id
    have hmem := hclip.mem
    have hmin := (hclip.wellFormed.inside e' hmem).1
    have hne := hclip.wellFormed.nonempty e' hmem
    have htop : e'.vmeEnd < modulus := by
      have := (hclip.wellFormed.inside e' hmem).2
      have := hclip.wellFormed.bounds.2.1
      omega
    clear hM₂ hclip hfind
    generalize (s.maps.map.saveHint hint).clipStart e.id s.srcStart = m₂ at *
    -- starting over with the entry that is there now
    have hagain : ∀ M', M'.WellFormed → (M'.map = m₂) → TurnOk M₀ lo srcEnd s.srcStart quiet
        (.again { s with maps := M', tmpEntry := e.id }) := by
      rintro M' hM' rfl
      exact ⟨⟨hM', hsame₂, ⟨e', hmem, hid, hs'⟩, hcov, hn, hlt.trans_le hle⟩, .inr ⟨rfl, hq⟩⟩
    have hlink : ∀ M' n, M'.WellFormed → M'.map = m₂ → n.vmeStart = s.srcStart →
        s.srcStart < n.vmeEnd → n.vmeEnd ≤ srcEnd →
        TurnOk M₀ lo srcEnd s.srcStart quiet ({ s with maps := M' }.link n e.id srcEnd) := by
      rintro M' n hM' rfl hns hnlt hnle
      exact link_ok (s := { s with maps := M' }) hM' hsame₂ hcov hn hns hnlt hnle
        (hmin.trans (le_of_eq hs')) _
    by_cases hread : e'.protection.read = true
    swap
    · simpa only [hread, Bool.false_eq_true, not_false_eq_true, if_true] using hagain _ hM₂' rfl
    simp only [hread, not_true_eq_false, if_false]
    -- the new entry is cut to the entry that is there now
    generalize hz : (if e'.vmeEnd < new.vmeEnd then sub e'.vmeEnd s.srcStart else src.srcSize) = z
    generalize hn₁ : (if e'.vmeEnd < new.vmeEnd then { new with vmeEnd := e'.vmeEnd } else new) =
      new₁
    have hnew₁ : new₁.vmeStart = s.srcStart ∧ s.srcStart < new₁.vmeEnd ∧
        new₁.vmeEnd ≤ srcEnd ∧ new₁.vmeEnd < modulus ∧ z = new₁.vmeEnd - s.srcStart := by
      rw [← hz, ← hn₁]
      split_ifs with hcut
      · exact ⟨hstart, by simp only; omega, by simp only; omega, htop, sub_of_le htop (by omega)⟩
      · exact ⟨hstart, hlt, hle, hmax, hsize⟩
    obtain ⟨hs₁, hlt₁, hle₁, hmax₁, hz₁⟩ := hnew₁
    by_cases hisA : e'.isAMap = true
    · obtain ⟨k, sub₀, hobj, hk, hoff, hmapped⟩ := hM₂'.shared e' hmem hisA
      have hk' : s.maps.share k = some sub₀ := hk
      have hof : ({ s.maps with map := m₂ } : MapStore).shareOf e' = some (k, sub₀) := by
        simp [MapStore.shareOf, hobj, hk']
      have hwf₀ := (hM.share k sub₀ hk').lock
      have hat : sub₀.lock.Maps e'.offset := hmapped e'.offset (le_refl _) (by omega)
      obtain ⟨hint', t, ht, hlook', hhint', htle, htlt⟩ := hwf₀.lookupEntry_maps hat
      have hfind' : (sub₀.lock.saveHint hint').entryAt t.id = some t :=
        (hwf₀.saveHint hhint').entryAt ht
      have hM₃ := hM₂'.setShare hk (hwf₀.saveHint hhint') fun _ => Iff.rfl
      simp only [hisA, hof, hlook', Option.bind_some, hfind', if_true]
      split_ifs with hobj' hshort
      · exact hagain _ hM₃ rfl
      · have htop' : t.vmeEnd < modulus := by
          have := (hwf₀.inside t ht).2
          have := hwf₀.bounds.2.1
          omega
        have hsub : sub t.vmeEnd t.vmeStart = t.vmeEnd - t.vmeStart := sub_of_le htop' (by omega)
        have hadd : add new₁.vmeStart (t.vmeEnd - t.vmeStart) =
            s.srcStart + (t.vmeEnd - t.vmeStart) := by
          rw [hs₁]
          exact add_of_lt (by omega)
        rw [hsub] at hshort ⊢
        rw [hadd]
        exact hlink _ _ hM₃ rfl hs₁ (by simp only; omega) (by simp only; omega)
      · exact hlink _ _ hM₃ rfl hs₁ hlt₁ hle₁
    · simp only [hisA, Bool.false_eq_true, if_false]
      split_ifs with hobj'
      · exact hagain _ hM₂' rfl
      · exact hlink _ _ hM₂' rfl hs₁ hlt₁ hle₁
  · obtain ⟨hint, place, hlook, hhint⟩ := hM.map.lookupEntry_not hmaps
    rw [hlook]
    exact ⟨hM.saveHint hhint, hsame, fun h => by cases h⟩

/-- Other threads leave the maps alone. -/
def Window.Quiet (w : Window) : Prop := ∀ M, w.others M = M

omit [PageSize] in
theorem CopyinSource.newEntry_range (src : CopyinSource) :
    src.newEntry.vmeStart = src.srcEntry.vmeStart ∧ src.newEntry.vmeEnd = src.srcEntry.vmeEnd := by
  unfold CopyinSource.newEntry
  split_ifs
  · exact ⟨rfl, rfl⟩
  · exact ⟨rfl, rfl⟩

theorem CopyinState.copyUnlocked_ok (hs : CopyinInv M₀ lo srcEnd s)
    (hw : ∀ M, M.WellFormed → Interferes M (w.others M)) (hsrc : src.Ok s.maps s.srcStart srcEnd)
    (keepWired : Bool) :
    TurnOk M₀ lo srcEnd s.srcStart w.Quiet (s.copyUnlocked w keepWired srcEnd src) := by
  have hint := hw src.maps hsrc.maps
  have hlocked := hint.wellFormed.lock
  have hsame : ∀ x, (w.others src.maps).map.lock.Maps x ↔ M₀.map.Maps x := fun x =>
    ((hint.same x).trans (hsrc.same x)).trans (hs.same x)
  have hin := hsrc.maps.map.inside src.srcEntry hsrc.mem
  have hne := hsrc.maps.map.nonempty src.srcEntry hsrc.mem
  have hal := hsrc.maps.map.aligned src.srcEntry hsrc.mem
  have hbound := hsrc.maps.map.bounds
  have hstart := hsrc.start
  have hstop := hsrc.stop
  simp only [copyUnlocked]
  by_cases hfail : src.srcEntry.wiredCount = 0 ∧ w.result ≠ .success
  · simp only [hfail, ne_eq, not_true_eq_false, not_false_eq_true, and_self, if_true]
    exact ⟨hlocked, hsame, fun h => absurd h hfail.2⟩
  · have hfail' : ¬ (¬ (src.srcEntry.wiredCount ≠ 0) ∧ w.result ≠ .success) := by
      rwa [not_not]
    rw [if_neg hfail']
    -- whichever way the object was copied, the new entry has the range of the source
    generalize hn : (if src.srcEntry.wiredCount ≠ 0 then _ else _ : VmMapEntry) = new
    have hnew : new.vmeStart = s.srcStart ∧ new.vmeEnd = src.srcEntry.vmeEnd := by
      rw [← hn]
      have hr := src.newEntry_range
      by_cases hwired : src.srcEntry.wiredCount ≠ 0
      · rw [if_pos hwired]
        exact ⟨hr.1.trans hstart, hr.2⟩
      · rw [if_neg hwired]
        exact ⟨hr.1.trans hstart, hr.2⟩
    split_ifs with hver
    · have hmap : (w.others src.maps).map = src.maps.map := by
        rcases hint.timestamp with h | h
        · exact h
        · have h1 : src.maps.map.timestamp + 1 = (w.others src.maps).map.timestamp + 1 := hver.1
          omega
      have hmin : (w.others src.maps).map.lock.minOffset ≤ s.srcStart := by
        rw [hmap]
        exact hin.1.trans hstart.le
      exact link_ok (s := { s with maps := _ }) hlocked hsame hs.covers hs.nentries
        hnew.1 (by simp only; omega) (by omega) hmin _
    · have hq : ¬ w.Quiet := by
        intro hq
        apply hver
        rw [hq src.maps]
        exact ⟨rfl, fun _ _ => rfl⟩
      exact relookup_ok (s := { s with maps := _ }) hlocked hsame hs.covers hs.nentries
        hnew.1 (hstart ▸ hal.1) (by simp only; omega) (by omega) (by omega)
        (by rw [hsrc.size, hnew.2]) hq

theorem copyinTurn_ok (hs : CopyinInv M₀ lo srcEnd s) (hal : PageAligned srcEnd)
    (hw : ∀ M, M.WellFormed → Interferes M (w.others M)) (keepWired : Bool) :
    TurnOk M₀ lo srcEnd s.srcStart w.Quiet (copyinTurn w keepWired srcEnd s) := by
  obtain ⟨e, he, hid, hstart⟩ := hs.entry
  have hfind : s.maps.map.entryAt s.tmpEntry = some e := hid ▸ hs.maps.map.entryAt he
  unfold copyinTurn
  simp only [hfind]
  by_cases hread : ¬ e.protection.read = true
  · rw [if_pos hread]
    exact ⟨hs.maps, hs.same, fun h => by cases h⟩
  rw [if_neg hread]
  obtain ⟨src, hclip, hsrc⟩ := hs.maps.clipSource he (hstart ▸ hs.lt) hal
  rw [hid, hstart] at hclip
  rw [hstart] at hsrc
  simp only [hclip]
  cases htemp : vmObjectCopyTemporary w.temporary src.tmpEntry.object with
  | none => exact copyUnlocked_ok hs hw hsrc keepWired
  | some needs =>
    simp only
    split_ifs with hwired
    · obtain ⟨hM, hsame, hmin⟩ := hsrc.protect needs.1
      have hr := src.newEntry_range
      have hne := hsrc.maps.map.nonempty src.srcEntry hsrc.mem
      have hin := hsrc.maps.map.inside src.srcEntry hsrc.mem
      have hs₀ := hsrc.start
      have hs₁ := hsrc.stop
      have hmin' : (src.protect needs.1).map.minOffset ≤ s.srcStart := by omega
      have hlt₁ : s.srcStart < src.newEntry.vmeEnd := by omega
      have hle₁ : src.newEntry.vmeEnd ≤ srcEnd := by omega
      have hstart' : ({ src.newEntry with needsCopy := needs.2 } : VmMapEntry).vmeStart =
          s.srcStart := hr.1.trans hs₀
      exact link_ok (s := { s with maps := src.protect needs.1 }) hM
        (fun x => (hsame x).trans (hs.same x)) hs.covers hs.nentries hstart' hlt₁ hle₁ hmin' _
    · exact copyUnlocked_ok hs hw hsrc keepWired

theorem copyinLoop_ok (hal : PageAligned srcEnd) (keepWired : Bool) (N d : ℕ) :
    ∀ (ws : ℕ → Window) (s : CopyinState),
      (∀ n M, M.WellFormed → Interferes M ((ws n).others M)) → (∀ n ≥ N, (ws n).Quiet) →
      CopyinInv M₀ lo srcEnd s → srcEnd - s.srcStart ≤ d →
      ∃ turns o, copyinLoop keepWired srcEnd turns ws s = some o ∧ CopyinOk M₀ lo srcEnd o := by
  induction N generalizing d with
  | zero =>
    induction d with
    | zero =>
      intro ws s _ _ hs hd
      have := hs.lt
      omega
    | succ d ih =>
      intro ws s hws hq hs hd
      have hturn := copyinTurn_ok hs hal (hws 0) keepWired
      cases ht : copyinTurn (ws 0) keepWired srcEnd s with
      | done o =>
        rw [ht] at hturn
        exact ⟨1, o, by simp only [copyinLoop, ht], hturn⟩
      | again s' =>
        rw [ht] at hturn
        obtain ⟨hs', hlt | ⟨-, hnq⟩⟩ := hturn
        · obtain ⟨turns, o, ho, hok⟩ := ih (fun n => ws (n + 1)) s' (fun n => hws (n + 1))
            (fun n hn => hq (n + 1) (by omega)) hs' (by have := hs'.lt; omega)
          exact ⟨turns + 1, o, by simp only [copyinLoop, ht, ho], hok⟩
        · exact absurd (hq 0 (le_refl _)) hnq
  | succ N ih =>
    intro ws s hws hq hs hd
    have hturn := copyinTurn_ok hs hal (hws 0) keepWired
    cases ht : copyinTurn (ws 0) keepWired srcEnd s with
    | done o =>
      rw [ht] at hturn
      exact ⟨1, o, by simp only [copyinLoop, ht], hturn⟩
    | again s' =>
      rw [ht] at hturn
      obtain ⟨turns, o, ho, hok⟩ := ih _ (fun n => ws (n + 1)) s' (fun n => hws (n + 1))
        (fun n hn => hq (n + 1) (by omega)) hturn.1 (le_refl _)
      exact ⟨turns + 1, o, by simp only [copyinLoop, ht, ho], hok⟩

/-! ## A range that ends at address zero -/

/-- The loop at an entry that begins at address zero. -/
structure CopyinStuck (shares : Prop) (s : CopyinState) : Prop where
  entry : ∃ zs y post, s.maps.map.entries = zs ++ y :: post ∧ y.id = s.tmpEntry ∧
    y.vmeStart = 0 ∧ 0 < y.vmeEnd ∧ y.protection.read = true
  distinct : Distinct VmMapEntry.id s.maps.map.entries
  nextId : ∀ e ∈ s.maps.map.entries, e.id < s.maps.map.nextId
  share : ∀ e ∈ s.maps.map.entries, e.isAMap = true → shares
  start : s.srcStart = 0

section
omit [PageSize]

theorem VmMap.clipEnd_zero {zs post : List VmMapEntry} (h : m.entries = zs ++ e :: post)
    (hd : Distinct VmMapEntry.id m.entries) (hpos : 0 < e.vmeEnd) :
    (m.clipEnd e.id 0).entries = zs ++ { e with vmeEnd := 0 } ::
      { e with id := m.nextId, vmeStart := 0, offset := add e.offset (sub 0 e.vmeStart) } :: post ∧
    (m.clipEnd e.id 0).nextId = m.nextId + 1 := by
  have hfind : m.entryAt e.id = some e := hd.find (by rw [h]; simp)
  rw [h] at hd
  unfold VmMap.clipEnd
  simp only [hfind, hpos, if_true, VmMap.split, h]
  rw [replace_split hd]
  simp

theorem MapStore.clipSource_zero {i : ℕ} (h : (M.map.clipEnd i 0).entryAt i = some e)
    (he : e.vmeEnd = 0) (hsrc : M.clipSource 0 0 i = some src) :
    src.maps.map = M.map.clipEnd i 0 ∧ src.srcEntry = e := by
  have hsub : sub e.vmeEnd 0 = 0 := by
    rw [he]
    decide
  unfold MapStore.clipSource at hsrc
  simp only [h, hsub, Nat.not_lt_zero, if_false] at hsrc
  split at hsrc
  · split at hsrc
    · cases hsrc
    · split at hsrc
      · split at hsrc
        · cases hsrc
        · split at hsrc <;> cases hsrc <;> exact ⟨rfl, rfl⟩
      · cases hsrc
  · cases hsrc
    exact ⟨rfl, rfl⟩

theorem MapStore.clipSource_none {i x y : ℕ} (h : (M.map.clipEnd i x).entryAt i = some e)
    (hsrc : M.clipSource y x i = none) : e.isAMap = true := by
  unfold MapStore.clipSource at hsrc
  simp only [h] at hsrc
  by_contra hisA
  rw [if_neg hisA] at hsrc
  cases hsrc

theorem CopyinSource.protect_entries (src : CopyinSource) (b : Bool) :
    ∃ f : VmMapEntry → VmMapEntry, (∀ e, (f e).id = e.id ∧ (f e).vmeStart = e.vmeStart ∧
        (f e).vmeEnd = e.vmeEnd ∧ (f e).protection = e.protection ∧ (f e).isAMap = e.isAMap) ∧
      (src.protect b).map.entries = src.maps.map.entries.map f ∧
      (src.protect b).map.nextId = src.maps.map.nextId := by
  have hid : ∃ f : VmMapEntry → VmMapEntry, (∀ e, (f e).id = e.id ∧ (f e).vmeStart = e.vmeStart ∧
      (f e).vmeEnd = e.vmeEnd ∧ (f e).protection = e.protection ∧ (f e).isAMap = e.isAMap) ∧
      src.maps.map.entries = src.maps.map.entries.map f :=
    ⟨id, fun _ => ⟨rfl, rfl, rfl, rfl, rfl⟩, (map_id _).symm⟩
  obtain ⟨f, hf, hmap⟩ := hid
  unfold CopyinSource.protect
  split_ifs
  · cases src.subMap with
    | none =>
      refine ⟨_, fun e => ?_, rfl, rfl⟩
      split_ifs <;> exact ⟨rfl, rfl, rfl, rfl, rfl⟩
    | some k =>
      cases hk : src.maps.share k with
      | none =>
        simp only [hk]
        exact ⟨f, hf, hmap, trivial⟩
      | some m =>
        simp only [hk]
        exact ⟨f, hf, hmap, rfl⟩
  · exact ⟨f, hf, hmap, rfl⟩

theorem CopyinState.link_stuck {zs post : List VmMapEntry} {y z : VmMapEntry}
    (h : s.maps.map.entries = zs ++ z :: y :: post) (hd : Distinct VmMapEntry.id s.maps.map.entries)
    (hnext : ∀ e ∈ s.maps.map.entries, e.id < s.maps.map.nextId) (hy : y.vmeStart = 0)
    (hpos : 0 < y.vmeEnd) (hread : y.protection.read = true)
    (hshare : ∀ e ∈ s.maps.map.entries, e.isAMap = true → shares) (hnew : new.vmeEnd = 0) :
    ∃ s', s.link new z.id 0 = .again s' ∧ CopyinStuck shares s' := by
  have hafter : after VmMapEntry.id (some z.id) s.maps.map.entries = y :: post := by
    rw [h] at hd ⊢
    exact after_split hd
  simp only [link, hafter, hnew, hy, ne_eq, not_true_eq_false, and_false, if_false]
  exact ⟨_, rfl, ⟨zs ++ [z], y, post, by simp [h], rfl, hy, hpos, hread⟩, hd, hnext, hshare, rfl⟩

theorem copyinTurn_stuck (hs : CopyinStuck shares s) (hq : w.Quiet) (hw : w.result = .success)
    (keepWired : Bool) : copyinTurn w keepWired 0 s = .done .panic ∧ shares ∨
      ∃ s', copyinTurn w keepWired 0 s = .again s' ∧ CopyinStuck shares s' := by
  obtain ⟨zs, y, post, hsplit, hid, hy, hpos, hread⟩ := hs.entry
  have hmem : y ∈ s.maps.map.entries := by rw [hsplit]; simp
  have hfind : s.maps.map.entryAt s.tmpEntry = some y := hid ▸ hs.distinct.find hmem
  obtain ⟨hclip, hnextId⟩ := VmMap.clipEnd_zero hsplit hs.distinct hpos
  have hd₁ : Distinct VmMapEntry.id (s.maps.map.clipEnd y.id 0).entries := by
    have hd := hs.distinct
    rw [hsplit] at hd
    rw [hclip, append_cons]
    apply Distinct.insert
    · rw [← append_cons]
      unfold Distinct at hd ⊢
      simpa only [map_append, map_cons] using hd
    · intro hin
      rw [← append_cons] at hin
      have hin' : s.maps.map.nextId ∈ s.maps.map.entries.map VmMapEntry.id := by
        rw [hsplit]
        simpa only [map_append, map_cons] using hin
      obtain ⟨a, ha, heq⟩ := mem_map.mp hin'
      have := hs.nextId a ha
      omega
  have hnext₁ : ∀ e ∈ (s.maps.map.clipEnd y.id 0).entries,
      e.id < (s.maps.map.clipEnd y.id 0).nextId := by
    intro a ha
    have hold : ∀ b ∈ s.maps.map.entries, b.id < s.maps.map.nextId + 1 := fun b hb =>
      (hs.nextId b hb).trans (Nat.lt_succ_self _)
    rw [hclip] at ha
    rw [hnextId]
    simp only [mem_append, mem_cons] at ha
    rcases ha with ha | rfl | rfl | ha
    · exact hold a (by rw [hsplit]; simp [ha])
    · exact hold y hmem
    · exact Nat.lt_succ_self _
    · exact hold a (by rw [hsplit]; simp [ha])
  have hshare₁ : ∀ e ∈ (s.maps.map.clipEnd y.id 0).entries, e.isAMap = true → shares := by
    intro a ha hisA
    rw [hclip] at ha
    simp only [mem_append, mem_cons] at ha
    rcases ha with ha | rfl | rfl | ha
    · exact hs.share a (by rw [hsplit]; simp [ha]) hisA
    · exact hs.share y hmem hisA
    · exact hs.share y hmem hisA
    · exact hs.share a (by rw [hsplit]; simp [ha]) hisA
  have hfind₁ : (s.maps.map.clipEnd y.id 0).entryAt y.id = some { y with vmeEnd := 0 } := by
    have hz : ({ y with vmeEnd := 0 } : VmMapEntry) ∈ (s.maps.map.clipEnd y.id 0).entries := by
      rw [hclip]
      simp
    exact hd₁.find hz
  unfold copyinTurn
  have hzero : s.maps.clipSource s.srcStart 0 s.tmpEntry = s.maps.clipSource 0 0 y.id := by
    rw [hs.start, hid]
  simp only [hfind, hread, not_true_eq_false, if_false, hzero]
  cases hsrc : s.maps.clipSource 0 0 y.id with
  | none =>
    have hisA : ({ y with vmeEnd := 0 } : VmMapEntry).isAMap = true :=
      MapStore.clipSource_none hfind₁ hsrc
    exact .inl ⟨rfl, hs.share y hmem hisA⟩
  | some src =>
    right
    obtain ⟨hmap, hentry⟩ := MapStore.clipSource_zero hfind₁ rfl hsrc
    have hstop : src.newEntry.vmeEnd = 0 := by rw [src.newEntry_range.2, hentry]
    have hunlocked : ∃ s', s.copyUnlocked w keepWired 0 src = .again s' ∧
        CopyinStuck shares s' := by
      simp only [copyUnlocked, hq src.maps, hw, ne_eq, not_true_eq_false, and_false,
        if_false]
      rw [if_pos ⟨rfl, fun _ _ => trivial⟩, hentry]
      have hlocked : src.maps.map.lock.entries = (s.maps.map.clipEnd y.id 0).entries := by
        rw [← hmap]
        rfl
      have hlocked' : src.maps.map.lock.nextId = (s.maps.map.clipEnd y.id 0).nextId := by
        rw [← hmap]
        rfl
      refine link_stuck (s := { s with maps := { src.maps with map := src.maps.map.lock } })
        (hlocked.trans hclip) (by rw [hlocked]; exact hd₁) (by rw [hlocked, hlocked']; exact hnext₁)
        rfl hpos hread (by rw [hlocked]; exact hshare₁) ?_
      split_ifs <;> exact hstop
    cases htemp : vmObjectCopyTemporary w.temporary src.tmpEntry.object with
    | none => simpa only [htemp] using hunlocked
    | some needs =>
      simp only [htemp]
      split_ifs with hwired
      · obtain ⟨f, hf, hentries, hnext⟩ := src.protect_entries needs.1
        rw [hmap] at hentries hnext
        have hids : (src.protect needs.1).map.entries.map VmMapEntry.id =
            (s.maps.map.clipEnd y.id 0).entries.map VmMapEntry.id := by
          rw [hentries, map_map]
          exact map_congr_left fun a _ => (hf a).1
        have hsplit' := hentries
        rw [hclip] at hsplit'
        simp only [map_append, map_cons] at hsplit'
        have hzid : (f { y with vmeEnd := 0 }).id = y.id := (hf _).1
        rw [hentry]
        have hlink : ∃ s', link { s with maps := src.protect needs.1 }
            { src.newEntry with needsCopy := needs.2 } (f { y with vmeEnd := 0 }).id 0 = .again s' ∧
            CopyinStuck shares s' := link_stuck hsplit' (by
            unfold Distinct
            rw [hids]
            exact hd₁) (by
            intro a ha
            have ha' : a.id ∈ (s.maps.map.clipEnd y.id 0).entries.map VmMapEntry.id :=
              hids ▸ mem_map_of_mem ha
            obtain ⟨b, hb, heq⟩ := mem_map.mp ha'
            simp only [hnext, ← heq]
            exact hnext₁ b hb)
          (hf _).2.1 (by rw [(hf _).2.2.1]; exact hpos) (by rw [(hf _).2.2.2.1]; exact hread) (by
            intro a ha hisA
            simp only [hentries] at ha
            obtain ⟨b, hb, rfl⟩ := mem_map.mp ha
            exact hshare₁ b hb ((hf b).2.2.2.2 ▸ hisA)) hstop
        rw [hzid] at hlink
        exact hlink
      · exact hunlocked

theorem copyinLoop_stuck (keepWired : Bool) (turns : ℕ) :
    ∀ (ws : ℕ → Window) (s : CopyinState), (∀ n, (ws n).Quiet ∧ (ws n).result = .success) →
      CopyinStuck shares s → copyinLoop keepWired 0 turns ws s = none ∨
        copyinLoop keepWired 0 turns ws s = some .panic ∧ shares := by
  induction turns with
  | zero => exact fun _ _ _ _ => .inl rfl
  | succ turns ih =>
    intro ws s hws hs
    rcases copyinTurn_stuck hs (hws 0).1 (hws 0).2 keepWired with ⟨ht, hshare⟩ | ⟨s', ht, hs'⟩
    · exact .inr ⟨by simp only [copyinLoop, ht], hshare⟩
    · simp only [copyinLoop, ht]
      exact ih _ s' (fun n => hws (n + 1)) hs'

end

/-! ## Every call -/

/-- The range of the call begins in page zero, its end rounds up to address zero, and page zero is
mapped and can be read. -/
def WrapsToZero (M : MapStore) (srcAddr len : ℕ) : Prop :=
  len ≠ 0 ∧ truncPage srcAddr = 0 ∧ roundPage (add srcAddr len) = 0 ∧
    ∃ e ∈ M.map.entries, e.vmeStart = 0 ∧ e.protection.read = true

/-- How a call should end. There is no copy of no bytes. -/
def VmMapCopyinOk (M : MapStore) (srcAddr len : ℕ) (o : CopyinOutcome) : Prop :=
  if len = 0 then o = .ret .success none M
  else CopyinOk M (truncPage srcAddr) (roundPage (add srcAddr len)) o

/-- Calls of `vm_map_copyin` come to an end, keep the source map well formed with the same addresses
mapped, and copy the whole range or fail, if and only if the range does not wrap to a page zero that
can be read. -/
theorem vmMapCopyin_ok (hM : M.WellFormed) {srcAddr : ℕ} (ha : srcAddr < modulus) (len : ℕ)
    (keepWired : Bool) :
    (∀ ws : ℕ → Window, (∀ n M, M.WellFormed → Interferes M ((ws n).others M)) →
      (∃ N, ∀ n ≥ N, (ws n).Quiet) →
      ∃ turns o, vmMapCopyin turns ws M srcAddr len keepWired = some o ∧
        VmMapCopyinOk M srcAddr len o) ↔ ¬ WrapsToZero M srcAddr len := by
  have hal := truncPage_aligned ha
  have hal' := roundPage_aligned (add srcAddr len)
  constructor
  · rintro hall ⟨hlen, hzero, hend, e, he, hs, hread⟩
    -- other threads do nothing, and every copy succeeds
    let w : Window := ⟨fun _ => true, .success, none, 0, false, id⟩
    obtain ⟨turns, o, ho, hok⟩ := hall (fun _ => w)
      (fun _ M hM => ⟨hM, fun _ => Iff.rfl, .inl rfl⟩) ⟨0, fun _ _ _ => rfl⟩
    have hne := hM.map.nonempty e he
    have hmaps : M.map.lock.Maps 0 := ⟨e, he, by omega, by omega⟩
    obtain ⟨hint, y, hy, hlook, hhint, hys, hye⟩ := hM.map.lock.lookupEntry_maps hmaps
    have hy' : y ∈ M.map.entries := hy
    obtain rfl : y = e := hM.map.eq_of_maps hy' he ⟨hys, hye⟩ ⟨by omega, by omega⟩
    have hclip : (M.map.lock.saveHint hint).clipStart y.id 0 = M.map.lock.saveHint hint := by
      have hfind : (M.map.lock.saveHint hint).entryAt y.id = some y :=
        (hM.map.lock.saveHint hhint).entryAt hy
      simp only [VmMap.clipStart, hfind, Nat.not_lt_zero, if_false]
    have hstuck : CopyinStuck True ⟨{ M with map := M.map.lock.saveHint hint }, 0, y.id,
        ⟨[], 0, srcAddr, len⟩⟩ := by
      obtain ⟨pre, post, hsplit⟩ := append_of_mem hy'
      exact ⟨⟨pre, y, post, hsplit, rfl, hs, by omega, hread⟩, hM.map.distinct, hM.map.nextId,
        fun _ _ _ => trivial, rfl⟩
    unfold vmMapCopyin at ho
    simp only [hlen, if_false, hzero, hend, le_refl, lt_irrefl, ne_eq, not_true_eq_false, or_self,
      and_false, hlook, hclip] at ho
    unfold VmMapCopyinOk at hok
    rw [if_neg hlen] at hok
    rcases copyinLoop_stuck keepWired turns (fun _ => w) _ (fun _ => ⟨fun _ => rfl, rfl⟩) hstuck
      with h | ⟨h, -⟩
    · rw [h] at ho
      cases ho
    · rw [h] at ho
      cases ho
      exact hok
  · intro hnot ws hws ⟨N, hN⟩
    unfold vmMapCopyin VmMapCopyinOk
    by_cases hlen : len = 0
    · simp only [hlen, if_true]
      exact ⟨0, _, rfl, rfl⟩
    simp only [hlen, if_false]
    have hfail : ∀ kr M', kr ≠ .success → M'.WellFormed → (∀ x, M'.map.Maps x ↔ M.map.Maps x) →
        CopyinOk M (truncPage srcAddr) (roundPage (add srcAddr len)) (.ret kr none M') :=
      fun kr M' hkr hM' hsame => ⟨hM', hsame, fun h => absurd h hkr⟩
    by_cases hguard : roundPage (add srcAddr len) ≤ truncPage srcAddr ∧
        (roundPage (add srcAddr len) < truncPage srcAddr ∨ truncPage srcAddr ≠ 0)
    · simp only [hguard]
      exact ⟨0, _, rfl, hfail _ _ (by decide) hM fun _ => Iff.rfl⟩
    simp only [hguard, if_false]
    by_cases hmaps : M.map.lock.Maps (truncPage srcAddr)
    swap
    · obtain ⟨hint, place, hlook, hhint⟩ := hM.map.lock.lookupEntry_not hmaps
      simp only [hlook]
      exact ⟨0, _, rfl, hfail _ _ (by decide) (hM.lock.saveHint hhint) fun _ => Iff.rfl⟩
    obtain ⟨hint, e, he, hlook, hhint, hle, hlt⟩ := hM.map.lock.lookupEntry_maps hmaps
    have hM₁ := hM.lock.saveHint hhint
    obtain ⟨e', hclip, hs', he'⟩ := hM₁.map.clipStart he hal hle hlt
    have hM₂ := hM₁.clipped he hclip
    simp only [hlook]
    by_cases hpos : truncPage srcAddr < roundPage (add srcAddr len)
    · exact copyinLoop_ok hal' keepWired N _ ws _ hws hN
        ⟨hM₂, hclip.maps, ⟨e', hclip.mem, hclip.id, hs'⟩, rfl, rfl, hpos⟩ (le_refl _)
    · -- both ends are zero, and page zero is mapped but cannot be read
      have hzero : truncPage srcAddr = 0 := by
        by_contra hne
        exact hguard ⟨by omega, .inr hne⟩
      have hend : roundPage (add srcAddr len) = 0 := by
        by_contra hne
        exact hpos (by omega)
      have hread : ¬ e'.protection.read = true := by
        intro hread
        rw [hclip.piece.protection] at hread
        exact hnot ⟨hlen, hzero, hend, e, he, by omega, hread⟩
      have hfind := hclip.id ▸ hclip.wellFormed.entryAt hclip.mem
      refine ⟨1, .ret .protectionFailure none _, ?_, hfail _ _ (by decide) hM₂ hclip.maps⟩
      simp only [copyinLoop, copyinTurn, hfind, hread, Bool.false_eq_true, not_false_eq_true,
        if_true]

end

/-! ## A call that never returns -/

/-- Page zero, without an object. -/
def zeroPage : VmMapEntry where
  id := 0
  vmeStart := 0
  vmeEnd := 4096
  object := none
  offset := 0
  isAMap := false
  isSubMap := false
  inTransition := false
  needsWakeup := false
  needsCopy := false
  protection := vmProtDefault
  maxProtection := vmProtAll
  inheritance := vmInheritDefault
  wiredCount := 0
  userWiredCount := 0

/-- A task that has page zero and nothing else. -/
def zeroPageMap : MapStore where
  map := { VmMap.create 0 3221225472 with
    entries := [zeroPage], nentries := 1, size := 4096, nextId := 1 }
  share _ := none

theorem zeroPageMap_wellFormed : letI := pages4096; zeroPageMap.WellFormed := by
  let _ := pages4096
  have hone : ∀ e ∈ zeroPageMap.map.entries, e = zeroPage := fun e he => mem_singleton.mp he
  refine ⟨⟨pairwise_singleton _ _, ?_, ?_, ?_, rfl, rfl, by decide, ?_, ?_, ?_, ?_⟩, ?_, ?_⟩
  · intro e he
    rw [hone e he]
    decide
  · intro e he
    rw [hone e he]
    decide
  · intro e he
    rw [hone e he]
    decide
  · exact nodup_singleton _
  · intro e he
    rw [hone e he]
    decide
  · intro i hi
    cases hi
  · intro i hi
    cases hi
  · intro k m hk
    cases hk
  · intro e he hisA
    rw [hone e he] at hisA
    cases hisA

/-- Other threads that do nothing, objects that are all temporary. -/
def quietWindow : Window := ⟨fun _ => true, .success, none, 0, false, id⟩

theorem vmMapCopyin_ok_zeroPage : letI := pages4096
    ∃ turns o, vmMapCopyin turns (fun _ => quietWindow) zeroPageMap 0 4096 false = some o ∧
      VmMapCopyinOk zeroPageMap 0 4096 o := by
  let _ := pages4096
  refine (vmMapCopyin_ok zeroPageMap_wellFormed (by norm_num) 4096 false).mpr ?_
    (fun _ => quietWindow) (fun _ M hM => ⟨hM, fun _ => Iff.rfl, .inl rfl⟩) ⟨0, fun _ _ _ => rfl⟩
  rintro ⟨-, -, hend, -⟩
  exact absurd hend (by decide)

/-- With page zero mapped, a copy of all but the first byte of the address space never ends. -/
theorem vmMapCopyin_endless : letI := pages4096
    zeroPageMap.WellFormed ∧ ∀ turns,
      vmMapCopyin turns (fun _ => quietWindow) zeroPageMap 1 4294967295 false = none := by
  let _ := pages4096
  refine ⟨zeroPageMap_wellFormed, fun turns => ?_⟩
  have hstuck : CopyinStuck False
      ⟨{ zeroPageMap with map := zeroPageMap.map.lock }, 0, 0, ⟨[], 0, 1, 4294967295⟩⟩ := by
    refine ⟨⟨[], zeroPage, [], rfl, rfl, rfl, by decide, rfl⟩,
      zeroPageMap_wellFormed.map.distinct, zeroPageMap_wellFormed.map.nextId, ?_, rfl⟩
    intro e he hisA
    rw [mem_singleton.mp he] at hisA
    cases hisA
  rcases copyinLoop_stuck false turns (fun _ => quietWindow) _ (fun _ => ⟨fun _ => rfl, rfl⟩) hstuck
    with h | ⟨-, h⟩
  · exact h
  · exact h.elim

end MachKernel.Vm
