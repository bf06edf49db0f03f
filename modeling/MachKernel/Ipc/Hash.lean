import MachKernel.Lib.Probe

/-! The reverse hash table of a space, which is kept in its table of entries (`ipc/ipc_hash.c`). -/

namespace MachKernel.Ipc
open Probe Function Option

/-- `is_table`, up to the fields that the hash table uses: the entry at each index, and the index at
each place of the hash table. -/
structure HashTable where
  size : ℕ
  ieObject : ℕ → ℕ
  ieBits : ℕ → ℕ
  ieIndex : ℕ → ℕ

open HashTable

def machPortMakeb (index bits : ℕ) : ℕ := (index <<< 8) ||| ((bits &&& 0xff000000) >>> 24)

def ihLocalHash (obj size : ℕ) : ℕ := (obj >>> 6) % size

/-- The object found at `dindex` was put beyond `hindex`, which was in use, on its way from
`tindex`. -/
def displaced (hindex dindex tindex : ℕ) : Prop :=
  if dindex < hindex then dindex < tindex ∧ tindex ≤ hindex
  else dindex < tindex ∨ tindex ≤ hindex

instance (h d t : ℕ) : Decidable (displaced h d t) := by unfold displaced; infer_instance

namespace HashTable
variable (t : HashTable)

def setIndex (h index : ℕ) : HashTable := { t with ieIndex := update t.ieIndex h index }

/-- Where the object at a place of the hash table belongs. -/
def home (h : ℕ) : ℕ := ihLocalHash (t.ieObject (t.ieIndex h)) t.size

/-- `ipc_hash_local_lookup`: the name and the index of the entry, if there is one; it may not have come
to its end after `turns` places. -/
def localLookup (turns obj : ℕ) : Option (Option (ℕ × ℕ)) :=
  match probe t.size (fun h => t.ieIndex h = 0 ∨ t.ieObject (t.ieIndex h) = obj) turns
      (ihLocalHash obj t.size) with
  | none => none
  | some h =>
    let index := t.ieIndex h
    if index = 0 then some none else some (some (machPortMakeb index (t.ieBits index), index))

/-- `ipc_hash_local_insert`. -/
def localInsert (turns obj index : ℕ) : Option HashTable :=
  (probe t.size (fun h => t.ieIndex h = 0) turns (ihLocalHash obj t.size)).map fun h =>
    t.setIndex h index

/-- The loop that moves displaced objects up into the hole at `hindex`. -/
def fillHole (turns : ℕ) : ℕ → ℕ → HashTable → Option HashTable
  | 0, _, _ => none
  | holes + 1, hindex, t =>
    match probe t.size (fun d => t.ieIndex d = 0 ∨ displaced hindex d (t.home d)) turns
        (next t.size hindex) with
    | none => none
    | some dindex =>
      let index := t.ieIndex dindex
      let t' := t.setIndex hindex index
      if index = 0 then some t' else fillHole turns holes dindex t'

/-- `ipc_hash_local_delete`. -/
def localDelete (turns obj index : ℕ) : Option HashTable :=
  match probe t.size (fun h => t.ieIndex h = index) turns (ihLocalHash obj t.size) with
  | none => none
  | some hindex => fillHole turns turns hindex t

end HashTable

/-- The hash table agrees with the entries inserted: `ins i` is the object inserted for `i`. -/
structure HashOk (t : HashTable) (ins : ℕ → Option ℕ) : Prop where
  size_pos : 0 < t.size
  index : ∀ i obj, ins i = some obj → i ≠ 0 ∧ i < t.size ∧ t.ieObject i = obj
  unique : ∀ i j obj, ins i = some obj → ins j = some obj → i = j
  slot : ∀ i obj, ins i = some obj → ∃ h < t.size, t.ieIndex h = i
  inserted : ∀ h < t.size, t.ieIndex h ≠ 0 → ins (t.ieIndex h) ≠ none
  single : ∀ h < t.size, ∀ h' < t.size, t.ieIndex h ≠ 0 → t.ieIndex h = t.ieIndex h' → h = h'
  /-- An object is found by going on from its home. -/
  path : ∀ h < t.size, t.ieIndex h ≠ 0 → ∀ k < steps t.size (t.home h) h,
    t.ieIndex (ahead t.size (t.home h) k) ≠ 0

/-- The same while the place `hole` holds an index that counts no more. -/
structure HoleOk (t : HashTable) (ins : ℕ → Option ℕ) (hole : ℕ) : Prop where
  hole_lt : hole < t.size
  hole_ne : t.ieIndex hole ≠ 0
  index : ∀ i obj, ins i = some obj → i ≠ 0 ∧ i < t.size ∧ t.ieObject i = obj
  unique : ∀ i j obj, ins i = some obj → ins j = some obj → i = j
  slot : ∀ i obj, ins i = some obj → ∃ h < t.size, h ≠ hole ∧ t.ieIndex h = i
  inserted : ∀ h < t.size, h ≠ hole → t.ieIndex h ≠ 0 → ins (t.ieIndex h) ≠ none
  single : ∀ h < t.size, ∀ h' < t.size, h ≠ hole → h' ≠ hole → t.ieIndex h ≠ 0 →
    t.ieIndex h = t.ieIndex h' → h = h'
  path : ∀ h < t.size, h ≠ hole → t.ieIndex h ≠ 0 → ∀ k < steps t.size (t.home h) h,
    t.ieIndex (ahead t.size (t.home h) k) ≠ 0

section
variable {t : HashTable} {ins : ℕ → Option ℕ} {h hole obj index : ℕ}

theorem ihLocalHash_lt (hpos : 0 < t.size) (obj : ℕ) : ihLocalHash obj t.size < t.size :=
  Nat.mod_lt _ hpos

theorem HashTable.home_lt (hpos : 0 < t.size) (h : ℕ) : t.home h < t.size := ihLocalHash_lt hpos _

variable {d h' turns holes : ℕ} {t' : HashTable}

theorem displaced_iff {tindex : ℕ} (hh : hole < t.size) (ht : tindex < t.size) :
    displaced hole d tindex ↔ steps t.size hole d ≤ steps t.size tindex d := by
  unfold displaced steps
  split_ifs <;> omega

@[simp] theorem HashTable.size_setIndex (h index : ℕ) : (t.setIndex h index).size = t.size := rfl

@[simp] theorem HashTable.ieObject_setIndex (h index : ℕ) :
    (t.setIndex h index).ieObject = t.ieObject := rfl

theorem HashTable.ieIndex_setIndex_self (h index : ℕ) : (t.setIndex h index).ieIndex h = index :=
  update_self _ _ _

theorem HashTable.ieIndex_setIndex_of_ne {h : ℕ} (hne : h' ≠ h) (index : ℕ) :
    (t.setIndex h index).ieIndex h' = t.ieIndex h' := update_of_ne hne _ _

theorem HashTable.home_setIndex_of_ne {h : ℕ} (hne : h' ≠ h) (index : ℕ) :
    (t.setIndex h index).home h' = t.home h' := by
  simp only [home, ieIndex_setIndex_of_ne hne, ieObject_setIndex,
    size_setIndex]

theorem HashOk.free (hok : HashOk t ins) : ∃ h < t.size, t.ieIndex h = 0 := by
  by_contra hall
  push Not at hall
  have hmaps : Set.MapsTo t.ieIndex (Finset.range t.size) (Finset.Ico 1 t.size) := by
    intro h hh
    have hlt : h < t.size := by simpa using hh
    obtain ⟨obj, hobj⟩ := ne_none_iff_exists'.mp (hok.inserted h hlt (hall h hlt))
    obtain ⟨hne, hi, -⟩ := hok.index _ obj hobj
    simp only [Finset.coe_Ico, Set.mem_Ico]
    omega
  have hcard : (Finset.Ico 1 t.size).card < (Finset.range t.size).card := by
    have := hok.size_pos
    simp only [Nat.card_Ico, Finset.card_range]
    omega
  obtain ⟨a, ha, b, hb, hne, heq⟩ := Finset.exists_ne_map_eq_of_card_lt_of_maps_to hcard hmaps
  rw [Finset.mem_range] at ha hb
  exact hne (hok.single a ha b hb (hall a ha) heq)

theorem HoleOk.finish (hok : HoleOk t ins hole) (hd : d + 1 < t.size)
    (hend : t.ieIndex (ahead t.size hole (d + 1)) = 0)
    (hscan : ∀ k < d, t.ieIndex (ahead t.size hole (k + 1)) ≠ 0 ∧
      ¬ displaced hole (ahead t.size hole (k + 1)) (t.home (ahead t.size hole (k + 1)))) :
    HashOk (t.setIndex hole 0) ins := by
  have hpos : 0 < t.size := by omega
  have hout : ∀ h, (t.setIndex hole 0).ieIndex h ≠ 0 → h ≠ hole := by
    rintro h hne rfl
    exact hne (ieIndex_setIndex_self _ _)
  refine ⟨hpos, hok.index, hok.unique, ?_, ?_, ?_, ?_⟩
  · intro i obj hi
    obtain ⟨h, hh, hne, rfl⟩ := hok.slot i obj hi
    exact ⟨h, hh, ieIndex_setIndex_of_ne hne 0⟩
  · intro h hh hne
    have hhole := hout h hne
    rw [ieIndex_setIndex_of_ne hhole] at hne ⊢
    exact hok.inserted h hh hhole hne
  · intro h hh h' hh' hne heq
    have hh1 := hout h hne
    have hh2 := hout h' (heq ▸ hne)
    rw [ieIndex_setIndex_of_ne hh1] at hne heq
    rw [ieIndex_setIndex_of_ne hh2] at heq
    exact hok.single h hh h' hh' hh1 hh2 hne heq
  · intro h hh hne k hk
    have hhole := hout h hne
    rw [ieIndex_setIndex_of_ne hhole] at hne
    simp only [home_setIndex_of_ne hhole, size_setIndex] at hk ⊢
    have hhome := t.home_lt hpos h
    have hpath := hok.path h hh hhole hne
    have hlt := steps_lt hhome hh
    by_cases hthrough : ahead t.size (t.home h) k = hole
    -- an object found through the hole is in its clump, and so was scanned
    · exfalso
      have hk' : steps t.size (t.home h) hole = k := hthrough ▸ steps_ahead hhome (by omega)
      have hrest := steps_rest hhome hh hok.hole_lt (by omega)
      have hon : steps t.size hole h ≤ steps t.size (t.home h) h := by omega
      have hmove : ahead t.size hole (steps t.size hole h) = h := ahead_steps hok.hole_lt hh
      have hstep : 0 < steps t.size hole h := by
        apply Nat.pos_of_ne_zero
        intro h0
        rw [h0, ahead_zero hok.hole_lt] at hmove
        exact hhole hmove.symm
      by_cases hmd : steps t.size hole h ≤ d
      · have hno := (hscan (steps t.size hole h - 1) (by omega)).2
        rw [Nat.sub_add_cancel hstep, hmove, displaced_iff hok.hole_lt hhome] at hno
        exact hno hon
      · have heq : ahead t.size (t.home h) (k + (d + 1)) = ahead t.size hole (d + 1) := by
          rw [← ahead_ahead hhome (by omega), hthrough]
        by_cases hlast : steps t.size hole h = d + 1
        · rw [← hlast, hmove] at hend
          exact hne hend
        · exact hpath (k + (d + 1)) (by omega) (heq ▸ hend)
    · rw [ieIndex_setIndex_of_ne hthrough]
      exact hpath k hk

theorem HoleOk.move (hok : HoleOk t ins hole) (hd : d < t.size) (hne : d ≠ hole)
    (hused : t.ieIndex d ≠ 0) (hdis : displaced hole d (t.home d)) :
    HoleOk (t.setIndex hole (t.ieIndex d)) ins d := by
  have hpos : 0 < t.size := Nat.zero_lt_of_lt hd
  have hself : (t.setIndex hole (t.ieIndex d)).ieIndex hole = t.ieIndex d :=
    ieIndex_setIndex_self _ _
  have hother : ∀ h, h ≠ hole → (t.setIndex hole (t.ieIndex d)).ieIndex h = t.ieIndex h :=
    fun h hh => ieIndex_setIndex_of_ne hh _
  have hkeep : ∀ h, t.ieIndex h ≠ 0 → (t.setIndex hole (t.ieIndex d)).ieIndex h ≠ 0 := by
    intro h hh
    by_cases heq : h = hole
    · rwa [heq, hself]
    · rwa [hother h heq]
  refine ⟨hd, ?_, hok.index, hok.unique, ?_, ?_, ?_, ?_⟩
  · rwa [hother d hne]
  · intro i obj hi
    obtain ⟨h, hh, hhole, rfl⟩ := hok.slot i obj hi
    by_cases heq : h = d
    · exact ⟨hole, hok.hole_lt, Ne.symm hne, heq ▸ hself⟩
    · exact ⟨h, hh, heq, hother h hhole⟩
  · intro h hh hhd hu
    by_cases heq : h = hole
    · rw [heq, hself]
      exact hok.inserted d hd hne hused
    · rw [hother h heq] at hu ⊢
      exact hok.inserted h hh heq hu
  · intro h hh h' hh' hhd hhd' hu heq
    by_cases h1 : h = hole <;> by_cases h2 : h' = hole
    · rw [h1, h2]
    · rw [h1, hself, hother h' h2] at heq
      exact absurd (hok.single d hd h' hh' hne h2 hused heq).symm hhd'
    · rw [h2, hself, hother h h1] at heq
      exact absurd (hok.single d hd h hh hne h1 hused heq.symm).symm hhd
    · rw [hother h h1] at hu heq
      rw [hother h' h2] at heq
      exact hok.single h hh h' hh' h1 h2 hu heq
  · intro h hh hhd hu k hk
    by_cases heq : h = hole
    · have hhome : (t.setIndex hole (t.ieIndex d)).home h = t.home d := by
        simp only [home, heq, hself, ieObject_setIndex, size_setIndex]
      simp only [hhome, size_setIndex] at hk ⊢
      rw [displaced_iff hok.hole_lt (t.home_lt hpos d)] at hdis
      have hsum := steps_add (t.home_lt hpos d) hok.hole_lt hdis
      rw [heq] at hk
      exact hkeep _ (hok.path d hd hne hused k (by omega))
    · simp only [home_setIndex_of_ne heq, size_setIndex] at hk ⊢
      rw [hother h heq] at hu
      exact hkeep _ (hok.path h hh heq hu k hk)

theorem HoleOk.fillHole (hok : HoleOk t ins hole) {free : ℕ} (hfree : free < t.size)
    (hzero : t.ieIndex free = 0) (hturns : t.size ≤ turns)
    (hholes : steps t.size hole free < holes) :
    ∃ t', t.fillHole turns holes hole = some t' ∧ t'.size = t.size ∧ HashOk t' ins := by
  induction holes generalizing t hole with
  | zero => omega
  | succ holes ih =>
    have hne : hole ≠ free := by
      rintro rfl
      exact hok.hole_ne hzero
    have hnext := next_lt hok.hole_lt
    have hto := steps_next hok.hole_lt hfree hne
    have hlt := steps_lt hok.hole_lt hfree
    obtain ⟨d, hd, hstop, hgo, hprobe⟩ := probe_spec
      (fun d => t.ieIndex d = 0 ∨ displaced hole d (t.home d)) hnext hfree (.inl hzero)
    have hturn : turns = d + 1 + (turns - (d + 1)) := by omega
    rw [ahead_next (by omega)] at hstop hprobe
    rw [fillHole, hturn, hprobe]
    by_cases hend : t.ieIndex (ahead t.size hole (d + 1)) = 0
    · simp only [hend, if_true]
      refine ⟨_, rfl, rfl, hok.finish (d := d) (by omega) hend ?_⟩
      intro k hk
      have hno := hgo k hk
      rwa [ahead_next (by omega), not_or] at hno
    · have hplace := ahead_lt hok.hole_lt (k := d + 1) (by omega)
      have hback : steps t.size hole (ahead t.size hole (d + 1)) = d + 1 :=
        steps_ahead hok.hole_lt (by omega)
      have hother : ahead t.size hole (d + 1) ≠ hole := by
        intro heq
        rw [heq, steps_self] at hback
        omega
      have hrest := steps_rest hok.hole_lt hfree hplace (by omega)
      simp only [hend, if_false, ← hturn]
      apply ih (hok.move hplace hother hend (hstop.resolve_left hend)) hfree
      · rwa [ieIndex_setIndex_of_ne hne.symm]
      · exact hturns
      · rw [size_setIndex]
        omega

theorem HashOk.take (hok : HashOk t ins) (hh : h < t.size) (hne : t.ieIndex h ≠ 0) :
    HoleOk t (update ins (t.ieIndex h) none) h := by
  have hold : ∀ i obj, update ins (t.ieIndex h) none i = some obj →
      i ≠ t.ieIndex h ∧ ins i = some obj := by
    intro i obj hi
    by_cases heq : i = t.ieIndex h
    · rw [heq, update_self] at hi
      cases hi
    · rw [update_of_ne heq] at hi
      exact ⟨heq, hi⟩
  refine ⟨hh, hne, ?_, ?_, ?_, ?_, ?_, ?_⟩
  · intro i obj hi
    exact hok.index i obj (hold i obj hi).2
  · intro i j obj hi hj
    exact hok.unique i j obj (hold i obj hi).2 (hold j obj hj).2
  · intro i obj hi
    obtain ⟨hi', hins⟩ := hold i obj hi
    obtain ⟨h', hh', rfl⟩ := hok.slot i obj hins
    exact ⟨h', hh', fun heq => hi' (heq ▸ rfl), rfl⟩
  · intro h' hh' hne' hu
    rw [update_of_ne fun heq => hne' (hok.single h' hh' h hh hu heq)]
    exact hok.inserted h' hh' hu
  · intro h1 hh1 h2 hh2 _ _ hu heq
    exact hok.single h1 hh1 h2 hh2 hu heq
  · intro h' hh' _ hu
    exact hok.path h' hh' hu

theorem HashOk.localDelete (hok : HashOk t ins) (hins : ins index = some obj)
    (hturns : t.size ≤ turns) : ∃ t', t.localDelete turns obj index = some t' ∧ t'.size = t.size ∧
      HashOk t' (update ins index none) := by
  obtain ⟨hne, -, -⟩ := hok.index index obj hins
  obtain ⟨h, hh, hat⟩ := hok.slot index obj hins
  have hhome := ihLocalHash_lt hok.size_pos obj
  have hlt := steps_lt hhome hh
  obtain ⟨d, hd, hstop, -, hprobe⟩ :=
    probe_spec (fun h => t.ieIndex h = index) hhome hh hat
  have hplace := ahead_lt hhome (k := d) (by omega)
  obtain ⟨free, hfree, hzero⟩ := hok.free
  have hhole := hok.take hplace (by rwa [hstop])
  rw [hstop] at hhole
  rw [HashTable.localDelete, show turns = d + 1 + (turns - (d + 1)) by omega, hprobe]
  apply hhole.fillHole hfree hzero (by omega)
  have := steps_lt hplace hfree
  omega

theorem HashOk.localInsert (hok : HashOk t ins) (hne : index ≠ 0) (hlt : index < t.size)
    (hobj : t.ieObject index = obj) (hnew : ∀ i, ins i ≠ some obj) (hfresh : ins index = none)
    (hturns : t.size ≤ turns) : ∃ t', t.localInsert turns obj index = some t' ∧ t'.size = t.size ∧
      HashOk t' (update ins index (some obj)) := by
  obtain ⟨free, hfree, hzero⟩ := hok.free
  have hhome := ihLocalHash_lt hok.size_pos obj
  have hflt := steps_lt hhome hfree
  obtain ⟨d, hd, hstop, hgo, hprobe⟩ := probe_spec (fun h => t.ieIndex h = 0) hhome hfree hzero
  have hplace := ahead_lt hhome (k := d) (by omega)
  rw [HashTable.localInsert, show turns = d + 1 + (turns - (d + 1)) by omega, hprobe]
  refine ⟨_, rfl, rfl, ?_⟩
  generalize hp : ahead t.size (ihLocalHash obj t.size) d = place at *
  have hself : (t.setIndex place index).ieIndex place = index := HashTable.ieIndex_setIndex_self _ _
  have hother : ∀ h, h ≠ place → (t.setIndex place index).ieIndex h = t.ieIndex h :=
    fun h hh => HashTable.ieIndex_setIndex_of_ne hh _
  have hkeep : ∀ h, t.ieIndex h ≠ 0 → (t.setIndex place index).ieIndex h ≠ 0 := by
    intro h hh
    rwa [hother h (by rintro rfl; exact hh hstop)]
  -- no place holds the index yet
  have hnone : ∀ h < t.size, t.ieIndex h ≠ index := by
    rintro h hh rfl
    exact hok.inserted h hh hne hfresh
  have hold : ∀ i o, update ins index (some obj) i = some o →
      (i = index ∧ o = obj) ∨ (i ≠ index ∧ ins i = some o) := by
    intro i o hi
    by_cases heq : i = index
    · rw [heq, update_self] at hi
      exact .inl ⟨heq, (some.inj hi).symm⟩
    · rw [update_of_ne heq] at hi
      exact .inr ⟨heq, hi⟩
  refine ⟨hok.size_pos, ?_, ?_, ?_, ?_, ?_, ?_⟩
  · intro i o hi
    obtain ⟨rfl, rfl⟩ | ⟨-, hi⟩ := hold i o hi
    · exact ⟨hne, hlt, hobj⟩
    · exact hok.index i o hi
  · intro i j o hi hj
    obtain ⟨rfl, ho⟩ | ⟨-, hi'⟩ := hold i o hi <;> obtain ⟨rfl, ho'⟩ | ⟨-, hj'⟩ := hold j o hj
    · rfl
    · exact absurd (ho ▸ hj') (hnew j)
    · exact absurd (ho' ▸ hi') (hnew i)
    · exact hok.unique i j o hi' hj'
  · intro i o hi
    obtain ⟨rfl, rfl⟩ | ⟨-, hi⟩ := hold i o hi
    · exact ⟨place, hplace, hself⟩
    · obtain ⟨h, hh, rfl⟩ := hok.slot i o hi
      refine ⟨h, hh, hother h ?_⟩
      rintro rfl
      exact (hok.index _ o hi).1 hstop
  · intro h hh hu
    by_cases heq : h = place
    · rw [heq, hself, update_self]
      exact some_ne_none obj
    · rw [hother h heq] at hu ⊢
      rw [update_of_ne (hnone h hh)]
      exact hok.inserted h hh hu
  · intro h hh h' hh' hu heq
    by_cases h1 : h = place <;> by_cases h2 : h' = place
    · rw [h1, h2]
    · rw [h1, hself, hother h' h2] at heq
      exact absurd heq.symm (hnone h' hh')
    · rw [h2, hself, hother h h1] at heq
      exact absurd heq (hnone h hh)
    · rw [hother h h1] at hu heq
      rw [hother h' h2] at heq
      exact hok.single h hh h' hh' hu heq
  · intro h hh hu k hk
    by_cases heq : h = place
    · have hhome' : (t.setIndex place index).home h = ihLocalHash obj t.size := by
        simp only [HashTable.home, heq, hself, HashTable.ieObject_setIndex, HashTable.size_setIndex,
          hobj]
      simp only [hhome', HashTable.size_setIndex] at hk ⊢
      rw [heq, ← hp, steps_ahead hhome (by omega)] at hk
      exact hkeep _ (hgo k hk)
    · simp only [HashTable.home_setIndex_of_ne heq, HashTable.size_setIndex] at hk ⊢
      rw [hother h heq] at hu
      exact hkeep _ (hok.path h hh hu k hk)

theorem HashOk.localLookup (hok : HashOk t ins) (hins : ins index = some obj)
    (hturns : t.size ≤ turns) :
    t.localLookup turns obj = some (some (machPortMakeb index (t.ieBits index), index)) := by
  obtain ⟨hne, -, hobj⟩ := hok.index index obj hins
  obtain ⟨h, hh, hat⟩ := hok.slot index obj hins
  have hhome := ihLocalHash_lt hok.size_pos obj
  have hlt := steps_lt hhome hh
  have hhomeh : t.home h = ihLocalHash obj t.size := by rw [HashTable.home, hat, hobj]
  have hpath := hok.path h hh (by rwa [hat])
  rw [hhomeh] at hpath
  obtain ⟨d, hd, hstop, hgo, hprobe⟩ := probe_spec
    (fun h => t.ieIndex h = 0 ∨ t.ieObject (t.ieIndex h) = obj) hhome hh
    (.inr (hat.symm ▸ hobj))
  have hplace := ahead_lt hhome (k := d) (by omega)
  -- the probe does not stop at a free place, and so it stops at the object
  have hused : t.ieIndex (ahead t.size (ihLocalHash obj t.size) d) ≠ 0 := by
    by_cases hlast : d = steps t.size (ihLocalHash obj t.size) h
    · rwa [hlast, ahead_steps hhome hh, hat]
    · exact hpath d (by omega)
  have hfound := hstop.resolve_left hused
  obtain ⟨o, ho⟩ := ne_none_iff_exists'.mp (hok.inserted _ hplace hused)
  have heq : t.ieIndex (ahead t.size (ihLocalHash obj t.size) d) = index := by
    have hoo := (hok.index _ o ho).2.2
    exact hok.unique _ _ obj (by rw [ho, ← hoo, hfound]) hins
  rw [HashTable.localLookup, show turns = d + 1 + (turns - (d + 1)) by omega, hprobe]
  simp only [heq, if_neg hne]

theorem HashOk.localLookup_none (hok : HashOk t ins) (hins : ∀ i, ins i ≠ some obj)
    (hturns : t.size ≤ turns) : t.localLookup turns obj = some none := by
  obtain ⟨free, hfree, hzero⟩ := hok.free
  have hhome := ihLocalHash_lt hok.size_pos obj
  have hlt := steps_lt hhome hfree
  obtain ⟨d, hd, hstop, -, hprobe⟩ := probe_spec
    (fun h => t.ieIndex h = 0 ∨ t.ieObject (t.ieIndex h) = obj) hhome hfree (.inl hzero)
  have hplace := ahead_lt hhome (k := d) (by omega)
  have hend : t.ieIndex (ahead t.size (ihLocalHash obj t.size) d) = 0 := by
    by_contra hused
    obtain ⟨o, ho⟩ := ne_none_iff_exists'.mp (hok.inserted _ hplace hused)
    have hoo := (hok.index _ o ho).2.2
    exact hins _ (by rw [ho, ← hoo, hstop.resolve_left hused])
  rw [HashTable.localLookup, show turns = d + 1 + (turns - (d + 1)) by omega, hprobe]
  simp only [hend, if_true]

theorem HashTable.localInsert_mono (h : t.localInsert turns obj index = some t') (n : ℕ) :
    t.localInsert (turns + n) obj index = some t' := by
  obtain ⟨place, hplace, rfl⟩ := map_eq_some_iff.mp h
  rw [localInsert, probe_mono hplace, map_some]

theorem HashTable.fillHole_mono (h : t.fillHole turns holes hole = some t') (n : ℕ) :
    t.fillHole (turns + n) (holes + n) hole = some t' := by
  induction holes generalizing t hole with
  | zero => cases h
  | succ holes ih =>
    rw [Nat.add_right_comm, fillHole]
    rw [fillHole] at h
    cases hprobe : probe t.size (fun d => t.ieIndex d = 0 ∨ displaced hole d (t.home d)) turns
        (next t.size hole) with
    | none =>
      rw [hprobe] at h
      cases h
    | some d =>
      rw [hprobe] at h
      rw [probe_mono hprobe]
      simp only at h ⊢
      split_ifs at h ⊢
      · exact h
      · exact ih h

theorem HashTable.localDelete_mono (h : t.localDelete turns obj index = some t') (n : ℕ) :
    t.localDelete (turns + n) obj index = some t' := by
  rw [localDelete] at h ⊢
  cases hprobe : probe t.size (fun h => t.ieIndex h = index) turns (ihLocalHash obj t.size) with
  | none =>
    rw [hprobe] at h
    cases h
  | some d =>
    rw [hprobe] at h
    rw [probe_mono hprobe]
    exact fillHole_mono h n

end

/-- The steps of a space that holds its lock: `ins` is what is inserted. An entry not inserted may be given
another object, any entry other bits; an index is inserted for the object of its entry if neither
is inserted yet, as the assertions of the code and the callers have it. -/
inductive HashStep : HashTable × (ℕ → Option ℕ) → HashTable × (ℕ → Option ℕ) → Prop
  | setObject (t : HashTable) (ins : ℕ → Option ℕ) (index obj : ℕ) (hins : ins index = none) :
    HashStep (t, ins) ({ t with ieObject := update t.ieObject index obj }, ins)
  | setBits (t : HashTable) (ins : ℕ → Option ℕ) (index bits : ℕ) :
    HashStep (t, ins) ({ t with ieBits := update t.ieBits index bits }, ins)
  | insert (t t' : HashTable) (ins : ℕ → Option ℕ) (turns obj index : ℕ) (hne : index ≠ 0)
    (hlt : index < t.size) (hobj : t.ieObject index = obj) (hnew : ∀ i, ins i ≠ some obj)
    (hins : ins index = none) (h : t.localInsert turns obj index = some t') :
    HashStep (t, ins) (t', update ins index (some obj))
  | delete (t t' : HashTable) (ins : ℕ → Option ℕ) (turns obj index : ℕ)
    (hins : ins index = some obj) (h : t.localDelete turns obj index = some t') :
    HashStep (t, ins) (t', update ins index none)

variable {t : HashTable} {s s' : HashTable × (ℕ → Option ℕ)}

theorem HashOk.setObject {ins : ℕ → Option ℕ} (hok : HashOk t ins) {index : ℕ}
    (hins : ins index = none) (obj : ℕ) :
    HashOk { t with ieObject := update t.ieObject index obj } ins := by
  have hsame : ∀ i o, ins i = some o → update t.ieObject index obj i = t.ieObject i := by
    intro i o hi
    apply update_of_ne
    rintro rfl
    rw [hins] at hi
    cases hi
  refine ⟨hok.size_pos, ?_, hok.unique, hok.slot, hok.inserted, hok.single, ?_⟩
  · intro i o hi
    obtain ⟨hne, hlt, hobj⟩ := hok.index i o hi
    exact ⟨hne, hlt, (hsame i o hi).trans hobj⟩
  · intro h hh hu
    obtain ⟨o, ho⟩ := ne_none_iff_exists'.mp (hok.inserted h hh hu)
    have hhome : home { t with ieObject := update t.ieObject index obj } h =
        t.home h := by
      simp only [home, hsame _ o ho]
    rw [hhome]
    exact hok.path h hh hu

theorem HashStep.ok (hstep : HashStep s s') (hok : HashOk s.1 s.2) : HashOk s'.1 s'.2 := by
  cases hstep with
  | setObject t ins index obj hins => exact hok.setObject hins obj
  | setBits t ins index bits =>
    exact ⟨hok.size_pos, hok.index, hok.unique, hok.slot, hok.inserted, hok.single, hok.path⟩
  | insert t t' ins turns obj index hne hlt hobj hnew hins h =>
    obtain ⟨t'', ht'', -, hok''⟩ :=
      hok.localInsert hne hlt hobj hnew hins (Nat.le_add_left t.size turns)
    rw [localInsert_mono h t.size] at ht''
    exact some.inj ht'' ▸ hok''
  | delete t t' ins turns obj index hins h =>
    obtain ⟨t'', ht'', -, hok''⟩ := hok.localDelete hins (Nat.le_add_left t.size turns)
    rw [localDelete_mono h t.size] at ht''
    exact some.inj ht'' ▸ hok''

theorem HashOk.run (hrun : Relation.ReflTransGen HashStep s s')
    (hok : HashOk s.1 s.2) : HashOk s'.1 s'.2 := by
  induction hrun with
  | refl => exact hok
  | tail _ hstep ih => exact hstep.ok ih

theorem HashOk.empty (hsize : 0 < t.size) (hempty : ∀ h, t.ieIndex h = 0) :
    HashOk t fun _ => none := by
  refine ⟨hsize, ?_, ?_, ?_, ?_, ?_, ?_⟩
  · intro i obj hi
    cases hi
  · intro i j obj hi
    cases hi
  · intro i obj hi
    cases hi
  · intro h _ hne
    exact absurd (hempty h) hne
  · intro h _ h' _ hne
    exact absurd (hempty h) hne
  · intro h _ hne
    exact absurd (hempty h) hne

/-- Whatever was inserted and deleted before, the next lookup, insert or delete comes to its end, and a
lookup finds the index inserted for the object, and no other. -/
theorem ipcHashLocal_agrees {t₀ t : HashTable} {ins : ℕ → Option ℕ} (hsize : 0 < t₀.size)
    (hempty : ∀ h, t₀.ieIndex h = 0)
    (hrun : Relation.ReflTransGen HashStep (t₀, fun _ => none) (t, ins)) {turns : ℕ}
    (hturns : t.size ≤ turns) : (∀ obj, ∃ found, t.localLookup turns obj = some found ∧
      ∀ name index, found = some (name, index) ↔
        ins index = some obj ∧ name = machPortMakeb index (t.ieBits index)) ∧
    (∀ i j obj, ins i = some obj → ins j = some obj → i = j) ∧
    (∀ obj index, index ≠ 0 → index < t.size → t.ieObject index = obj → (∀ i, ins i ≠ some obj) →
      ins index = none → ∃ t', t.localInsert turns obj index = some t' ∧
        HashStep (t, ins) (t', update ins index (some obj))) ∧
    (∀ obj index, ins index = some obj → ∃ t', t.localDelete turns obj index = some t' ∧
      HashStep (t, ins) (t', update ins index none)) := by
  have hok : HashOk t ins := HashOk.run hrun (HashOk.empty hsize hempty)
  refine ⟨?_, hok.unique, ?_, ?_⟩
  · intro obj
    by_cases hins : ∃ i, ins i = some obj
    · obtain ⟨i, hi⟩ := hins
      refine ⟨_, hok.localLookup hi hturns, fun name index => ?_⟩
      constructor
      · intro heq
        simp only [Option.some.injEq, Prod.mk.injEq] at heq
        obtain ⟨rfl, rfl⟩ := heq
        exact ⟨hi, rfl⟩
      · rintro ⟨hindex, rfl⟩
        rw [hok.unique i index obj hi hindex]
    · push Not at hins
      refine ⟨none, hok.localLookup_none hins hturns, fun name index => ?_⟩
      simp [hins index]
  · intro obj index hne hlt hobj hnew hins
    obtain ⟨t', ht', -, -⟩ := hok.localInsert hne hlt hobj hnew hins hturns
    exact ⟨t', ht', .insert t t' ins turns obj index hne hlt hobj hnew hins ht'⟩
  · intro obj index hins
    obtain ⟨t', ht', -, -⟩ := hok.localDelete hins hturns
    exact ⟨t', ht', .delete t t' ins turns obj index hins ht'⟩

/-- Two entries whose objects belong at the last place of the table. -/
def twoEntries : HashTable where
  size := 4
  ieObject := fun i => if i = 1 then 192 else if i = 2 then 448 else 0
  ieBits := fun _ => 0x05010000
  ieIndex := fun _ => 0

/-- The second object goes around the end of the table, and back when the first is deleted. -/
theorem ipcHashLocal_agrees_twoEntries :
    ∃ t : HashTable, ((twoEntries.localInsert 4 192 1).bind fun t => (t.localInsert 4 448 2).bind
      fun t => t.localDelete 4 192 1) = some t ∧
    t.localLookup 4 448 = some (some (0x205, 2)) ∧ t.localLookup 4 192 = some none := by
  let one : ℕ → Option ℕ := update (fun _ => none) 1 (some 192)
  let two : ℕ → Option ℕ := update one 2 (some 448)
  have h1 : HashStep (twoEntries, fun _ => none) (twoEntries.setIndex 3 1, one) :=
    .insert _ _ _ 4 192 1 (by decide) (by decide) rfl (fun _ => by simp) rfl rfl
  have h2 : HashStep (twoEntries.setIndex 3 1, one)
      ((twoEntries.setIndex 3 1).setIndex 0 2, two) := by
    refine .insert _ _ _ 4 448 2 (by decide) (by decide) rfl (fun i => ?_) rfl rfl
    by_cases hi : i = 1 <;> simp [one, hi]
  obtain ⟨-, -, -, hdelete⟩ := ipcHashLocal_agrees (by decide) (fun _ => rfl)
    (.tail (.single h1) h2) (Nat.le_refl 4)
  obtain ⟨t', hout, h3⟩ := hdelete 192 1 rfl
  have hsize : t'.size = 4 ∧ t'.ieBits 2 = 0x05010000 := by
    have hout' := some.inj hout
    rw [← hout']
    exact ⟨rfl, rfl⟩
  obtain ⟨hfind, -, -, -⟩ := ipcHashLocal_agrees (by decide) (fun _ => rfl)
    (.tail (.tail (.single h1) h2) h3) hsize.1.le
  refine ⟨t', hout, ?_, ?_⟩
  · obtain ⟨found, hfound, hiff⟩ := hfind 448
    rw [hfound, (hiff 0x205 2).mpr ⟨rfl, by rw [hsize.2]; rfl⟩]
  · obtain ⟨found, hfound, hiff⟩ := hfind 192
    cases found with
    | none => exact hfound
    | some p =>
      have hins := ((hiff p.1 p.2).mp rfl).1
      by_cases hp : p.2 = 1
      · rw [hp, update_self] at hins
        cases hins
      · by_cases hp' : p.2 = 2 <;> simp [two, one, hp, hp'] at hins

end MachKernel.Ipc
