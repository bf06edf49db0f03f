import MachKernel.Vm.Resident

/-! The table of resident pages as a map from places to pages. -/

namespace MachKernel.Vm
open Function Option List
variable [ResidentConfig]

omit [ResidentConfig] in
theorem short_add (x y : ℤ) : short (short x + y) = short (x + y) := Int.bmod_add_bmod

omit [ResidentConfig] in
theorem short_sub (x y : ℤ) : short (short x - y) = short (x - y) := Int.bmod_sub_bmod

/-- Where a page is tabled. -/
def ResidentPage.place (p : ResidentPage) : Option (Option ObjId × ℕ) :=
  if p.tabled = true then some (p.object, p.offset) else none

/-- The hash chains, the lists of the objects, and where each page says it is. -/
structure PageTable where
  buckets : ℕ → List PageId
  memq : ObjId → List PageId
  count : ObjId → ℤ
  place : PageId → Option (Option ObjId × ℕ)

namespace PageTable

def enter (t : PageTable) (mem : PageId) (object : ObjId) (offset : ℕ) : PageTable :=
  let bucket := Resident.bucketOf (some object) offset
  { buckets := update t.buckets bucket (mem :: t.buckets bucket)
    memq := update t.memq object (t.memq object ++ [mem])
    count := update t.count object (short (t.count object + 1))
    place := update t.place mem (some (some object, offset)) }

def remove (t : PageTable) (mem : PageId) (object : ObjId) (offset : ℕ) : PageTable :=
  let bucket := Resident.bucketOf (some object) offset
  { buckets := update t.buckets bucket ((t.buckets bucket).erase mem)
    memq := update t.memq object ((t.memq object).erase mem)
    count := update t.count object (short (t.count object - 1))
    place := update t.place mem none }

/-- Every page is in the bucket and on the list of its place, once, and nowhere else. -/
structure Ok (t : PageTable) : Prop where
  object : ∀ p o off, t.place p = some (o, off) → o ≠ none
  mem_bucket : ∀ b p, p ∈ t.buckets b ↔
    ∃ o off, t.place p = some (some o, off) ∧ Resident.bucketOf (some o) off = b
  nodup_bucket : ∀ b, (t.buckets b).Nodup
  mem_memq : ∀ o p, p ∈ t.memq o ↔ ∃ off, t.place p = some (some o, off)
  nodup_memq : ∀ o, (t.memq o).Nodup
  count_eq : ∀ o, t.count o = short (t.memq o).length

/-- No place has two pages. -/
def Unique (t : PageTable) : Prop := ∀ p q x, t.place p = some x → t.place q = some x → p = q

/-- No page is at the place. -/
def Vacant (t : PageTable) (object : ObjId) (offset : ℕ) : Prop :=
  ∀ p, t.place p ≠ some (some object, offset)

variable {t : PageTable} {mem : PageId} {object : ObjId} {offset : ℕ}

/-- Each page is on the list of its key, once, and nowhere else. -/
structure Filed {β : Type*} (key : PageId → Option β) (f : β → List PageId) : Prop where
  mem : ∀ b p, p ∈ f b ↔ key p = some b
  nodup : ∀ b, (f b).Nodup

section
variable {β : Type*} [DecidableEq β] {key : PageId → Option β} {f : β → List PageId} {b : β}
  {l : List PageId}

omit [ResidentConfig] in
theorem Filed.enter (h : Filed key f) (hmem : key mem = none) (hl : l.Perm (mem :: f b)) :
    Filed (update key mem (some b)) (update f b l) := by
  refine ⟨fun c p => ?_, fun c => ?_⟩
  · rcases eq_or_ne c b with rfl | hb
    · rw [update_self, hl.mem_iff, mem_cons]
      rcases eq_or_ne p mem with rfl | hp
      · rw [update_self]
        exact iff_of_true (.inl rfl) rfl
      · rw [update_of_ne hp, h.mem]
        exact or_iff_right hp
    · rw [update_of_ne hb, h.mem]
      rcases eq_or_ne p mem with rfl | hp
      · rw [update_self, hmem]
        exact iff_of_false nofun fun hc => hb (some.inj hc).symm
      · rw [update_of_ne hp]
  · rcases eq_or_ne c b with rfl | hb
    · rw [update_self, hl.nodup_iff, nodup_cons, h.mem, hmem]
      exact ⟨nofun, h.nodup c⟩
    · rw [update_of_ne hb]
      exact h.nodup c

omit [ResidentConfig] in
theorem Filed.remove (h : Filed key f) (hmem : key mem = some b) :
    Filed (update key mem none) (update f b ((f b).erase mem)) := by
  refine ⟨fun c p => ?_, fun c => ?_⟩
  · rcases eq_or_ne c b with rfl | hb
    · rw [update_self, (h.nodup c).mem_erase_iff]
      rcases eq_or_ne p mem with rfl | hp
      · rw [update_self]
        exact iff_of_false (fun hc => hc.1 rfl) nofun
      · rw [update_of_ne hp, h.mem]
        exact and_iff_right hp
    · rw [update_of_ne hb, h.mem]
      rcases eq_or_ne p mem with rfl | hp
      · rw [update_self, hmem]
        exact iff_of_false (fun hc => hb (some.inj hc).symm) nofun
      · rw [update_of_ne hp]
  · rcases eq_or_ne c b with rfl | hb
    · rw [update_self]
      exact (h.nodup c).erase mem
    · rw [update_of_ne hb]
      exact h.nodup c

end

def bucketKey : Option (Option ObjId × ℕ) → Option ℕ
  | some (some o, off) => some (Resident.bucketOf (some o) off)
  | _ => none

theorem ok_iff : t.Ok ↔ (∀ p o off, t.place p = some (o, off) → o ≠ none) ∧
    Filed (fun p => bucketKey (t.place p)) t.buckets ∧
    Filed (fun p => (t.place p).bind Prod.fst) t.memq ∧
    ∀ o, t.count o = short (t.memq o).length := by
  have hbucket : ∀ x b, bucketKey x = some b ↔
      ∃ o off, x = some (some o, off) ∧ Resident.bucketOf (some o) off = b := by
    rintro (_ | ⟨_ | o, off⟩) b <;> simp [bucketKey]
  have hobject : ∀ (x : Option (Option ObjId × ℕ)) o,
      x.bind Prod.fst = some o ↔ ∃ off, x = some (some o, off) := by
    rintro (_ | ⟨_ | o, off⟩) b <;> simp
  constructor
  · rintro ⟨ho, hb, hbn, hq, hqn, hc⟩
    exact ⟨ho, ⟨fun b p => (hb b p).trans (hbucket _ b).symm, hbn⟩,
      ⟨fun o p => (hq o p).trans (hobject _ o).symm, hqn⟩, hc⟩
  · rintro ⟨ho, hb, hq, hc⟩
    exact ⟨ho, fun b p => (hb.mem b p).trans (hbucket _ b), hb.nodup,
      fun o p => (hq.mem o p).trans (hobject _ o), hq.nodup, hc⟩

theorem Ok.enter (h : t.Ok) (hmem : t.place mem = none) : (t.enter mem object offset).Ok := by
  obtain ⟨ho, hb, hq, hc⟩ := ok_iff.mp h
  refine ok_iff.mpr ⟨fun p o off hp => ?_, ?_, ?_, fun o => ?_⟩
  · change update t.place _ _ p = _ at hp
    rcases eq_or_ne p mem with rfl | hne
    · rw [update_self] at hp
      cases hp
      simp
    · rw [update_of_ne hne] at hp
      exact ho p o off hp
  · have hkey := hb.enter (l := mem :: t.buckets (Resident.bucketOf (some object) offset))
      (by rw [hmem]; rfl) .rfl
    exact (funext (apply_update (fun _ => bucketKey) t.place mem _)).symm ▸ hkey
  · have hkey := hq.enter (by rw [hmem]; rfl) (perm_append_singleton mem (t.memq object))
    exact (funext (apply_update (fun _ x => Option.bind x Prod.fst) t.place mem _)).symm ▸ hkey
  · change update t.count _ _ o = short (update t.memq _ _ o).length
    rcases eq_or_ne o object with rfl | hone
    · rw [update_self, update_self, length_append, h.count_eq, short_add]
      rfl
    · rw [update_of_ne hone, update_of_ne hone, h.count_eq]

theorem Ok.remove (h : t.Ok) (hmem : t.place mem = some (some object, offset)) :
    (t.remove mem object offset).Ok := by
  obtain ⟨ho, hb, hq, hc⟩ := ok_iff.mp h
  refine ok_iff.mpr ⟨fun p o off hp => ?_, ?_, ?_, fun o => ?_⟩
  · change update t.place _ _ p = _ at hp
    rcases eq_or_ne p mem with rfl | hne
    · rw [update_self] at hp
      cases hp
    · rw [update_of_ne hne] at hp
      exact ho p o off hp
  · have hkey := hb.remove (b := Resident.bucketOf (some object) offset) (by rw [hmem]; rfl)
    exact (funext (apply_update (fun _ => bucketKey) t.place mem _)).symm ▸ hkey
  · have hkey := hq.remove (b := object) (by rw [hmem]; rfl)
    exact (funext (apply_update (fun _ x => Option.bind x Prod.fst) t.place mem _)).symm ▸ hkey
  · change update t.count _ _ o = short (update t.memq _ _ o).length
    rcases eq_or_ne o object with rfl | hone
    · have hin : mem ∈ t.memq o := (h.mem_memq o mem).mpr ⟨offset, hmem⟩
      have hpos := length_pos_of_mem hin
      rw [update_self, update_self, length_erase_of_mem hin, h.count_eq,
        short_sub, Nat.cast_sub hpos]
      rfl
    · rw [update_of_ne hone, update_of_ne hone, h.count_eq]

theorem Unique.enter (h : t.Unique) (hvacant : ∀ p, p ≠ mem → t.place p ≠ some (some object, offset)) :
    (t.enter mem object offset).Unique := by
  intro p q x hp hq
  change update t.place _ _ p = _ at hp
  change update t.place _ _ q = _ at hq
  by_cases hpm : p = mem
  · rw [hpm, update_self] at hp
    by_cases hqm : q = mem
    · rw [hpm, hqm]
    · rw [update_of_ne hqm, ← hp] at hq
      exact absurd hq (hvacant q hqm)
  · rw [update_of_ne hpm] at hp
    by_cases hqm : q = mem
    · rw [hqm, update_self] at hq
      rw [← hq] at hp
      exact absurd hp (hvacant p hpm)
    · rw [update_of_ne hqm] at hq
      exact h p q x hp hq

theorem Unique.remove (h : t.Unique) : (t.remove mem object offset).Unique := by
  have hplace : ∀ p x, (t.remove mem object offset).place p = some x → t.place p = some x := by
    intro p x hp
    change update t.place _ _ p = _ at hp
    rcases eq_or_ne p mem with rfl | hne
    · rw [update_self] at hp
      cases hp
    · rwa [update_of_ne hne] at hp
  exact fun p q x hp hq => h p q x (hplace p x hp) (hplace q x hq)

end PageTable

namespace Resident
variable {s s' : Resident} {mem : PageId} {object : ObjId} {offset : ℕ}

/-- What the table is in a state. -/
def tableView (s : Resident) : PageTable where
  buckets := s.buckets
  memq := fun o => (s.objects o).memq
  count := fun o => (s.objects o).residentPageCount
  place := fun p => (s.pages p).place

/-! ## What the operations do to the table -/

section
omit [ResidentConfig]

theorem modifyPage_tableView {f : ResidentPage → ResidentPage}
    (h : (f (s.pages mem)).place = (s.pages mem).place) :
    (s.modifyPage mem f).tableView = s.tableView := by
  have hplace := funext (apply_update (fun _ => ResidentPage.place) s.pages mem (f (s.pages mem)))
  rw [h, update_eq_self] at hplace
  exact congrArg (PageTable.mk _ _ _) hplace

theorem modifyObject_tableView {f : ObjectPages → ObjectPages}
    (hmemq : (f (s.objects object)).memq = (s.objects object).memq)
    (hcount : (f (s.objects object)).residentPageCount = (s.objects object).residentPageCount) :
    (s.modifyObject object f).tableView = s.tableView := by
  have hq := funext (apply_update (fun _ => ObjectPages.memq) s.objects object
    (f (s.objects object)))
  have hc := funext (apply_update (fun _ => ObjectPages.residentPageCount) s.objects
    object (f (s.objects object)))
  rw [hmemq, update_eq_self] at hq
  rw [hcount, update_eq_self] at hc
  exact congrArg₂ (fun q c => PageTable.mk s.buckets q c fun p => (s.pages p).place) hq hc

theorem queuesRemove_tableView (s : Resident) (mem : PageId) :
    (s.queuesRemove mem).tableView = s.tableView := by
  have hactive : ∀ s : Resident, (s.leaveActive mem).tableView = s.tableView := by
    intro s
    unfold leaveActive
    split
    · exact s.modifyPage_tableView (f := fun p => { p with active := false }) rfl
    · rfl
  have hinactive : ∀ s : Resident, (s.leaveInactive mem).tableView = s.tableView := by
    intro s
    unfold leaveInactive
    split
    · exact s.modifyPage_tableView (f := fun p => { p with inactive := false }) rfl
    · rfl
  exact (hinactive _).trans (hactive s)

theorem vmPageDeactivate_tableView (s : Resident) (m : PageId) :
    (s.vmPageDeactivate m).tableView = s.tableView := by
  have henter : ∀ t : Resident, (if (t.pages m).wireCount = 0 ∧ (t.pages m).inactive = false
      then t.enterInactive m else t).tableView = t.tableView := by
    intro t
    split
    · exact t.modifyPage_tableView (f := fun p => { p with inactive := true }) rfl
    · rfl
  refine (henter _).trans ?_
  split
  · rw [queuesRemove_tableView, modifyPage_tableView rfl]
  · rfl

end

theorem noteAlloc_tableView [PageSize] (s : Resident) (object : ObjId) (offset : ℕ) :
    (s.noteAlloc object offset).tableView = s.tableView := by
  unfold noteAlloc
  rw [modifyObject_tableView rfl rfl]
  split
  · split
    · split
      · rfl
      · exact vmPageDeactivate_tableView s _
    · rfl
  · rfl

theorem tableEnter_tableView (s : Resident) (mem : PageId) (object : ObjId) (offset : ℕ) :
    (s.tableEnter mem object offset).tableView = s.tableView.enter mem object offset := by
  unfold tableView PageTable.enter
  congr 1
  · exact funext (apply_update (fun _ => ObjectPages.memq) s.objects object _)
  · exact funext (apply_update (fun _ => ObjectPages.residentPageCount) s.objects object _)
  · exact funext (apply_update (fun _ => ResidentPage.place) s.pages mem _)

theorem vmPageRemove_tableView (h : (s.pages mem).place = some (some object, offset)) :
    (s.vmPageRemove mem).tableView = s.tableView.remove mem object offset := by
  obtain ⟨hobj, hoff⟩ : (s.pages mem).object = some object ∧ (s.pages mem).offset = offset := by
    unfold ResidentPage.place at h
    split at h
    · exact Prod.mk.inj (some.inj h)
    · cases h
  have hbuckets : (s.vmPageRemove mem).buckets = update s.buckets (bucketOf (some object) offset)
        ((s.buckets (bucketOf (some object) offset)).erase mem) := by
    rw [← hobj, ← hoff]
    rfl
  have hobjects : (s.vmPageRemove mem).objects = update s.objects object { s.objects object with
        memq := (s.objects object).memq.erase mem
        residentPageCount := short ((s.objects object).residentPageCount - 1) } := by
    unfold vmPageRemove
    rw [hobj]
    rfl
  unfold tableView PageTable.remove
  rw [hobjects]
  congr 1
  · exact funext (apply_update (fun _ => ObjectPages.memq) s.objects object _)
  · exact funext (apply_update (fun _ => ObjectPages.residentPageCount) s.objects object _)
  · exact funext (apply_update (fun _ => ResidentPage.place) s.pages mem _)

section
omit [ResidentConfig]

theorem freeWiring_tableView (s : Resident) (mem : PageId) :
    (s.freeWiring mem).tableView = s.tableView := by
  unfold freeWiring
  split
  · rw [modifyPage_tableView rfl]
    split <;> rfl
  · rfl

theorem freeLaundry_tableView (s : Resident) (mem : PageId) :
    (s.freeLaundry mem).tableView = s.tableView := by
  unfold freeLaundry
  split
  · exact s.modifyPage_tableView (f := fun p => { p with laundry := false }) rfl
  · rfl

theorem freeWakeup_tableView (s : Resident) (mem : PageId) :
    (s.freeWakeup mem).tableView = s.tableView := by
  have habsent : ∀ t : Resident, (if (t.pages mem).absent = true then
      t.modifyObject ((t.pages mem).object.getD 0) fun o =>
        { o with absentCount := Word32.sub o.absentCount 1 }
      else t).tableView = t.tableView := by
    intro t
    split
    · exact modifyObject_tableView rfl rfl
    · rfl
  exact (habsent _).trans (modifyPage_tableView rfl)

theorem vmPageRelease_tableView (h : s.vmPageRelease mem = some s') :
    s'.tableView = s.tableView := by
  unfold vmPageRelease at h
  split at h
  · cases h
  · cases h
    exact s.modifyPage_tableView (f := fun p => { p with free := true }) rfl

theorem vmPageReleaseFictitious_tableView (h : s.vmPageReleaseFictitious mem = some s') :
    s'.tableView = s.tableView := by
  unfold vmPageReleaseFictitious at h
  split at h
  · cases h
  · cases h
    exact s.modifyPage_tableView (f := fun p => { p with free := true }) rfl

end

theorem freeStructure_tableView (h : s.freeStructure mem = some s')
    (hmem : (s.pages mem).place = none) : s'.tableView = s.tableView := by
  have hinit : ∀ physAddr, (s.vmPageInit mem physAddr).tableView = s.tableView := fun _ =>
    modifyPage_tableView hmem.symm
  unfold freeStructure at h
  split at h
  · rw [vmPageReleaseFictitious_tableView h, modifyPage_tableView rfl, hinit]
  · rw [vmPageRelease_tableView h, hinit]

theorem freeUntabled_tableView (h : s.freeUntabled mem = some s')
    (hmem : (s.pages mem).place = none) : s'.tableView = s.tableView := by
  have hview : ((((s.queuesRemove mem).freeWiring mem).freeLaundry mem).freeWakeup mem).tableView =
      s.tableView := by
    rw [freeWakeup_tableView, freeLaundry_tableView, freeWiring_tableView, queuesRemove_tableView]
  rw [freeStructure_tableView h ((congrFun (congrArg PageTable.place hview) mem).trans hmem), hview]

omit [ResidentConfig] in
theorem place_none (h : ¬(s.pages mem).tabled = true) : (s.pages mem).place = none := if_neg h

theorem place_tabled (h : (s.pages mem).tabled = true) (hok : s.tableView.Ok) :
    ∃ object, (s.pages mem).place = some (some object, (s.pages mem).offset) := by
  have hplace : (s.pages mem).place = some ((s.pages mem).object, (s.pages mem).offset) := if_pos h
  obtain ⟨object, hobject⟩ := ne_none_iff_exists'.mp (hok.object mem _ _ hplace)
  exact ⟨object, by rw [hplace, hobject]⟩

theorem vmPageFree_tableView (h : s.vmPageFree mem = some s') (hok : s.tableView.Ok) :
    s'.tableView = s.tableView ∧ (s.pages mem).place = none ∨
      ∃ object offset, (s.pages mem).place = some (some object, offset) ∧
        s'.tableView = s.tableView.remove mem object offset := by
  unfold vmPageFree at h
  split at h
  · cases h
  · split at h
    case isTrue htabled =>
      obtain ⟨object, hplace⟩ := place_tabled htabled hok
      have hview := vmPageRemove_tableView hplace
      refine .inr ⟨object, _, hplace, ?_⟩
      rw [freeUntabled_tableView h ?_, hview]
      exact (congrFun (congrArg PageTable.place hview) mem).trans (update_self _ _ _)
    case isFalse htabled =>
      exact .inl ⟨freeUntabled_tableView h (place_none htabled), place_none htabled⟩

end Resident

namespace Resident
variable {s s' : Resident} {mem m : PageId} {object : ObjId} {offset : ℕ}

/-! ## Replacing -/

section
omit [ResidentConfig]

@[simp] theorem modifyPage_pages_of_ne {p q : PageId} (hne : q ≠ p) (s : Resident)
    (f : ResidentPage → ResidentPage) : (s.modifyPage p f).pages q = s.pages q :=
  update_of_ne hne _ _

theorem modifyPage_pages_self (s : Resident) (p : PageId) (f : ResidentPage → ResidentPage) :
    (s.modifyPage p f).pages p = f (s.pages p) := update_self _ _ _

theorem modifyPage_comm {p q : PageId} (hne : p ≠ q) (s : Resident)
    (f g : ResidentPage → ResidentPage) :
    (s.modifyPage p f).modifyPage q g = (s.modifyPage q g).modifyPage p f := by
  unfold modifyPage
  congr 1
  change update (update s.pages p _) q (g (update s.pages p _ q)) =
    update (update s.pages q _) p (f (update s.pages q _ p))
  rw [update_of_ne hne.symm, update_of_ne hne, update_comm hne]

end

theorem freeUntabled_modifyPage (hne : mem ≠ m) (s : Resident) (f : ResidentPage → ResidentPage) :
    (s.modifyPage mem f).freeUntabled m = (s.freeUntabled m).map (·.modifyPage mem f) := by
  have hactive : ∀ t : Resident, (t.modifyPage mem f).leaveActive m =
      (t.leaveActive m).modifyPage mem f := by
    intro t
    unfold leaveActive
    rw [modifyPage_pages_of_ne hne.symm, modifyPage_comm hne]
    split <;> rfl
  have hinactive : ∀ t : Resident, (t.modifyPage mem f).leaveInactive m =
      (t.leaveInactive m).modifyPage mem f := by
    intro t
    unfold leaveInactive
    rw [modifyPage_pages_of_ne hne.symm, modifyPage_comm hne]
    split <;> rfl
  have hwiring : ∀ t : Resident, (t.modifyPage mem f).freeWiring m =
      (t.freeWiring m).modifyPage mem f := by
    intro t
    unfold freeWiring
    rw [modifyPage_pages_of_ne hne.symm]
    split
    · split
      · rw [← modifyPage_comm hne]
        rfl
      · rw [modifyPage_comm hne]
    · rfl
  have hlaundry : ∀ t : Resident, (t.modifyPage mem f).freeLaundry m =
      (t.freeLaundry m).modifyPage mem f := by
    intro t
    unfold freeLaundry
    rw [modifyPage_pages_of_ne hne.symm, modifyPage_comm hne]
    split <;> rfl
  have hwakeup : ∀ t : Resident, (t.modifyPage mem f).freeWakeup m =
      (t.freeWakeup m).modifyPage mem f := by
    intro t
    unfold freeWakeup
    rw [modifyPage_comm hne]
    dsimp only
    rw [modifyPage_pages_of_ne hne.symm]
    split <;> rfl
  have hstructure : ∀ t : Resident, (t.modifyPage mem f).freeStructure m =
      (t.freeStructure m).map (·.modifyPage mem f) := by
    intro t
    unfold freeStructure vmPageInit vmPageReleaseFictitious vmPageRelease
    rw [modifyPage_pages_of_ne hne.symm]
    simp only [modifyPage_comm hne, modifyPage_pages_of_ne hne.symm]
    split <;> split <;> rfl
  unfold freeUntabled queuesRemove
  rw [hactive, hinactive, hwiring, hlaundry, hwakeup, hstructure]

omit [ResidentConfig] in
theorem modifyPage_modifyPage (s : Resident) (p : PageId) (f g : ResidentPage → ResidentPage) :
    (s.modifyPage p f).modifyPage p g = s.modifyPage p fun x => g (f x) := by
  unfold modifyPage
  congr 1
  change update (update s.pages p _) p (g (update s.pages p _ p)) = _
  rw [update_self, update_idem]

theorem tableEnter_recorded (s : Resident) :
    (s.modifyPage mem fun p => { p with object := some object, offset := offset }).tableEnter
      mem object offset = s.tableEnter mem object offset := by
  unfold tableEnter
  rw [modifyPage_modifyPage]

theorem vmPageLookup_some {p : PageId} (hok : s.tableView.Ok)
    (h : s.vmPageLookup object offset = some p) :
    (s.pages p).place = some (some object, offset) := by
  have hkey := find?_some h
  rw [decide_eq_true_eq] at hkey
  obtain ⟨o, off, hplace, -⟩ := (hok.mem_bucket _ p).mp (mem_of_find?_eq_some h)
  have htabled : (s.pages p).tabled = true := by
    by_contra hc
    exact some_ne_none _ (hplace.symm.trans (place_none hc))
  exact (if_pos htabled).trans (congrArg some (Prod.ext hkey.1 hkey.2))

theorem vmPageLookup_none (hok : s.tableView.Ok) (h : s.vmPageLookup object offset = none) :
    s.tableView.Vacant object offset := by
  intro p hplace
  have hin := (hok.mem_bucket _ p).mpr ⟨object, offset, hplace, rfl⟩
  have hkey := find?_eq_none.mp h p hin
  refine hkey (decide_eq_true ?_)
  change ResidentPage.place _ = _ at hplace
  unfold ResidentPage.place at hplace
  split at hplace
  · exact Prod.mk.inj (some.inj hplace)
  · cases hplace

theorem vmPageRemove_pages_self (s : Resident) (p : PageId) :
    (s.vmPageRemove p).pages p = { s.pages p with tabled := false } := update_self _ _ _

/-- The removal of the page at a place, if there is one. -/
def freeAt (s : Resident) (object : ObjId) (offset : ℕ) : Option Resident :=
  match s.vmPageLookup object offset with
  | none => some s
  | some old => s.vmPageFree old

theorem vmPageReplace_eq (hok : s.tableView.Ok) (hmem : ¬(s.pages mem).tabled = true) :
    s.vmPageReplace mem object offset =
      (s.freeAt object offset).map (·.tableEnter mem object offset) := by
  have hnot : ∀ b, mem ∉ s.buckets b := by
    intro b hin
    obtain ⟨_, _, hplace, -⟩ := (hok.mem_bucket b mem).mp hin
    exact some_ne_none _ (hplace.symm.trans (place_none hmem))
  set recorded := s.modifyPage mem fun p => { p with object := some object, offset := offset }
    with hrecorded
  -- The page itself is in no bucket, so that the search does not see what was recorded in it.
  have hfound : (s.buckets (bucketOf (some object) offset)).find? (fun p =>
      (recorded.pages p).object = some object ∧ (recorded.pages p).offset = offset) =
        s.vmPageLookup object offset := by
    refine find?_congr fun p hp => ?_
    rw [hrecorded, modifyPage_pages_of_ne fun heq => hnot _ (heq ▸ hp)]
  have hunfold : s.vmPageReplace mem object offset = (match s.vmPageLookup object offset with
      | none => some recorded
      | some p =>
        ((({ recorded with
            buckets := update recorded.buckets (bucketOf (some object) offset)
              ((recorded.buckets (bucketOf (some object) offset)).erase p) } :
            Resident).modifyObject object fun o =>
          { o with memq := o.memq.erase p, residentPageCount := short (o.residentPageCount - 1) }
          ).modifyPage p fun x => { x with tabled := false }).vmPageFree p).map
        (fun t : Resident => t.tableEnter mem object offset) := by
    rw [← hfound]
    exact if_neg hmem
  rw [hunfold]
  unfold freeAt
  cases hlookup : s.vmPageLookup object offset with
  | none => exact congrArg some (tableEnter_recorded s)
  | some p =>
    have hplace := vmPageLookup_some hok hlookup
    have hpne : mem ≠ p := by
      rintro rfl
      exact some_ne_none _ (hplace.symm.trans (place_none hmem))
    have hkey := find?_some hlookup
    rw [decide_eq_true_eq] at hkey
    have htabled : (s.pages p).tabled = true := by
      by_contra hc
      exact some_ne_none _ (hplace.symm.trans (place_none hc))
    have hcut : (({ recorded with
            buckets := update recorded.buckets (bucketOf (some object) offset)
              ((recorded.buckets (bucketOf (some object) offset)).erase p) } :
            Resident).modifyObject object fun o =>
          { o with memq := o.memq.erase p, residentPageCount := short (o.residentPageCount - 1) }
          ).modifyPage p (fun x => { x with tabled := false }) =
        (s.vmPageRemove p).modifyPage mem fun x =>
          { x with object := some object, offset := offset } := by
      unfold vmPageRemove
      rw [← modifyPage_comm hpne, hkey.1, hkey.2]
      rfl
    dsimp only
    rw [hcut]
    have hfree : (((s.vmPageRemove p).modifyPage mem fun x =>
        { x with object := some object, offset := offset }).pages p).free = (s.pages p).free := by
      rw [modifyPage_pages_of_ne hpne.symm, vmPageRemove_pages_self]
    have huntabled : (((s.vmPageRemove p).modifyPage mem fun x =>
        { x with object := some object, offset := offset }).pages p).tabled = false := by
      rw [modifyPage_pages_of_ne hpne.symm, vmPageRemove_pages_self]
    unfold vmPageFree
    rw [hfree, huntabled, htabled]
    split
    · rfl
    · rw [if_neg Bool.false_ne_true, if_pos rfl, freeUntabled_modifyPage hpne, Option.map_map]
      exact congrArg (Option.map · _) (funext fun t => tableEnter_recorded t)

end Resident

namespace Resident

/-! ## Runs -/

/-- The page is tabled at the place. -/
def TabledAt (s : Resident) (mem : PageId) (object : ObjId) (offset : ℕ) : Prop :=
  (s.pages mem).tabled = true ∧ (s.pages mem).object = some object ∧ (s.pages mem).offset = offset

instance (s : Resident) (mem : PageId) (object : ObjId) (offset : ℕ) :
    Decidable (s.TabledAt mem object offset) := inferInstanceAs (Decidable (_ ∧ _ ∧ _))

/-- A step on the table. A careful caller has seen that no other page is at a place where it inserts
a page, or where it moves one. -/
inductive TableStep [PageSize] (careful : Bool) : Resident → Resident → Prop
  | insert {s s' : Resident} (mem : PageId) (object : ObjId) (offset : ℕ)
      (hcareful : careful = true → ∀ p, ¬s.TabledAt p object offset)
      (h : s.vmPageInsert mem object offset = some s') : TableStep careful s s'
  | replace {s s' : Resident} (mem : PageId) (object : ObjId) (offset : ℕ)
      (h : s.vmPageReplace mem object offset = some s') : TableStep careful s s'
  | remove {s : Resident} (mem : PageId) (htabled : (s.pages mem).tabled = true) :
      TableStep careful s (s.vmPageRemove mem)
  | rename {s s' : Resident} (mem : PageId) (object : ObjId) (offset : ℕ)
      (htabled : (s.pages mem).tabled = true)
      (hcareful : careful = true → ∀ p, p ≠ mem → ¬s.TabledAt p object offset)
      (h : s.vmPageRename mem object offset = some s') : TableStep careful s s'
  | free {s s' : Resident} (mem : PageId) (h : s.vmPageFree mem = some s') : TableStep careful s s'

/-- Nothing is in the table. -/
structure Untabled (s : Resident) : Prop where
  buckets : ∀ b, s.buckets b = []
  memq : ∀ o, (s.objects o).memq = []
  count : ∀ o, (s.objects o).residentPageCount = 0
  tabled : ∀ p, (s.pages p).tabled = false

/-- The table is right, and in the hands of careful callers no place has two pages. -/
def TableOk (careful : Bool) (s : Resident) : Prop :=
  s.tableView.Ok ∧ (careful = true → s.tableView.Unique)

variable {careful : Bool} {s s' : Resident} {mem : PageId} {object : ObjId} {offset : ℕ}

omit [ResidentConfig] in
theorem tabledAt_iff :
    s.TabledAt mem object offset ↔ s.tableView.place mem = some (some object, offset) := by
  change _ ↔ ResidentPage.place _ = _
  unfold TabledAt ResidentPage.place
  split
  case isTrue h => rw [Option.some_inj, Prod.mk.injEq, and_iff_right h]
  case isFalse h => exact iff_of_false (fun hc => h hc.1) fun hc => by cases hc

theorem Untabled.tableOk (h : s.Untabled) : TableOk careful s := by
  have hplace : ∀ p, s.tableView.place p = none := fun p => place_none (by simp [h.tabled p])
  have hnot : ∀ {p x}, ¬s.tableView.place p = some x := fun hc =>
    some_ne_none _ (hc.symm.trans (hplace _))
  refine ⟨⟨fun _ _ _ hc => absurd hc hnot, ?_, ?_, ?_, ?_, ?_⟩, fun _ _ _ _ hc => absurd hc hnot⟩
  · intro b p
    rw [show s.tableView.buckets b = [] from h.buckets b]
    exact iff_of_false not_mem_nil fun ⟨_, _, hc, _⟩ => hnot hc
  · exact fun b => by rw [show s.tableView.buckets b = [] from h.buckets b]; exact nodup_nil
  · intro o p
    rw [show s.tableView.memq o = [] from h.memq o]
    exact iff_of_false not_mem_nil fun ⟨_, hc⟩ => hnot hc
  · exact fun o => by rw [show s.tableView.memq o = [] from h.memq o]; exact nodup_nil
  · intro o
    rw [show s.tableView.memq o = [] from h.memq o, show s.tableView.count o = 0 from h.count o]
    rfl

theorem TableOk.enter (h : TableOk careful s) (hmem : s.tableView.place mem = none)
    (hvacant : careful = true → s.tableView.Vacant object offset) :
    TableOk careful (s.tableEnter mem object offset) := by
  unfold TableOk
  rw [tableEnter_tableView]
  exact ⟨h.1.enter hmem, fun hc => (h.2 hc).enter fun p _ => hvacant hc p⟩

theorem TableOk.insert [PageSize] (h : TableOk careful s)
    (hvacant : careful = true → s.tableView.Vacant object offset)
    (hs : s.vmPageInsert mem object offset = some s') : TableOk careful s' := by
  unfold vmPageInsert at hs
  split at hs
  · cases hs
  case isFalse htabled =>
    cases hs
    have henter : TableOk careful (s.tableEnter mem object offset) :=
      h.enter (place_none htabled) hvacant
    unfold TableOk
    rw [noteAlloc_tableView]
    exact henter

theorem TableOk.remove (h : TableOk careful s) (htabled : (s.pages mem).tabled = true) :
    TableOk careful (s.vmPageRemove mem) := by
  obtain ⟨object, hplace⟩ := place_tabled htabled h.1
  unfold TableOk
  rw [vmPageRemove_tableView hplace]
  exact ⟨h.1.remove hplace, fun hc => (h.2 hc).remove⟩

theorem TableOk.free (h : TableOk careful s) (hs : s.vmPageFree mem = some s') :
    TableOk careful s' := by
  unfold TableOk
  rcases vmPageFree_tableView hs h.1 with ⟨hview, -⟩ | ⟨object, offset, hplace, hview⟩
  · rw [hview]
    exact h
  · rw [hview]
    exact ⟨h.1.remove hplace, fun hc => (h.2 hc).remove⟩

theorem TableOk.freeAt (h : TableOk careful s) (hs : s.freeAt object offset = some s')
    (hmem : s.tableView.place mem = none) : TableOk careful s' ∧ s'.tableView.place mem = none ∧
      (careful = true → s'.tableView.Vacant object offset) := by
  unfold Resident.freeAt at hs
  cases hlookup : s.vmPageLookup object offset with
  | none =>
    rw [hlookup] at hs
    cases hs
    exact ⟨h, hmem, fun _ => vmPageLookup_none h.1 hlookup⟩
  | some old =>
    rw [hlookup] at hs
    have hold := vmPageLookup_some h.1 hlookup
    rcases vmPageFree_tableView hs h.1 with ⟨-, hnone⟩ | ⟨o, off, hplace, hview⟩
    · exact absurd (hold.symm.trans hnone) (some_ne_none _)
    · cases hold.symm.trans hplace
      have hplaces : ∀ p x, s'.tableView.place p = some x → p ≠ old ∧
          s.tableView.place p = some x := by
        intro p x hp
        rw [hview] at hp
        change update s.tableView.place _ _ p = _ at hp
        rcases eq_or_ne p old with rfl | hne
        · rw [update_self] at hp
          cases hp
        · rw [update_of_ne hne] at hp
          exact ⟨hne, hp⟩
      refine ⟨h.free hs, ?_, fun hc p hp => ?_⟩
      · by_contra hne
        obtain ⟨x, hx⟩ := ne_none_iff_exists'.mp hne
        exact some_ne_none _ ((hplaces mem x hx).2.symm.trans hmem)
      · obtain ⟨hne, hp⟩ := hplaces p _ hp
        exact hne (h.2 hc p old _ hp hold)

theorem TableStep.tableOk [PageSize] (hstep : TableStep careful s s') (h : TableOk careful s) :
    TableOk careful s' := by
  cases hstep with
  | insert mem object offset hcareful hs =>
    exact h.insert (fun hc p hp => hcareful hc p (tabledAt_iff.mpr hp)) hs
  | replace mem object offset hs =>
    by_cases htabled : (s.pages mem).tabled = true
    · cases (if_pos htabled).symm.trans hs
    · rw [vmPageReplace_eq h.1 htabled] at hs
      obtain ⟨t, ht, rfl⟩ := map_eq_some_iff.mp hs
      obtain ⟨hok, hmem, hvacant⟩ := h.freeAt ht (place_none htabled)
      exact hok.enter hmem hvacant
  | remove mem htabled => exact h.remove htabled
  | rename mem object offset htabled hcareful hs =>
    refine (h.remove htabled).insert (fun hc p hp => ?_) hs
    obtain ⟨o, hplace⟩ := place_tabled htabled h.1
    rw [vmPageRemove_tableView hplace] at hp
    change update s.tableView.place _ _ p = _ at hp
    rcases eq_or_ne p mem with rfl | hne
    · rw [update_self] at hp
      cases hp
    · rw [update_of_ne hne] at hp
      exact hcareful hc p hne (tabledAt_iff.mpr hp)
  | free mem hs => exact h.free hs

theorem tableOk_run [PageSize] {s₀ : Resident} (hstart : s₀.Untabled)
    (hrun : Relation.ReflTransGen (TableStep careful) s₀ s) : TableOk careful s := by
  induction hrun with
  | refl => exact hstart.tableOk
  | tail _ hstep ih => exact hstep.tableOk ih

/-- The lists of the objects, the counts and the lookups agree with what the pages say, for every
hash; replacing is removing and then entering. -/
theorem pageTable_run [PageSize] {s₀ : Resident} (hstart : s₀.Untabled)
    (hrun : Relation.ReflTransGen (TableStep careful) s₀ s) :
    (∀ object mem, mem ∈ (s.objects object).memq ↔ ∃ offset, s.TabledAt mem object offset) ∧
    (∀ object, (s.objects object).memq.Nodup ∧
      (s.objects object).residentPageCount = short (s.objects object).memq.length) ∧
    (∀ object offset mem, s.vmPageLookup object offset = some mem → s.TabledAt mem object offset) ∧
    (∀ object offset, s.vmPageLookup object offset = none → ∀ mem, ¬s.TabledAt mem object offset) ∧
    (careful = true → ∀ object offset mem, s.TabledAt mem object offset →
      s.vmPageLookup object offset = some mem ∧
        ∀ mem', s.TabledAt mem' object offset → mem' = mem) ∧
    ∀ mem object offset, (s.pages mem).tabled = false → s.vmPageReplace mem object offset =
        (s.freeAt object offset).map (fun t => t.tableEnter mem object offset) ∧
      (s.vmPageReplace mem object offset).map tableView =
        ((s.freeAt object offset).bind fun t => t.vmPageInsert mem object offset).map tableView := by
  have hok := tableOk_run hstart hrun
  refine ⟨?_, ?_, ?_, ?_, ?_, ?_⟩
  · intro object mem
    rw [exists_congr fun offset => tabledAt_iff]
    exact hok.1.mem_memq object mem
  · exact fun object => ⟨hok.1.nodup_memq object, hok.1.count_eq object⟩
  · exact fun object offset mem h => tabledAt_iff.mpr (vmPageLookup_some hok.1 h)
  · exact fun object offset h mem hmem =>
      vmPageLookup_none hok.1 h mem (tabledAt_iff.mp hmem)
  · intro hc object offset mem hmem
    have hone : ∀ mem', s.TabledAt mem' object offset → mem' = mem := fun mem' hmem' =>
      hok.2 hc mem' mem _ (tabledAt_iff.mp hmem') (tabledAt_iff.mp hmem)
    refine ⟨?_, hone⟩
    cases hlookup : s.vmPageLookup object offset with
    | none => exact absurd (tabledAt_iff.mp hmem) (vmPageLookup_none hok.1 hlookup mem)
    | some p => rw [hone p (tabledAt_iff.mpr (vmPageLookup_some hok.1 hlookup))]
  · intro mem object offset huntabled
    have hmem : ¬(s.pages mem).tabled = true := by simp [huntabled]
    refine ⟨vmPageReplace_eq hok.1 hmem, ?_⟩
    rw [vmPageReplace_eq hok.1 hmem]
    cases hfree : s.freeAt object offset with
    | none => rfl
    | some t =>
      obtain ⟨-, hplace, -⟩ := hok.freeAt hfree (place_none hmem)
      have htabled : ¬(t.pages mem).tabled = true := fun hc =>
        some_ne_none _ ((if_pos hc).symm.trans hplace)
      change some _ = (t.vmPageInsert mem object offset).map tableView
      unfold vmPageInsert
      rw [if_neg htabled, map_some, noteAlloc_tableView]

/-- No page is anywhere yet. -/
def boot : Resident where
  pages := fun _ => vmPageTemplate
  npages := 0
  buckets := fun _ => []
  objects := fun _ => ⟨[], 0, 0, 0⟩
  queueFree := []
  queueFictitious := []
  queueActive := []
  queueInactive := []
  freeCount := 0
  fictitiousCount := 0
  activeCount := 0
  inactiveCount := 0
  wireCount := 0
  laundryCount := 0

omit [ResidentConfig] in
theorem boot_untabled : boot.Untabled :=
  ⟨fun _ => rfl, fun _ => rfl, fun _ => rfl, fun _ => rfl⟩

/-- Eight buckets. -/
@[reducible] def eightBuckets : ResidentConfig :=
  letI := pages4096
  ⟨maskedHash id 7, true, 15, 0⟩

omit [ResidentConfig] in
theorem pageTable_run_first : letI := pages4096; letI := eightBuckets
    ∃ s, boot.vmPageInsert 0 1 4096 = some s ∧ s.vmPageLookup 1 4096 = some 0 := by
  let _ := pages4096
  let _ := eightBuckets
  have hrun : Relation.ReflTransGen (TableStep true) boot _ :=
    .single (.insert 0 1 4096 (fun _ p hp => by cases hp.1) rfl)
  exact ⟨_, rfl, ((pageTable_run boot_untabled hrun).2.2.2.2.1 rfl 1 4096 0 (by decide)).1⟩

omit [ResidentConfig] in
/-- The insertion does not look whether a page is there. -/
theorem vmPageInsert_twice : letI := pages4096; letI := eightBuckets
    ∃ s, Relation.ReflTransGen (TableStep false) boot s ∧
      s.TabledAt 0 1 4096 ∧ s.TabledAt 1 1 4096 := by
  let _ := pages4096
  let _ := eightBuckets
  have hfirst : Relation.ReflTransGen (TableStep false) boot _ :=
    .single (.insert 0 1 4096 (fun hc => by cases hc) rfl)
  have hrun := hfirst.tail
    (TableStep.insert 1 1 4096 (fun hc => by cases hc) (if_neg (by decide +kernel)))
  exact ⟨_, hrun, by decide +kernel, by decide +kernel⟩

end Resident

end MachKernel.Vm
