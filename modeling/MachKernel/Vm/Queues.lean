import MachKernel.Vm.Tabled

/-! The page queues: which pages they hold, and what the counts count. -/

namespace MachKernel.Vm
open Function List Option

/-! ## Lists of flagged pages -/

/-- The list has just the pages below `n` of a kind, each once, and the count counts them. -/
structure Listed (q : List PageId) (count : ℤ) (n : ℕ) (pages : PageId → ResidentPage)
    (kind : ResidentPage → Prop) : Prop where
  mem : ∀ p, p ∈ q ↔ p < n ∧ kind (pages p)
  nodup : q.Nodup
  count_eq : count = q.length

namespace Listed
variable {q : List PageId} {count : ℤ} {n : ℕ} {pages : PageId → ResidentPage}
  {kind : ResidentPage → Prop} {p : PageId} {x : ResidentPage}

theorem same (h : Listed q count n pages kind) (hkind : kind x ↔ kind (pages p)) :
    Listed q count n (Function.update pages p x) kind := by
  refine ⟨fun r => ?_, h.nodup, h.count_eq⟩
  rw [h.mem]
  rcases eq_or_ne r p with rfl | hne
  · rw [update_self, hkind]
  · rw [update_of_ne hne]

theorem leave (h : Listed q count n pages kind) (hp : p < n) (hold : kind (pages p))
    (hnew : ¬kind x) : Listed (q.erase p) (count - 1) n (Function.update pages p x) kind := by
  have hin : p ∈ q := (h.mem p).mpr ⟨hp, hold⟩
  refine ⟨fun r => ?_, h.nodup.erase p, ?_⟩
  · rw [h.nodup.mem_erase_iff, h.mem]
    rcases eq_or_ne r p with rfl | hne
    · rw [update_self]
      exact iff_of_false (fun hc => hc.1 rfl) fun hc => hnew hc.2
    · rw [update_of_ne hne, and_iff_right hne]
  · have hpos := length_pos_of_mem hin
    rw [length_erase_of_mem hin, h.count_eq, Nat.cast_sub hpos]
    rfl

theorem enter {q' : List PageId} (h : Listed q count n pages kind) (hq : q'.Perm (p :: q))
    (hp : p < n) (hold : ¬kind (pages p)) (hnew : kind x) :
    Listed q' (count + 1) n (Function.update pages p x) kind := by
  have hnot : p ∉ q := fun hc => hold ((h.mem p).mp hc).2
  refine ⟨fun r => ?_, hq.nodup_iff.mpr (nodup_cons.mpr ⟨hnot, h.nodup⟩), ?_⟩
  · rw [hq.mem_iff, mem_cons, h.mem]
    rcases eq_or_ne r p with rfl | hne
    · rw [update_self]
      exact iff_of_true (.inl rfl) ⟨hp, hnew⟩
    · rw [update_of_ne hne, or_iff_right hne]
  · rw [hq.length_eq, length_cons, h.count_eq]
    rfl

theorem grow (h : Listed q count n pages kind) (hx : ¬kind x) :
    Listed q count (n + 1) (Function.update pages n x) kind := by
  refine ⟨fun r => ?_, h.nodup, h.count_eq⟩
  rw [h.mem]
  rcases eq_or_ne r n with rfl | hne
  · rw [update_self]
    exact iff_of_false (fun hc => hc.1.false) fun hc => hx hc.2
  · have hlt : r < n + 1 ↔ r < n :=
      ⟨fun hr => Nat.lt_of_le_of_ne (Nat.le_of_lt_succ hr) hne, Nat.lt_succ_of_lt⟩
    rw [update_of_ne hne, hlt]

end Listed

/-! ## Flags and counts -/

namespace ResidentPage

/-- A page of physical memory that the kernel may use. -/
def Real (x : ResidentPage) : Prop := x.fictitious = false ∧ x.isPrivate = false

instance (x : ResidentPage) : Decidable x.Real := inferInstanceAs (Decidable (_ ∧ _))

/-- The flags of a page fit together. -/
structure Proper (x : ResidentPage) : Prop where
  free : x.free = true → x.active = false ∧ x.inactive = false ∧ x.wireCount = 0 ∧ x.tabled = false
  active : x.active = true → x.inactive = false
  wired : x.wireCount ≠ 0 → x.active = false ∧ x.inactive = false
  narrow : x.wireCount < 2 ^ 16

/-- What the page adds to the count of wired pages. -/
def wired (x : ResidentPage) : ℤ := if x.Real ∧ x.wireCount ≠ 0 then 1 else 0

end ResidentPage

namespace Resident

/-- How many real pages are wired. -/
def wiredPages (s : Resident) : ℕ :=
  ((Finset.range s.npages).filter fun p => (s.pages p).Real ∧ (s.pages p).wireCount ≠ 0).card

/-- Each page is on the list that its flags say and on no other, the counts are the lengths of the
lists, and the count of wired pages is too high by the leak. -/
structure Accounted (leak : ℤ) (s : Resident) : Prop where
  free : Listed s.queueFree s.freeCount s.npages s.pages fun x => x.free = true ∧ x.Real
  fictitious : Listed s.queueFictitious s.fictitiousCount s.npages s.pages fun x =>
    x.free = true ∧ ¬x.Real
  active : Listed s.queueActive s.activeCount s.npages s.pages fun x => x.active = true
  inactive : Listed s.queueInactive s.inactiveCount s.npages s.pages fun x => x.inactive = true
  wired : s.wireCount = s.wiredPages + leak
  proper : ∀ p, p < s.npages → (s.pages p).Proper
  tabled : ∀ p, (s.pages p).tabled = true → p < s.npages

variable {k : ℤ} {s s' : Resident} {mem m : PageId}

theorem wiredPages_eq_sum (s : Resident) :
    (s.wiredPages : ℤ) = ∑ p ∈ Finset.range s.npages, (s.pages p).wired :=
  Finset.natCast_card_filter _ _

theorem sum_wired_update (s : Resident) (hp : m < s.npages) (x : ResidentPage) :
    ∑ p ∈ Finset.range s.npages, (Function.update s.pages m x p).wired =
      s.wiredPages - (s.pages m).wired + x.wired := by
  have hin : m ∈ Finset.range s.npages := Finset.mem_range.mpr hp
  have hrest : ∑ p ∈ (Finset.range s.npages).erase m, (Function.update s.pages m x p).wired =
      ∑ p ∈ (Finset.range s.npages).erase m, (s.pages p).wired :=
    Finset.sum_congr rfl fun p hp => by rw [update_of_ne (Finset.ne_of_mem_erase hp)]
  rw [wiredPages_eq_sum, ← Finset.add_sum_erase _ _ hin, ← Finset.add_sum_erase _ _ hin, hrest,
    update_self]
  ring

/-! ## What a change of one page does -/

/-- The kernel may use the page: it is on no free list. -/
def InUse (s : Resident) (m : PageId) : Prop := m < s.npages ∧ (s.pages m).free = false

theorem Accounted.table (h : Accounted k s) (buckets : ℕ → List PageId)
    (objects : ObjId → ObjectPages) (laundryCount : ℤ) :
    Accounted k { s with buckets := buckets, objects := objects, laundryCount := laundryCount } :=
  ⟨h.free, h.fictitious, h.active, h.inactive, h.wired, h.proper, h.tabled⟩

theorem Accounted.wireCount (h : Accounted k s) (d : ℤ) :
    Accounted (k + d) { s with wireCount := s.wireCount + d } :=
  ⟨h.free, h.fictitious, h.active, h.inactive, by
    change s.wireCount + d = s.wiredPages + (k + d)
    rw [h.wired, add_assoc], h.proper, h.tabled⟩

variable {j : ℤ} {x : ResidentPage}

/-- One page is another one now, and the lists and counts have followed. -/
theorem Accounted.update {t : Resident} (h : Accounted k s)
    (hp : m < s.npages) (hx : x.Proper) (hpages : t.pages = Function.update s.pages m x)
    (hn : t.npages = s.npages)
    (hwired : t.wireCount - j = s.wireCount - k - (s.pages m).wired + x.wired)
    (hfree : Listed t.queueFree t.freeCount s.npages (Function.update s.pages m x) fun y =>
      y.free = true ∧ y.Real)
    (hfictitious : Listed t.queueFictitious t.fictitiousCount s.npages (Function.update s.pages m x)
      fun y => y.free = true ∧ ¬y.Real)
    (hactive : Listed t.queueActive t.activeCount s.npages (Function.update s.pages m x) fun y =>
      y.active = true)
    (hinactive : Listed t.queueInactive t.inactiveCount s.npages (Function.update s.pages m x)
      fun y => y.inactive = true) : Accounted j t where
  free := by rwa [hn, hpages]
  fictitious := by rwa [hn, hpages]
  active := by rwa [hn, hpages]
  inactive := by rwa [hn, hpages]
  wired := by
    have hsum := sum_wired_update s hp x
    rw [← hpages, ← hn, ← wiredPages_eq_sum] at hsum
    have hwas := h.wired
    omega
  proper := by
    intro p hlt
    rw [hpages]
    rcases eq_or_ne p m with rfl | hne
    · rwa [update_self]
    · rw [update_of_ne hne]
      exact h.proper p (hn ▸ hlt)
  tabled := by
    intro p htabled
    rw [hn]
    rcases eq_or_ne p m with rfl | hne
    · exact hp
    · rw [hpages, update_of_ne hne] at htabled
      exact h.tabled p htabled

theorem Accounted.modifyPage (h : Accounted k s) (hp : m < s.npages)
    (f : ResidentPage → ResidentPage) (hproper : (f (s.pages m)).Proper)
    (hflags : (f (s.pages m)).free = (s.pages m).free ∧
      (f (s.pages m)).active = (s.pages m).active ∧ (f (s.pages m)).inactive = (s.pages m).inactive)
    (hreal : (s.pages m).free = true → ((f (s.pages m)).Real ↔ (s.pages m).Real))
    (hwired : j + (f (s.pages m)).wired = k + (s.pages m).wired) :
    Accounted j (s.modifyPage m f) := by
  obtain ⟨hfree, hactive, hinactive⟩ := hflags
  refine h.update hp hproper rfl rfl ?_ (h.free.same ?_) (h.fictitious.same ?_)
    (h.active.same ?_) (h.inactive.same ?_)
  · change s.wireCount - j = _
    omega
  · rw [hfree]
    exact and_congr_right hreal
  · rw [hfree]
    exact and_congr_right fun hc => not_congr (hreal hc)
  · rw [hactive]
  · rw [hinactive]

theorem Accounted.leaveActive (h : Accounted k s) (hp : m < s.npages) :
    Accounted k (s.leaveActive m) ∧ ((s.leaveActive m).pages m).active = false := by
  unfold Resident.leaveActive
  split
  case isFalse hactive => exact ⟨h, Bool.eq_false_iff.mpr hactive⟩
  case isTrue hactive =>
    have hx := h.proper m hp
    have hnew : ({ s.pages m with active := false } : ResidentPage).Proper :=
      { free := fun hc => ⟨rfl, (hx.free hc).2⟩
        active := fun hc => by cases hc
        wired := fun hc => ⟨rfl, (hx.wired hc).2⟩
        narrow := hx.narrow }
    refine ⟨h.update hp hnew rfl rfl ?_ (h.free.same Iff.rfl) (h.fictitious.same Iff.rfl)
      (h.active.leave hp hactive Bool.false_ne_true) (h.inactive.same Iff.rfl), ?_⟩
    · exact (sub_add_cancel _ _).symm
    · exact congrArg ResidentPage.active (update_self m _ s.pages)

theorem Accounted.leaveInactive (h : Accounted k s) (hp : m < s.npages) :
    Accounted k (s.leaveInactive m) ∧ ((s.leaveInactive m).pages m).inactive = false := by
  unfold Resident.leaveInactive
  split
  case isFalse hinactive => exact ⟨h, Bool.eq_false_iff.mpr hinactive⟩
  case isTrue hinactive =>
    have hx := h.proper m hp
    have hnew : ({ s.pages m with inactive := false } : ResidentPage).Proper :=
      { free := fun hc => ⟨(hx.free hc).1, rfl, (hx.free hc).2.2⟩
        active := fun _ => rfl
        wired := fun hc => ⟨(hx.wired hc).1, rfl⟩
        narrow := hx.narrow }
    refine ⟨h.update hp hnew rfl rfl ?_ (h.free.same Iff.rfl) (h.fictitious.same Iff.rfl)
      (h.active.same Iff.rfl) (h.inactive.leave hp hinactive Bool.false_ne_true), ?_⟩
    · exact (sub_add_cancel _ _).symm
    · exact congrArg ResidentPage.inactive (update_self m _ s.pages)

theorem leaveActive_pages (s : Resident) (m : PageId) :
    (s.leaveActive m).pages = Function.update s.pages m { s.pages m with active := false } := by
  unfold Resident.leaveActive
  split
  · rfl
  case isFalse hactive =>
    refine (update_eq_self_iff.mpr ?_).symm
    rw [← Bool.eq_false_iff.mpr hactive]

theorem leaveInactive_pages (s : Resident) (m : PageId) :
    (s.leaveInactive m).pages = Function.update s.pages m { s.pages m with inactive := false } := by
  unfold Resident.leaveInactive
  split
  · rfl
  case isFalse hinactive =>
    refine (update_eq_self_iff.mpr ?_).symm
    rw [← Bool.eq_false_iff.mpr hinactive]

theorem queuesRemove_pages (s : Resident) (m : PageId) : (s.queuesRemove m).pages =
    Function.update s.pages m { s.pages m with active := false, inactive := false } := by
  unfold queuesRemove
  rw [leaveInactive_pages, leaveActive_pages, update_self, update_idem]

theorem queuesRemove_npages (s : Resident) (m : PageId) : (s.queuesRemove m).npages = s.npages := by
  have hactive : (s.leaveActive m).npages = s.npages := by
    unfold Resident.leaveActive
    split <;> rfl
  unfold queuesRemove Resident.leaveInactive
  split
  · exact hactive
  · exact hactive

theorem Accounted.queuesRemove (h : Accounted k s) (hp : m < s.npages) :
    Accounted k (s.queuesRemove m) := by
  have hactive := (h.leaveActive hp).1
  have hn : (s.leaveActive m).npages = s.npages := by
    unfold Resident.leaveActive
    split <;> rfl
  exact (hactive.leaveInactive (hn.symm ▸ hp)).1

/-- A page that is in use, on no queue, and not wired. -/
structure InHand (s : Resident) (m : PageId) : Prop where
  inUse : s.InUse m
  active : (s.pages m).active = false
  inactive : (s.pages m).inactive = false
  wireCount : (s.pages m).wireCount = 0

theorem Accounted.enterActive (h : Accounted k s) (hm : s.InHand m) :
    Accounted k (s.enterActive m) := by
  have hnew : ({ s.pages m with active := true } : ResidentPage).Proper :=
    { free := fun hc => by cases hm.inUse.2.symm.trans hc
      active := fun _ => hm.inactive
      wired := fun hc => absurd hm.wireCount hc
      narrow := (h.proper m hm.inUse.1).narrow }
  refine h.update hm.inUse.1 hnew rfl rfl (sub_add_cancel _ _).symm (h.free.same Iff.rfl)
    (h.fictitious.same Iff.rfl) (h.active.enter ?_ hm.inUse.1 ?_ rfl) (h.inactive.same Iff.rfl)
  · exact perm_append_singleton m s.queueActive
  · rw [hm.active]
    exact Bool.false_ne_true

theorem Accounted.enterInactive (h : Accounted k s) (hm : s.InHand m) :
    Accounted k (s.enterInactive m) := by
  have hnew : ({ s.pages m with inactive := true } : ResidentPage).Proper :=
    { free := fun hc => by cases hm.inUse.2.symm.trans hc
      active := fun hc => by cases hm.active.symm.trans hc
      wired := fun hc => absurd hm.wireCount hc
      narrow := (h.proper m hm.inUse.1).narrow }
  refine h.update hm.inUse.1 hnew rfl rfl (sub_add_cancel _ _).symm (h.free.same Iff.rfl)
    (h.fictitious.same Iff.rfl) (h.active.same Iff.rfl) (h.inactive.enter ?_ hm.inUse.1 ?_ rfl)
  · exact perm_append_singleton m s.queueInactive
  · rw [hm.inactive]
    exact Bool.false_ne_true

/-! ## Wiring and paging -/

theorem Accounted.setWireCount (h : Accounted k s) (hm : s.InUse m)
    (hoff : (s.pages m).active = false ∧ (s.pages m).inactive = false) (g : ℕ → ℕ)
    (hlt : g (s.pages m).wireCount < 2 ^ 16)
    (hj : j + (if (s.pages m).Real ∧ g (s.pages m).wireCount ≠ 0 then 1 else 0) =
      k + if (s.pages m).Real ∧ (s.pages m).wireCount ≠ 0 then 1 else 0) :
    Accounted j (s.modifyPage m fun p => { p with wireCount := g p.wireCount }) := by
  refine h.modifyPage hm.1 _ ⟨fun hc => ?_, fun _ => hoff.2, fun _ => hoff, hlt⟩ ⟨rfl, rfl, rfl⟩
    (fun _ => Iff.rfl) hj
  cases hm.2.symm.trans hc

theorem InUse.queuesRemove (hm : s.InUse m) : (s.queuesRemove m).InUse m := by
  refine ⟨?_, ?_⟩
  · rw [queuesRemove_npages]
    exact hm.1
  · rw [queuesRemove_pages, update_self]
    exact hm.2

theorem Accounted.vmPageWire (h : Accounted k s) (hm : s.InUse m)
    (hnarrow : (s.pages m).wireCount + 1 < 2 ^ 16) : Accounted k (s.vmPageWire m) := by
  have hnext : ((s.pages m).wireCount + 1) % 2 ^ 16 ≠ 0 := by
    rw [Nat.mod_eq_of_lt hnarrow]
    omega
  have hlt : ∀ w, (w + 1) % 2 ^ 16 < 2 ^ 16 := fun w => Nat.mod_lt _ (by norm_num)
  unfold Resident.vmPageWire
  dsimp only
  split
  case isFalse hwired =>
    refine h.setWireCount hm ((h.proper m hm.1).wired hwired) (fun w => (w + 1) % 2 ^ 16) (hlt _) ?_
    by_cases hreal : (s.pages m).Real
    · rw [if_pos ⟨hreal, hnext⟩, if_pos ⟨hreal, hwired⟩]
    · rw [if_neg fun hc => hreal hc.1, if_neg fun hc => hreal hc.1]
  case isTrue hwired =>
    have ht := h.queuesRemove hm.1
    have huse := hm.queuesRemove
    have hpage : (s.queuesRemove m).pages m =
        { s.pages m with active := false, inactive := false } := by
      rw [queuesRemove_pages, update_self]
    set t := s.queuesRemove m
    have hoff : (t.pages m).active = false ∧ (t.pages m).inactive = false := by
      rw [hpage]
      exact ⟨rfl, rfl⟩
    have hzero : (t.pages m).wireCount = 0 := by rwa [hpage]
    have hone : ((t.pages m).wireCount + 1) % 2 ^ 16 ≠ 0 := by rwa [hpage]
    split
    case isTrue hreal =>
      refine (ht.wireCount 1).setWireCount huse hoff (fun w => (w + 1) % 2 ^ 16) (hlt _) ?_
      rw [if_pos ⟨hreal.symm, hone⟩, if_neg fun hc => hc.2 hzero, add_zero]
    case isFalse hreal =>
      refine ht.setWireCount huse hoff (fun w => (w + 1) % 2 ^ 16) (hlt _) ?_
      rw [if_neg fun hc => hreal hc.1.symm, if_neg fun hc => hc.2 hzero]

theorem Accounted.vmPageUnwire (h : Accounted k s) (hm : s.InUse m)
    (hwired : (s.pages m).wireCount ≠ 0) : Accounted k (s.vmPageUnwire m) := by
  have hoff := (h.proper m hm.1).wired hwired
  have hleft : ∀ j : ℤ, j + (if (s.pages m).Real ∧
        ((s.pages m).wireCount + (2 ^ 16 - 1)) % 2 ^ 16 ≠ 0 then 1 else 0) =
        k + (if (s.pages m).Real ∧ (s.pages m).wireCount ≠ 0 then 1 else 0) →
      Accounted j (s.modifyPage m fun p =>
        { p with wireCount := (p.wireCount + (2 ^ 16 - 1)) % 2 ^ 16 }) := fun j hj =>
    h.setWireCount hm hoff (fun w => (w + (2 ^ 16 - 1)) % 2 ^ 16) (Nat.mod_lt _ (by norm_num)) hj
  unfold Resident.vmPageUnwire
  set t := s.modifyPage m fun p =>
    { p with wireCount := (p.wireCount + (2 ^ 16 - 1)) % 2 ^ 16 } with ht
  have hpage : t.pages m =
      { s.pages m with wireCount := ((s.pages m).wireCount + (2 ^ 16 - 1)) % 2 ^ 16 } := by
    rw [ht]
    simp only [Resident.modifyPage, update_self]
  dsimp only
  split
  case isFalse hstill =>
    rw [hpage] at hstill
    refine hleft k ?_
    by_cases hreal : (s.pages m).Real
    · rw [if_pos ⟨hreal, hstill⟩, if_pos ⟨hreal, hwired⟩]
    · rw [if_neg fun hc => hreal hc.1, if_neg fun hc => hreal hc.1]
  case isTrue hlast =>
    have hhand : t.InHand m :=
      { inUse := ⟨hm.1, by rw [hpage]; exact hm.2⟩
        active := by rw [hpage]; exact hoff.1
        inactive := by rw [hpage]; exact hoff.2
        wireCount := hlast }
    have hkind : (t.enterActive m).pages m = { t.pages m with active := true } :=
      update_self _ _ _
    rw [hpage] at hlast
    rw [hkind, hpage]
    split
    case isTrue hreal =>
      have hentered := ((hleft (k + 1) ?_).enterActive hhand).wireCount (-1)
      · rwa [add_neg_cancel_right] at hentered
      · rw [if_neg fun hc => hc.2 hlast, if_pos ⟨hreal.symm, hwired⟩, add_zero]
    case isFalse hreal =>
      refine (hleft k ?_).enterActive hhand
      rw [if_neg fun hc => hc.2 hlast, if_neg fun hc => hreal hc.1.symm]

theorem Accounted.vmPageDeactivate (h : Accounted k s) (hm : s.InUse m) :
    Accounted k (s.vmPageDeactivate m) := by
  have henter : ∀ t : Resident, Accounted k t → t.InUse m → (t.pages m).active = false →
      Accounted k (if (t.pages m).wireCount = 0 ∧ (t.pages m).inactive = false
        then t.enterInactive m else t) := by
    intro t ht huse hactive
    split
    case isTrue hc => exact ht.enterInactive ⟨huse, hactive, hc.2, hc.1⟩
    case isFalse => exact ht
  unfold Resident.vmPageDeactivate
  dsimp only
  split
  case isFalse hc => exact henter s h hm (Bool.eq_false_iff.mpr fun hactive => hc (.inl hactive))
  case isTrue =>
    set t := s.modifyPage m fun p => { p with reference := false }
    have hx := h.proper m hm.1
    have ht : Accounted k t := h.modifyPage hm.1 _
      ⟨hx.free, hx.active, hx.wired, hx.narrow⟩ ⟨rfl, rfl, rfl⟩ (fun _ => Iff.rfl) rfl
    have hpage : (t.queuesRemove m).pages m =
        { s.pages m with reference := false, active := false, inactive := false } := by
      rw [queuesRemove_pages, update_self, modifyPage_pages_self]
    refine henter _ (ht.queuesRemove hm.1) ⟨?_, ?_⟩ ?_
    · rw [queuesRemove_npages]
      exact hm.1
    · rw [hpage]
      exact hm.2
    · rw [hpage]

theorem Accounted.vmPageActivate (h : Accounted k s) (hm : s.InUse m)
    (hs : s.vmPageActivate m = some s') : Accounted k s' := by
  obtain ⟨ht, hinactive⟩ := h.leaveInactive hm.1
  have hn : (s.leaveInactive m).npages = s.npages := by
    unfold Resident.leaveInactive
    split <;> rfl
  have hfree : ((s.leaveInactive m).pages m).free = false := by
    rw [leaveInactive_pages, update_self]
    exact hm.2
  unfold Resident.vmPageActivate at hs
  dsimp only at hs
  split at hs
  case isFalse =>
    cases hs
    exact ht
  case isTrue hwired =>
    split at hs
    · cases hs
    case isFalse hactive =>
      cases hs
      exact ht.enterActive
        ⟨⟨hn.symm ▸ hm.1, hfree⟩, Bool.eq_false_iff.mpr hactive, hinactive, hwired⟩

/-! ## The free lists -/

/-- A page on no queue, that may be released. -/
structure Idle (x : ResidentPage) : Prop where
  free : x.free = false
  active : x.active = false
  inactive : x.inactive = false
  wireCount : x.wireCount = 0
  tabled : x.tabled = false

theorem Idle.proper (hx : Idle x) : x.Proper :=
  { free := fun hc => by cases hx.free.symm.trans hc
    active := fun _ => hx.inactive
    wired := fun hc => absurd hx.wireCount hc
    narrow := by rw [hx.wireCount]; norm_num }

theorem Idle.proper_free (hx : Idle x) (f : Bool) : ({ x with free := f } : ResidentPage).Proper :=
  { free := fun _ => ⟨hx.active, hx.inactive, hx.wireCount, hx.tabled⟩
    active := fun _ => hx.inactive
    wired := fun hc => absurd hx.wireCount hc
    narrow := by
      change x.wireCount < _
      rw [hx.wireCount]
      norm_num }

theorem Accounted.vmPageRelease (h : Accounted k s) (hp : m < s.npages) (hm : Idle (s.pages m))
    (hreal : (s.pages m).Real) (hs : s.vmPageRelease m = some s') : Accounted k s' := by
  unfold Resident.vmPageRelease at hs
  rw [hm.free, if_neg Bool.false_ne_true] at hs
  cases hs
  have hfree : ¬(s.pages m).free = true := by rw [hm.free]; exact Bool.false_ne_true
  refine h.update hp (hm.proper_free true) rfl rfl (sub_add_cancel _ _).symm
    (h.free.enter (List.Perm.refl _) hp (fun hc => hfree hc.1) ⟨rfl, hreal⟩)
    (h.fictitious.same ?_) (h.active.same Iff.rfl) (h.inactive.same Iff.rfl)
  exact iff_of_false (fun hc => hc.2 hreal) fun hc => hfree hc.1

theorem Accounted.vmPageReleaseFictitious (h : Accounted k s) (hp : m < s.npages)
    (hm : Idle (s.pages m)) (hreal : ¬(s.pages m).Real)
    (hs : s.vmPageReleaseFictitious m = some s') : Accounted k s' := by
  unfold Resident.vmPageReleaseFictitious at hs
  rw [hm.free, if_neg Bool.false_ne_true] at hs
  cases hs
  have hfree : ¬(s.pages m).free = true := by rw [hm.free]; exact Bool.false_ne_true
  refine h.update hp (hm.proper_free true) rfl rfl (sub_add_cancel _ _).symm
    (h.free.same ?_) (h.fictitious.enter (List.Perm.refl _) hp (fun hc => hfree hc.1) ⟨rfl, hreal⟩)
    (h.active.same Iff.rfl) (h.inactive.same Iff.rfl)
  exact iff_of_false (fun hc => hreal hc.2) fun hc => hfree hc.1

theorem Accounted.idle_of_free (h : Accounted k s) (hp : m < s.npages)
    (hfree : (s.pages m).free = true) : Idle { s.pages m with free := false } := by
  obtain ⟨hactive, hinactive, hwired, htabled⟩ := (h.proper m hp).free hfree
  exact ⟨rfl, hactive, hinactive, hwired, htabled⟩

/-- A page structure more. -/
def withPage (s : Resident) (x : ResidentPage) : Resident :=
  { s with
    pages := Function.update s.pages s.npages x
    npages := s.npages + 1 }

theorem withPage_pages_self (s : Resident) (x : ResidentPage) :
    (s.withPage x).pages s.npages = x := update_self _ _ _

section
variable [ResidentConfig]

variable {r : Option PageId} {vmPrivilege : Bool} {object : ObjId} {offset : ℕ}

theorem Accounted.vmPageGrab (h : Accounted k s) (hs : s.vmPageGrab vmPrivilege = some (r, s')) :
    Accounted k s' ∧ (r = none ∧ s' = s ∨
      ∃ p, r = some p ∧ p < s.npages ∧ (s.pages p).free = true ∧ (s.pages p).Real ∧
        s'.npages = s.npages ∧
        s'.pages = Function.update s.pages p { s.pages p with free := false }) := by
  unfold Resident.vmPageGrab at hs
  split at hs
  · cases hs
    exact ⟨h, .inl ⟨rfl, rfl⟩⟩
  · split at hs
    · cases hs
    case h_2 p rest hq =>
      cases hs
      obtain ⟨hp, hfree, hreal⟩ := (h.free.mem p).mp (hq ▸ mem_cons_self)
      refine ⟨?_, .inr ⟨p, rfl, hp, hfree, hreal, rfl, rfl⟩⟩
      have hx := (h.idle_of_free hp hfree).proper
      have hleft := h.free.leave (x := { s.pages p with free := false }) hp ⟨hfree, hreal⟩
        fun hc => Bool.false_ne_true hc.1
      rw [hq, erase_cons_head] at hleft
      refine h.update hp hx rfl rfl (sub_add_cancel _ _).symm hleft (h.fictitious.same ?_)
        (h.active.same Iff.rfl) (h.inactive.same Iff.rfl)
      exact iff_of_false (fun hc => Bool.false_ne_true hc.1) fun hc => hc.2 hreal

section
omit [ResidentConfig]

theorem Accounted.vmPageGrabFictitious (h : Accounted k s) :
    Accounted k s.vmPageGrabFictitious.2 := by
  unfold Resident.vmPageGrabFictitious
  split
  · exact h
  case h_2 p rest hq =>
    obtain ⟨hp, hfree, hreal⟩ := (h.fictitious.mem p).mp (hq ▸ mem_cons_self)
    have hx := (h.idle_of_free hp hfree).proper
    have hleft := h.fictitious.leave (x := { s.pages p with free := false }) hp ⟨hfree, hreal⟩
      fun hc => Bool.false_ne_true hc.1
    rw [hq, erase_cons_head] at hleft
    refine h.update hp hx rfl rfl (sub_add_cancel _ _).symm (h.free.same ?_) hleft
      (h.active.same Iff.rfl) (h.inactive.same Iff.rfl)
    exact iff_of_false (fun hc => Bool.false_ne_true hc.1) fun hc => hreal hc.2

theorem Accounted.grow (h : Accounted k s) {x : ResidentPage} (hx : Idle x) :
    Accounted k (s.withPage x) where
  free := h.free.grow fun hc => by cases hx.free.symm.trans hc.1
  fictitious := h.fictitious.grow fun hc => by cases hx.free.symm.trans hc.1
  active := h.active.grow fun hc => by cases hx.active.symm.trans hc
  inactive := h.inactive.grow fun hc => by cases hx.inactive.symm.trans hc
  wired := by
    have hrest : ∀ p ∈ Finset.range s.npages,
        (Function.update s.pages s.npages x p).wired = (s.pages p).wired := fun p hp => by
      rw [update_of_ne (Finset.mem_range.mp hp).ne]
    have hzero : x.wired = 0 := if_neg fun hc => hc.2 hx.wireCount
    have hsum : ((s.withPage x).wiredPages : ℤ) = s.wiredPages := by
      rw [wiredPages_eq_sum, wiredPages_eq_sum]
      change ∑ p ∈ Finset.range (s.npages + 1), (Function.update s.pages s.npages x p).wired = _
      rw [Finset.sum_range_succ, Finset.sum_congr rfl hrest, update_self, hzero, add_zero]
    rw [hsum]
    exact h.wired
  proper := by
    intro p hp
    change (Function.update s.pages s.npages x p).Proper
    rcases eq_or_ne p s.npages with rfl | hne
    · rw [update_self]
      exact hx.proper
    · rw [update_of_ne hne]
      exact h.proper p (Nat.lt_of_le_of_ne (Nat.le_of_lt_succ hp) hne)
  tabled := by
    intro p hp
    change (Function.update s.pages s.npages x p).tabled = true at hp
    rcases eq_or_ne p s.npages with rfl | hne
    · exact Nat.lt_succ_self _
    · rw [update_of_ne hne] at hp
      exact Nat.lt_succ_of_lt (h.tabled p hp)

theorem Accounted.vmPageCreate (h : Accounted k s) {paddr : ℕ}
    (hs : s.vmPageCreate paddr = some s') : Accounted k s' := by
  have hidle : Idle { vmPageTemplate with physAddr := paddr } := ⟨rfl, rfl, rfl, rfl, rfl⟩
  refine (h.grow hidle).vmPageRelease (Nat.lt_succ_self _) ?_ ?_ hs
  · rwa [withPage_pages_self]
  · rw [withPage_pages_self]
    exact ⟨rfl, rfl⟩

end

theorem Accounted.vmPageMoreFictitious (h : Accounted k s)
    (hs : s.vmPageMoreFictitious = some s') : Accounted k s' := by
  set x : ResidentPage := { vmPageTemplate with
    physAddr := ResidentConfig.fictitiousAddr
    fictitious := true }
  have hidle : Idle x := ⟨rfl, rfl, rfl, rfl, rfl⟩
  have hstate : ((({ s with npages := s.npages + 1 } : Resident).vmPageInit s.npages
      ResidentConfig.fictitiousAddr).modifyPage s.npages fun p => { p with fictitious := true }) =
      s.withPage x := by
    unfold vmPageInit
    rw [modifyPage_modifyPage]
    rfl
  unfold Resident.vmPageMoreFictitious at hs
  dsimp only at hs
  rw [hstate] at hs
  refine (h.grow hidle).vmPageReleaseFictitious (Nat.lt_succ_self _) ?_ ?_ hs
  · rwa [withPage_pages_self]
  · rw [withPage_pages_self]
    exact fun hc => by cases hc.1

/-! ## The table -/

theorem Accounted.vmPageRemove (h : Accounted k s) (hp : m < s.npages) :
    Accounted k (s.vmPageRemove m) := by
  have hx := h.proper m hp
  have hnew : ({ s.pages m with tabled := false } : ResidentPage).Proper :=
    { free := fun hc => ⟨(hx.free hc).1, (hx.free hc).2.1, (hx.free hc).2.2.1, rfl⟩
      active := hx.active
      wired := hx.wired
      narrow := hx.narrow }
  exact (h.modifyPage hp (fun p => { p with tabled := false }) hnew ⟨rfl, rfl, rfl⟩
    (fun _ => Iff.rfl) rfl).table _ _ s.laundryCount

theorem Accounted.tableEnter (h : Accounted k s) (hm : s.InUse m) (object : ObjId) (offset : ℕ) :
    Accounted k (s.tableEnter m object offset) := by
  have hx := h.proper m hm.1
  have hnew : ({ s.pages m with object := some object, offset := offset, tabled := true } :
      ResidentPage).Proper :=
    { free := fun hc => by cases hm.2.symm.trans hc
      active := hx.active
      wired := hx.wired
      narrow := hx.narrow }
  exact (h.modifyPage hm.1 (fun p => { p with object := some object, offset := offset, tabled := true })
    hnew ⟨rfl, rfl, rfl⟩ (fun _ => Iff.rfl) rfl).table _ _ s.laundryCount

theorem Accounted.inUse_of_lookup (h : Accounted k s) (hok : s.tableView.Ok)
    (hlookup : s.vmPageLookup object offset = some m) : s.InUse m := by
  have hplace := vmPageLookup_some hok hlookup
  have htabled : (s.pages m).tabled = true := by
    by_contra hc
    exact some_ne_none _ (hplace.symm.trans (place_none hc))
  have hp := h.tabled m htabled
  refine ⟨hp, Bool.eq_false_iff.mpr fun hfree => ?_⟩
  cases htabled.symm.trans ((h.proper m hp).free hfree).2.2.2

theorem Accounted.noteAlloc [PageSize] (h : Accounted k s) (hok : s.tableView.Ok) (object : ObjId)
    (offset : ℕ) : Accounted k (s.noteAlloc object offset) := by
  unfold Resident.noteAlloc
  dsimp only
  refine Accounted.table ?_ _ _ _
  split
  · split
    case h_1 lastMem hlookup =>
      split
      · exact h
      · exact h.vmPageDeactivate (h.inUse_of_lookup hok hlookup)
    case h_2 => exact h
  · exact h

theorem Accounted.vmPageInsert [PageSize] (h : Accounted k s) (hok : TableOk false s)
    (hm : s.InUse m) (hs : s.vmPageInsert m object offset = some s') : Accounted k s' := by
  unfold Resident.vmPageInsert at hs
  split at hs
  · cases hs
  case isFalse htabled =>
    cases hs
    have henter : TableOk false (s.tableEnter m object offset) :=
      hok.enter (place_none htabled) fun hc => by cases hc
    exact (h.tableEnter hm object offset).noteAlloc henter.1 object offset

/-! ## Freeing -/

section
omit [ResidentConfig]

theorem Idle.wired {x : ResidentPage} (hx : Idle x) : x.wired = 0 :=
  if_neg fun hc => hc.2 hx.wireCount

theorem Accounted.modifyIdle (h : Accounted k s) (hp : m < s.npages) (hm : Idle (s.pages m))
    (f : ResidentPage → ResidentPage) (hf : Idle (f (s.pages m))) :
    Accounted k (s.modifyPage m f) ∧ Idle ((s.modifyPage m f).pages m) := by
  refine ⟨h.modifyPage hp f hf.proper ⟨?_, ?_, ?_⟩ (fun hc => by cases hm.free.symm.trans hc) ?_, ?_⟩
  · rw [hf.free, hm.free]
  · rw [hf.active, hm.active]
  · rw [hf.inactive, hm.inactive]
  · rw [hf.wired, hm.wired]
  · rwa [modifyPage_pages_self]

theorem Accounted.freeWiring (h : Accounted k s) (hm : s.InUse m)
    (htabled : (s.pages m).tabled = false) : Accounted k ((s.queuesRemove m).freeWiring m) ∧
      ((s.queuesRemove m).freeWiring m).npages = s.npages ∧
      Idle (((s.queuesRemove m).freeWiring m).pages m) := by
  have hn := queuesRemove_npages s m
  have ht := h.queuesRemove hm.1
  have huse := hm.queuesRemove
  have hpage : (s.queuesRemove m).pages m =
      { s.pages m with active := false, inactive := false } := by
    rw [queuesRemove_pages, update_self]
  set t := s.queuesRemove m
  have hoff : (t.pages m).active = false ∧ (t.pages m).inactive = false := by
    rw [hpage]
    exact ⟨rfl, rfl⟩
  have hout : (t.pages m).tabled = false := by rwa [hpage]
  have hzero : (0 : ℕ) < 2 ^ 16 := by norm_num
  unfold Resident.freeWiring
  split
  case isFalse hwired =>
    exact ⟨ht, hn, huse.2, hoff.1, hoff.2, not_not.mp hwired, hout⟩
  case isTrue hwired =>
    have hidle : Idle { t.pages m with wireCount := 0 } := ⟨huse.2, hoff.1, hoff.2, rfl, hout⟩
    dsimp only
    split
    case isTrue hreal =>
      refine ⟨?_, hn, ?_⟩
      · refine (ht.wireCount (-1)).setWireCount huse hoff (fun _ => 0) hzero ?_
        rw [if_neg fun hc => hc.2 rfl, if_pos ⟨hreal.symm, hwired⟩]
        ring
      · rwa [modifyPage_pages_self]
    case isFalse hreal =>
      refine ⟨?_, hn, ?_⟩
      · refine ht.setWireCount huse hoff (fun _ => 0) hzero ?_
        rw [if_neg fun hc => hc.2 rfl, if_neg fun hc => hreal hc.1.symm]
      · rwa [modifyPage_pages_self]

theorem Accounted.freeLaundry (h : Accounted k s) (hp : m < s.npages) (hm : Idle (s.pages m)) :
    Accounted k (s.freeLaundry m) ∧ (s.freeLaundry m).npages = s.npages ∧
      Idle ((s.freeLaundry m).pages m) := by
  unfold Resident.freeLaundry
  split
  · obtain ⟨hacc, hidle⟩ := h.modifyIdle hp hm (fun p => { p with laundry := false })
      ⟨hm.free, hm.active, hm.inactive, hm.wireCount, hm.tabled⟩
    exact ⟨hacc.table _ _ _, rfl, hidle⟩
  · exact ⟨h, rfl, hm⟩

theorem Accounted.freeWakeup (h : Accounted k s) (hp : m < s.npages) (hm : Idle (s.pages m)) :
    Accounted k (s.freeWakeup m) ∧ (s.freeWakeup m).npages = s.npages ∧
      Idle ((s.freeWakeup m).pages m) := by
  obtain ⟨hacc, hidle⟩ := h.modifyIdle hp hm (fun p => { p with busy := false, wanted := false })
    ⟨hm.free, hm.active, hm.inactive, hm.wireCount, hm.tabled⟩
  unfold Resident.freeWakeup
  dsimp only
  split
  · exact ⟨hacc.table _ _ _, rfl, hidle⟩
  · exact ⟨hacc, rfl, hidle⟩

end

theorem Accounted.freeStructure (h : Accounted k s) (hp : m < s.npages) (hm : Idle (s.pages m))
    (hs : s.freeStructure m = some s') : Accounted k s' := by
  unfold Resident.freeStructure at hs
  split at hs
  · dsimp only at hs
    unfold vmPageInit at hs
    rw [modifyPage_modifyPage] at hs
    obtain ⟨hacc, hidle⟩ := h.modifyIdle hp hm (fun _ =>
      { vmPageTemplate with physAddr := ResidentConfig.fictitiousAddr, fictitious := true })
      ⟨rfl, rfl, rfl, rfl, rfl⟩
    refine hacc.vmPageReleaseFictitious hp hidle ?_ hs
    rw [modifyPage_pages_self]
    exact fun hc => by cases hc.1
  · obtain ⟨hacc, hidle⟩ := h.modifyIdle hp hm (fun _ =>
      { vmPageTemplate with physAddr := (s.pages m).physAddr }) ⟨rfl, rfl, rfl, rfl, rfl⟩
    refine hacc.vmPageRelease hp hidle ?_ hs
    rw [modifyPage_pages_self]
    exact ⟨rfl, rfl⟩

theorem Accounted.freeUntabled (h : Accounted k s) (hm : s.InUse m)
    (htabled : (s.pages m).tabled = false) (hs : s.freeUntabled m = some s') : Accounted k s' := by
  obtain ⟨h1, hn1, hidle1⟩ := h.freeWiring hm htabled
  have hp1 := hn1.symm ▸ hm.1
  obtain ⟨h2, hn2, hidle2⟩ := h1.freeLaundry hp1 hidle1
  have hp2 := hn2.symm ▸ hp1
  obtain ⟨h3, hn3, hidle3⟩ := h2.freeWakeup hp2 hidle2
  exact h3.freeStructure (hn3.symm ▸ hp2) hidle3 hs

theorem Accounted.vmPageFree (h : Accounted k s) (hp : m < s.npages)
    (hs : s.vmPageFree m = some s') : Accounted k s' := by
  unfold Resident.vmPageFree at hs
  split at hs
  · cases hs
  case isFalse hfree =>
    have huse : s.InUse m := ⟨hp, Bool.eq_false_iff.mpr hfree⟩
    split at hs
    case isTrue =>
      have hremove := h.vmPageRemove hp
      refine hremove.freeUntabled ⟨hp, ?_⟩ ?_ hs
      · rw [vmPageRemove_pages_self]
        exact huse.2
      · rw [vmPageRemove_pages_self]
    case isFalse htabled => exact h.freeUntabled huse (Bool.eq_false_iff.mpr htabled) hs

theorem Accounted.freeAt (h : Accounted k s) (hok : TableOk false s)
    (hs : s.freeAt object offset = some s') : Accounted k s' := by
  unfold Resident.freeAt at hs
  split at hs
  · cases hs
    exact h
  case h_2 hlookup => exact h.vmPageFree (h.inUse_of_lookup hok.1 hlookup).1 hs

theorem freeUntabled_npages (hs : s.freeUntabled m = some s') : s'.npages = s.npages := by
  have hwiring : ∀ t : Resident, (t.freeWiring m).npages = t.npages := by
    intro t
    unfold Resident.freeWiring
    split
    · dsimp only
      split <;> rfl
    · rfl
  have hlaundry : ∀ t : Resident, (t.freeLaundry m).npages = t.npages := by
    intro t
    unfold Resident.freeLaundry
    split <;> rfl
  have hwakeup : ∀ t : Resident, (t.freeWakeup m).npages = t.npages := by
    intro t
    unfold Resident.freeWakeup
    dsimp only
    split <;> rfl
  have hbefore : ((((s.queuesRemove m).freeWiring m).freeLaundry m).freeWakeup m).npages =
      s.npages := by
    rw [hwakeup, hlaundry, hwiring, queuesRemove_npages]
  unfold Resident.freeUntabled Resident.freeStructure at hs
  rw [← hbefore]
  split at hs
  · unfold Resident.vmPageReleaseFictitious at hs
    dsimp only at hs
    split at hs <;> cases hs
    rfl
  · unfold Resident.vmPageRelease at hs
    split at hs <;> cases hs
    rfl

omit [ResidentConfig] in
theorem modifyPage_const {x : ResidentPage} (hx : s.pages m = x) :
    s.modifyPage m (fun _ => x) = s := by
  subst hx
  unfold Resident.modifyPage
  rw [update_eq_self]

theorem freeAt_page (hok : TableOk false s)
    (hm : ¬(s.pages m).tabled = true) (hs : s.freeAt object offset = some s') :
    s'.pages m = s.pages m ∧ s'.npages = s.npages := by
  unfold Resident.freeAt at hs
  split at hs
  · cases hs
    exact ⟨rfl, rfl⟩
  case h_2 p hlookup =>
    have hplace := vmPageLookup_some hok.1 hlookup
    have hne : m ≠ p := by
      rintro rfl
      exact some_ne_none _ (hplace.symm.trans (place_none hm))
    have htabled : (s.pages p).tabled = true := by
      by_contra hc
      exact some_ne_none _ (hplace.symm.trans (place_none hc))
    unfold Resident.vmPageFree at hs
    rw [if_pos htabled] at hs
    split at hs
    · cases hs
    · have hn : s'.npages = (s.vmPageRemove p).npages := freeUntabled_npages hs
      refine ⟨?_, hn⟩
      -- The freeing commutes with recording in the page what it holds already.
      have hsame : (s.vmPageRemove p).modifyPage m (fun _ => s.pages m) = s.vmPageRemove p := by
        refine modifyPage_const ?_
        change Function.update s.pages p _ m = _
        rw [update_of_ne hne]
      have hcomm := freeUntabled_modifyPage hne (s.vmPageRemove p) fun _ => s.pages m
      rw [hsame, hs, map_some, Option.some_inj] at hcomm
      rw [hcomm]
      exact update_self _ _ _

theorem Accounted.vmPageReplace (h : Accounted k s) (hok : TableOk false s) (hm : s.InUse m)
    (hs : s.vmPageReplace m object offset = some s') : Accounted k s' := by
  by_cases htabled : (s.pages m).tabled = true
  · cases (if_pos htabled).symm.trans hs
  · rw [vmPageReplace_eq hok.1 htabled] at hs
    obtain ⟨t, ht, rfl⟩ := map_eq_some_iff.mp hs
    obtain ⟨hpage, hn⟩ := freeAt_page hok htabled ht
    exact (h.freeAt hok ht).tableEnter ⟨hn.symm ▸ hm.1, hpage.symm ▸ hm.2⟩ object offset

theorem Accounted.vmPageRename [PageSize] (h : Accounted k s) (hok : TableOk false s)
    (hm : s.InUse m) (htabled : (s.pages m).tabled = true)
    (hs : s.vmPageRename m object offset = some s') : Accounted k s' := by
  refine (h.vmPageRemove hm.1).vmPageInsert (hok.remove htabled) ⟨hm.1, ?_⟩ hs
  rw [vmPageRemove_pages_self]
  exact hm.2

/-! ## Pages that change their kind -/

theorem Accounted.vmPageConvert (h : Accounted k s) (hm : s.InUse m)
    (hwired : (s.pages m).wireCount = 0) {r : Bool}
    (hs : s.vmPageConvert vmPrivilege m = some (r, s')) : Accounted k s' := by
  unfold Resident.vmPageConvert at hs
  obtain ⟨⟨realM, t⟩, hgrab, hconvert⟩ := bind_eq_some_iff.mp hs
  obtain ⟨ht, ⟨rfl, rfl⟩ | ⟨p, rfl, hp, hfree, -, hn, hpages⟩⟩ := h.vmPageGrab hgrab
  · cases hconvert
    exact h
  · obtain ⟨u, hrelease, heq⟩ := map_eq_some_iff.mp hconvert
    cases heq
    have hne : m ≠ p := by
      rintro rfl
      cases hm.2.symm.trans hfree
    have hpage : t.pages m = s.pages m := by rw [hpages, update_of_ne hne]
    have hx := ht.proper m (hn.symm ▸ hm.1)
    have hnew : ({ t.pages m with physAddr := (t.pages p).physAddr, fictitious := false } :
        ResidentPage).Proper := ⟨hx.free, hx.active, hx.wired, hx.narrow⟩
    have hzero : (t.pages m).wireCount = 0 := hpage.symm ▸ hwired
    have hconverted := ht.modifyPage (hn.symm ▸ hm.1) (fun x =>
      { x with physAddr := (t.pages p).physAddr, fictitious := false }) hnew ⟨rfl, rfl, rfl⟩
      (fun hc => by rw [hpage, hm.2] at hc; cases hc)
      (by rw [show (t.pages m).wired = 0 from if_neg fun hc => hc.2 hzero]
          exact congrArg (k + ·) (if_neg fun hc => hc.2 hzero))
    have hidle : Idle (t.pages p) := by
      rw [hpages, update_self]
      exact h.idle_of_free hp hfree
    have hidle' : Idle ((t.modifyPage m fun x =>
        { x with physAddr := (t.pages p).physAddr, fictitious := false }).pages p) := by
      rwa [modifyPage_pages_of_ne hne.symm]
    obtain ⟨hacc, hreleased⟩ := hconverted.modifyIdle (hn.symm ▸ hp) hidle' (fun x =>
      { x with physAddr := ResidentConfig.fictitiousAddr, fictitious := true })
      ⟨hidle'.free, hidle'.active, hidle'.inactive, hidle'.wireCount, hidle'.tabled⟩
    refine hacc.vmPageReleaseFictitious (hn.symm ▸ hp) hreleased ?_ hrelease
    rw [modifyPage_pages_self]
    exact fun hc => by cases hc.1

theorem Accounted.vmObjectPageMap [PageSize] (h : Accounted k s) (hok : TableOk false s)
    (hp : m < s.npages) (hm : Idle (s.pages m)) {addr : ℕ}
    (hs : s.vmObjectPageMap m object offset addr = some s') : Accounted k s' := by
  obtain ⟨t, ht, hs⟩ := bind_eq_some_iff.mp hs
  obtain ⟨u, hinsert, rfl⟩ := map_eq_some_iff.mp hs
  have huntabled : ¬(s.pages m).tabled = true := by
    rw [hm.tabled]
    exact Bool.false_ne_true
  obtain ⟨hpage, hn⟩ := freeAt_page hok huntabled ht
  have hfreed := h.freeAt hok ht
  obtain ⟨hokt, hplace, -⟩ := hok.freeAt ht (place_none huntabled)
  have hidle : Idle (t.pages m) := hpage.symm ▸ hm
  have hpt : m < t.npages := hn.symm ▸ hp
  set x : ResidentPage :=
    { vmPageTemplate with physAddr := addr, isPrivate := true, wireCount := 1 }
  have hx : x.Proper := ⟨fun hc => by (cases hc), fun hc => by (cases hc), fun _ => ⟨rfl, rfl⟩,
    by norm_num [x]⟩
  have hprivate : Accounted k (t.modifyPage m fun _ => x) :=
    hfreed.modifyPage hpt _ hx ⟨hidle.free.symm, hidle.active.symm, hidle.inactive.symm⟩
      (fun hc => by cases hidle.free.symm.trans hc)
      (by rw [hidle.wired]; exact congrArg (k + ·) (if_neg fun hc => by cases hc.1.2))
  have hview : (t.modifyPage m fun _ => x).tableView = t.tableView :=
    modifyPage_tableView (place_none (by rw [hidle.tabled]; exact Bool.false_ne_true)).symm
  have hokx : TableOk false (t.modifyPage m fun _ => x) := by
    unfold TableOk
    rwa [hview]
  have hstate : (t.vmPageInit m addr).modifyPage m
      (fun p => { p with isPrivate := true, wireCount := 1 }) = t.modifyPage m fun _ => x := by
    unfold vmPageInit
    rw [modifyPage_modifyPage]
  rw [hstate] at hinsert
  have huse : (t.modifyPage m fun _ => x).InUse m :=
    ⟨hpt, by rw [modifyPage_pages_self]; rfl⟩
  have hinserted := hprivate.vmPageInsert hokx huse hinsert
  -- The insertion leaves the page tabled, so that it is a page of the kernel still.
  have htabled : (u.pages m).tabled = true := by
    unfold Resident.vmPageInsert at hinsert
    split at hinsert
    · cases hinsert
    · cases hinsert
      by_contra hc
      have hnone := place_none hc
      have hview' := noteAlloc_tableView ((t.modifyPage m fun _ => x).tableEnter m object offset)
        object offset
      rw [tableEnter_tableView] at hview'
      have hsome := congrFun (congrArg PageTable.place hview') m
      exact some_ne_none _ (((update_self _ _ _).symm.trans hsome.symm).trans hnone)
  have hpu := hinserted.tabled m htabled
  have hxu := hinserted.proper m hpu
  exact hinserted.modifyPage hpu _ ⟨hxu.free, hxu.active, hxu.wired, hxu.narrow⟩ ⟨rfl, rfl, rfl⟩
    (fun _ => Iff.rfl) rfl

theorem Accounted.stealPage (h : Accounted k s) (hm : s.InUse m) :
    Accounted (k + (s.pages m).wired) (s.stealPage m) := by
  have hx := h.proper m hm.1
  have hremove := h.vmPageRemove hm.1
  have hnew : ({ (s.vmPageRemove m).pages m with wireCount := 0 } : ResidentPage).Proper := by
    rw [vmPageRemove_pages_self]
    exact ⟨fun hc => by (cases hm.2.symm.trans hc), hx.active, fun hc => absurd rfl hc, by norm_num⟩
  refine hremove.modifyPage hm.1 _ hnew ⟨rfl, rfl, rfl⟩ (fun _ => Iff.rfl) ?_
  rw [vmPageRemove_pages_self]
  change _ + (if _ then (1 : ℤ) else 0) = _
  rw [if_neg fun hc => hc.2 rfl, add_zero]
  rfl

/-! ## The table is left alone -/

section
omit [ResidentConfig]

theorem vmPageWire_tableView (s : Resident) (m : PageId) :
    (s.vmPageWire m).tableView = s.tableView := by
  unfold vmPageWire
  refine (modifyPage_tableView rfl).trans ?_
  split
  · dsimp only
    split
    · exact queuesRemove_tableView s m
    · exact queuesRemove_tableView s m
  · rfl

theorem vmPageUnwire_tableView (s : Resident) (m : PageId) :
    (s.vmPageUnwire m).tableView = s.tableView := by
  set t := s.modifyPage m fun p =>
    { p with wireCount := (p.wireCount + (2 ^ 16 - 1)) % 2 ^ 16 } with ht
  have hview : t.tableView = s.tableView := by
    refine modifyPage_tableView ?_
    unfold ResidentPage.place
    dsimp only
  have henter : (t.enterActive m).tableView = t.tableView :=
    t.modifyPage_tableView (f := fun p => { p with active := true }) rfl
  unfold vmPageUnwire
  dsimp only
  rw [← ht]
  split
  · split
    · exact henter.trans hview
    · exact henter.trans hview
  · exact hview

theorem vmPageActivate_tableView (hs : s.vmPageActivate m = some s') :
    s'.tableView = s.tableView := by
  have hleave : (s.leaveInactive m).tableView = s.tableView := by
    unfold Resident.leaveInactive
    split
    · exact s.modifyPage_tableView (f := fun p => { p with inactive := false }) rfl
    · rfl
  unfold vmPageActivate at hs
  dsimp only at hs
  split at hs
  · split at hs
    · cases hs
    · cases hs
      exact ((s.leaveInactive m).modifyPage_tableView (f := fun p => { p with active := true })
        rfl).trans hleave
  · cases hs
    exact hleave

end

theorem vmPageGrab_tableView (hs : s.vmPageGrab vmPrivilege = some (r, s')) : s'.tableView =
    s.tableView := by
  unfold vmPageGrab at hs
  split at hs
  · cases hs
    rfl
  · split at hs
    · cases hs
    case h_2 p rest hq =>
      cases hs
      exact s.modifyPage_tableView (f := fun p => { p with free := false }) rfl

omit [ResidentConfig] in
theorem vmPageGrabFictitious_tableView (s : Resident) :
    s.vmPageGrabFictitious.2.tableView = s.tableView := by
  unfold vmPageGrabFictitious
  split
  · rfl
  case h_2 p rest hq => exact s.modifyPage_tableView (f := fun p => { p with free := false }) rfl

theorem vmPageConvert_tableView {r : Bool}
    (hs : s.vmPageConvert vmPrivilege m = some (r, s')) : s'.tableView = s.tableView := by
  unfold vmPageConvert at hs
  obtain ⟨⟨realM, t⟩, hgrab, hconvert⟩ := bind_eq_some_iff.mp hs
  rw [← vmPageGrab_tableView hgrab]
  cases realM with
  | none =>
    cases hconvert
    rfl
  | some p =>
    obtain ⟨u, hrelease, heq⟩ := map_eq_some_iff.mp hconvert
    cases heq
    rw [vmPageReleaseFictitious_tableView hrelease, modifyPage_tableView rfl,
      modifyPage_tableView rfl]

omit [ResidentConfig] in
theorem withPage_tableView {x : ResidentPage} (h : Accounted k s) (hx : x.tabled = false) :
    (s.withPage x).tableView = s.tableView := by
  have hold : ¬(s.pages s.npages).tabled = true := fun hc => (h.tabled _ hc).false
  have hnew : x.place = none := if_neg (by rw [hx]; exact Bool.false_ne_true)
  exact modifyPage_tableView (f := fun _ => x) (hnew.trans (place_none hold).symm)

/-! ## Runs -/

/-- A step on the pages, other than a theft. The hypotheses are what the callers see to: a page that
is released is in nobody's hands any more, only pages in use are wired or paged, the 16 bits of a
wire count are enough, only wired pages are unwired, and only unwired ones are converted. -/
inductive QueueStep [PageSize] : Resident → Resident → Prop
  | create {s s' : Resident} (paddr : ℕ) (h : s.vmPageCreate paddr = some s') : QueueStep s s'
  | moreFictitious {s s' : Resident} (h : s.vmPageMoreFictitious = some s') : QueueStep s s'
  | grab {s s' : Resident} (vmPrivilege : Bool) (r : Option PageId)
      (h : s.vmPageGrab vmPrivilege = some (r, s')) : QueueStep s s'
  | grabFictitious {s : Resident} : QueueStep s s.vmPageGrabFictitious.2
  | release {s s' : Resident} (m : PageId) (hm : m < s.npages) (hidle : Idle (s.pages m))
      (hreal : (s.pages m).Real) (h : s.vmPageRelease m = some s') : QueueStep s s'
  | releaseFictitious {s s' : Resident} (m : PageId) (hm : m < s.npages) (hidle : Idle (s.pages m))
      (hreal : ¬(s.pages m).Real) (h : s.vmPageReleaseFictitious m = some s') : QueueStep s s'
  | free {s s' : Resident} (m : PageId) (hm : m < s.npages) (h : s.vmPageFree m = some s') :
      QueueStep s s'
  | wire {s : Resident} (m : PageId) (hm : s.InUse m)
      (hnarrow : (s.pages m).wireCount + 1 < 2 ^ 16) : QueueStep s (s.vmPageWire m)
  | unwire {s : Resident} (m : PageId) (hm : s.InUse m) (hwired : (s.pages m).wireCount ≠ 0) :
      QueueStep s (s.vmPageUnwire m)
  | activate {s s' : Resident} (m : PageId) (hm : s.InUse m) (h : s.vmPageActivate m = some s') :
      QueueStep s s'
  | deactivate {s : Resident} (m : PageId) (hm : s.InUse m) : QueueStep s (s.vmPageDeactivate m)
  | convert {s s' : Resident} (vmPrivilege r : Bool) (m : PageId) (hm : s.InUse m)
      (hwired : (s.pages m).wireCount = 0) (h : s.vmPageConvert vmPrivilege m = some (r, s')) :
      QueueStep s s'
  | insert {s s' : Resident} (m : PageId) (object : ObjId) (offset : ℕ) (hm : s.InUse m)
      (h : s.vmPageInsert m object offset = some s') : QueueStep s s'
  | replace {s s' : Resident} (m : PageId) (object : ObjId) (offset : ℕ) (hm : s.InUse m)
      (h : s.vmPageReplace m object offset = some s') : QueueStep s s'
  | remove {s : Resident} (m : PageId) (htabled : (s.pages m).tabled = true) :
      QueueStep s (s.vmPageRemove m)
  | rename {s s' : Resident} (m : PageId) (object : ObjId) (offset : ℕ)
      (htabled : (s.pages m).tabled = true) (hm : s.InUse m)
      (h : s.vmPageRename m object offset = some s') : QueueStep s s'
  | pageMap {s s' : Resident} (m : PageId) (object : ObjId) (offset addr : ℕ) (hm : m < s.npages)
      (hidle : Idle (s.pages m)) (h : s.vmObjectPageMap m object offset addr = some s') :
      QueueStep s s'

/-- Runs from the start, with the number of real pages that were stolen while they were wired. -/
inductive QueueRun [PageSize] : ℕ → Resident → Prop
  | boot : QueueRun 0 boot
  | step {n : ℕ} {s s' : Resident} (hrun : QueueRun n s) (hstep : QueueStep s s') : QueueRun n s'
  | steal {n : ℕ} {s : Resident} (m : PageId) (hrun : QueueRun n s) (hm : s.InUse m)
      (htabled : (s.pages m).tabled = true) :
      QueueRun (n + if (s.pages m).Real ∧ (s.pages m).wireCount ≠ 0 then 1 else 0) (s.stealPage m)

omit [ResidentConfig] in
theorem boot_accounted : Accounted 0 boot where
  free := ⟨fun _ => iff_of_false not_mem_nil fun hc => absurd hc.1 (Nat.not_lt_zero _),
    nodup_nil, rfl⟩
  fictitious := ⟨fun _ => iff_of_false not_mem_nil fun hc => absurd hc.1 (Nat.not_lt_zero _),
    nodup_nil, rfl⟩
  active := ⟨fun _ => iff_of_false not_mem_nil fun hc => absurd hc.1 (Nat.not_lt_zero _),
    nodup_nil, rfl⟩
  inactive := ⟨fun _ => iff_of_false not_mem_nil fun hc => absurd hc.1 (Nat.not_lt_zero _),
    nodup_nil, rfl⟩
  wired := rfl
  proper := fun _ hp => absurd hp (Nat.not_lt_zero _)
  tabled := fun _ hp => by cases hp

theorem QueueStep.accounted [PageSize] (hstep : QueueStep s s') (h : Accounted k s)
    (hok : TableOk false s) : Accounted k s' := by
  cases hstep with
  | create paddr hs => exact h.vmPageCreate hs
  | moreFictitious hs => exact h.vmPageMoreFictitious hs
  | grab vmPrivilege r hs => exact (h.vmPageGrab hs).1
  | grabFictitious => exact h.vmPageGrabFictitious
  | release m hm hidle hreal hs => exact h.vmPageRelease hm hidle hreal hs
  | releaseFictitious m hm hidle hreal hs => exact h.vmPageReleaseFictitious hm hidle hreal hs
  | free m hm hs => exact h.vmPageFree hm hs
  | wire m hm hnarrow => exact h.vmPageWire hm hnarrow
  | unwire m hm hwired => exact h.vmPageUnwire hm hwired
  | activate m hm hs => exact h.vmPageActivate hm hs
  | deactivate m hm => exact h.vmPageDeactivate hm
  | convert vmPrivilege r m hm hwired hs => exact h.vmPageConvert hm hwired hs
  | insert m object offset hm hs => exact h.vmPageInsert hok hm hs
  | replace m object offset hm hs => exact h.vmPageReplace hok hm hs
  | remove m htabled => exact h.vmPageRemove (h.tabled m htabled)
  | rename m object offset htabled hm hs => exact h.vmPageRename hok hm htabled hs
  | pageMap m object offset addr hm hidle hs => exact h.vmObjectPageMap hok hm hidle hs

theorem TableOk.congr {careful : Bool} (h : TableOk careful s)
    (hview : s'.tableView = s.tableView) : TableOk careful s' := by
  unfold TableOk
  rwa [hview]

theorem QueueStep.tableOk [PageSize] (hstep : QueueStep s s') (h : Accounted k s)
    (hok : TableOk false s) : TableOk false s' := by
  cases hstep with
  | create paddr hs =>
    have hgrow := withPage_tableView (x := { vmPageTemplate with physAddr := paddr }) h rfl
    exact hok.congr ((vmPageRelease_tableView hs).trans hgrow)
  | moreFictitious hs =>
    refine hok.congr ((vmPageReleaseFictitious_tableView hs).trans ?_)
    rw [modifyPage_tableView rfl]
    exact withPage_tableView h rfl
  | grab vmPrivilege r hs => exact hok.congr (vmPageGrab_tableView hs)
  | grabFictitious => exact hok.congr (vmPageGrabFictitious_tableView s)
  | release m hm hidle hreal hs => exact hok.congr (vmPageRelease_tableView hs)
  | releaseFictitious m hm hidle hreal hs => exact hok.congr (vmPageReleaseFictitious_tableView hs)
  | free m hm hs => exact hok.free hs
  | wire m hm hnarrow => exact hok.congr (vmPageWire_tableView s m)
  | unwire m hm hwired => exact hok.congr (vmPageUnwire_tableView s m)
  | activate m hm hs => exact hok.congr (vmPageActivate_tableView hs)
  | deactivate m hm => exact hok.congr (vmPageDeactivate_tableView s m)
  | convert vmPrivilege r m hm hwired hs => exact hok.congr (vmPageConvert_tableView hs)
  | insert m object offset hm hs => exact hok.insert (fun hc => by cases hc) hs
  | replace m object offset hm hs => exact (TableStep.replace m object offset hs).tableOk hok
  | remove m htabled => exact hok.remove htabled
  | rename m object offset htabled hm hs =>
    exact (TableStep.rename m object offset htabled (fun hc => by cases hc) hs).tableOk hok
  | pageMap m object offset addr hm hidle hs =>
    obtain ⟨t, ht, hmap⟩ := bind_eq_some_iff.mp hs
    obtain ⟨u, hinsert, rfl⟩ := map_eq_some_iff.mp hmap
    have huntabled : ¬(s.pages m).tabled = true := by
      rw [hidle.tabled]
      exact Bool.false_ne_true
    obtain ⟨hokt, hplace, -⟩ := hok.freeAt ht (place_none huntabled)
    have hinit : TableOk false ((t.vmPageInit m addr).modifyPage m
        fun p => { p with isPrivate := true, wireCount := 1 }) := by
      refine hokt.congr ((modifyPage_tableView rfl).trans ?_)
      exact modifyPage_tableView hplace.symm
    exact (hinit.insert (fun hc => by cases hc) hinsert).congr (modifyPage_tableView rfl)

theorem accounted_run [PageSize] {n : ℕ} (hrun : QueueRun n s) :
    Accounted n s ∧ TableOk false s := by
  induction hrun with
  | boot => exact ⟨boot_accounted, boot_untabled.tableOk⟩
  | step _ hstep ih => exact ⟨hstep.accounted ih.1 ih.2, hstep.tableOk ih.1 ih.2⟩
  | steal m _ hm htabled ih =>
    have hstolen := ih.1.stealPage hm
    refine ⟨?_, (ih.2.remove htabled).congr (modifyPage_tableView rfl)⟩
    rwa [Nat.cast_add, Nat.cast_ite, Nat.cast_one, Nat.cast_zero]

/-- Each page is on the queue that its flags say and on no other, a wired page is on none, and the
counts are the lengths of the queues. -/
structure QueuesExact (s : Resident) : Prop where
  free : ∀ p, p ∈ s.queueFree ↔ p < s.npages ∧ (s.pages p).free = true ∧ (s.pages p).Real
  fictitious : ∀ p, p ∈ s.queueFictitious ↔
    p < s.npages ∧ (s.pages p).free = true ∧ ¬(s.pages p).Real
  active : ∀ p, p ∈ s.queueActive ↔ p < s.npages ∧ (s.pages p).active = true
  inactive : ∀ p, p ∈ s.queueInactive ↔ p < s.npages ∧ (s.pages p).inactive = true
  nodup : (s.queueFree ++ s.queueFictitious ++ s.queueActive ++ s.queueInactive).Nodup
  wired : ∀ p, p < s.npages → (s.pages p).wireCount ≠ 0 →
    p ∉ s.queueFree ++ s.queueFictitious ++ s.queueActive ++ s.queueInactive
  freeCount : s.freeCount = s.queueFree.length
  fictitiousCount : s.fictitiousCount = s.queueFictitious.length
  activeCount : s.activeCount = s.queueActive.length
  inactiveCount : s.inactiveCount = s.queueInactive.length

omit [ResidentConfig] in
theorem Accounted.queuesExact (h : Accounted k s) : s.QueuesExact where
  free := h.free.mem
  fictitious := h.fictitious.mem
  active := h.active.mem
  inactive := h.inactive.mem
  nodup := by
    refine ((h.free.nodup.append h.fictitious.nodup ?_).append h.active.nodup ?_).append
      h.inactive.nodup ?_
    · exact fun p hp hq => ((h.fictitious.mem p).mp hq).2.2 ((h.free.mem p).mp hp).2.2
    · intro p hp hq
      obtain ⟨hlt, hactive⟩ := (h.active.mem p).mp hq
      have hfree : (s.pages p).free = true := by
        rcases mem_append.mp hp with hp | hp
        · exact ((h.free.mem p).mp hp).2.1
        · exact ((h.fictitious.mem p).mp hp).2.1
      cases hactive.symm.trans ((h.proper p hlt).free hfree).1
    · intro p hp hq
      obtain ⟨hlt, hinactive⟩ := (h.inactive.mem p).mp hq
      rcases mem_append.mp hp with hp | hp
      · have hfree : (s.pages p).free = true := by
          rcases mem_append.mp hp with hp | hp
          · exact ((h.free.mem p).mp hp).2.1
          · exact ((h.fictitious.mem p).mp hp).2.1
        cases hinactive.symm.trans ((h.proper p hlt).free hfree).2.1
      · cases hinactive.symm.trans ((h.proper p hlt).active ((h.active.mem p).mp hp).2)
  wired := by
    intro p hlt hwired hin
    have hx := h.proper p hlt
    rcases mem_append.mp hin with hin | hin
    · rcases mem_append.mp hin with hin | hin
      · have hfree : (s.pages p).free = true := by
          rcases mem_append.mp hin with hin | hin
          · exact ((h.free.mem p).mp hin).2.1
          · exact ((h.fictitious.mem p).mp hin).2.1
        exact hwired (hx.free hfree).2.2.1
      · cases ((h.active.mem p).mp hin).2.symm.trans (hx.wired hwired).1
    · cases ((h.inactive.mem p).mp hin).2.symm.trans (hx.wired hwired).2
  freeCount := h.free.count_eq
  fictitiousCount := h.fictitious.count_eq
  activeCount := h.active.count_eq
  inactiveCount := h.inactive.count_eq

/-- The queues and their counts are right in every run; the count of wired pages is right just as
long as no real page was stolen while it was wired. -/
theorem pageQueues_run [PageSize] {n : ℕ} (hrun : QueueRun n s) :
    s.QueuesExact ∧ (s.wireCount = s.wiredPages ↔ n = 0) := by
  obtain ⟨hacc, -⟩ := accounted_run hrun
  refine ⟨hacc.queuesExact, ?_⟩
  rw [hacc.wired]
  omega

section
omit [ResidentConfig]

theorem queueRun_wired : letI := pages4096; letI := eightBuckets
    ∃ s, QueueRun 0 s ∧ s.InUse 0 ∧ (s.pages 0).tabled = true ∧
      ((s.pages 0).Real ∧ (s.pages 0).wireCount ≠ 0) ∧ s.wireCount = 1 ∧
      (s.stealPage 0).wireCount = 1 ∧ (s.stealPage 0).wiredPages = 0 := by
  let _ := pages4096
  let _ := eightBuckets
  have hcreated := QueueRun.boot.step (.create 4096 rfl)
  have hgrabbed := hcreated.step (.grab true (some 0) rfl)
  have hinserted := hgrabbed.step
    (.insert 0 1 4096 (by constructor <;> decide +kernel) (if_neg (by decide +kernel)))
  have hwired := hinserted.step (.wire 0 (by constructor <;> decide +kernel) (by decide +kernel))
  exact ⟨_, hwired, by constructor <;> decide +kernel, by decide +kernel, by decide +kernel,
    by decide +kernel, by decide +kernel, by decide +kernel⟩

theorem pageQueues_run_wired : letI := pages4096; letI := eightBuckets
    ∃ s : Resident, s.wireCount = 1 ∧ s.wireCount = s.wiredPages := by
  let _ := pages4096
  let _ := eightBuckets
  obtain ⟨s, hrun, -, -, -, hone, -⟩ := queueRun_wired
  exact ⟨s, hone, (pageQueues_run hrun).2.mpr rfl⟩

/-- The theft of a wired page leaves its wiring in the count. -/
theorem stealPage_wired : letI := pages4096; letI := eightBuckets
    ∃ s, QueueRun 1 s ∧ s.wireCount = 1 ∧ s.wiredPages = 0 := by
  let _ := pages4096
  let _ := eightBuckets
  obtain ⟨s, hrun, hm, htabled, hwired, -, hcount, hnone⟩ := queueRun_wired
  have hsteal := hrun.steal 0 hm htabled
  rw [if_pos hwired] at hsteal
  exact ⟨_, hsteal, hcount, hnone⟩

end

end

end Resident

end MachKernel.Vm
