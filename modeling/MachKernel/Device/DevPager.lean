import MachKernel.Lib.Buckets
import MachKernel.Lib.Runs
import MachKernel.Vm.Map

/-! The pagers of mapped character devices (`device/dev_pager.c`). -/

namespace MachKernel.Device.Pager
open Function List Option
open Word32 Runs Buckets Vm

/-- What a pager is found by: its port, or its device, which is taken for a port. -/
inductive Name
  | port (p : ℕ)
  | device (d : ℕ)
  deriving DecidableEq

/-- `struct dev_pager`. -/
structure DevPager where
  refCount : ℕ
  clientCount : ℕ
  pager : ℕ
  pagerRequest : Option ℕ
  device : ℕ
  prot : VmProt
  offset : ℕ
  size : ℕ

/-- A page of a memory object that stands for a page of physical memory. -/
structure VmPage where
  physAddr : ℕ
  isPrivate : Bool
  wireCount : ℕ

/-- The memory object that the kernel has made for a pager. -/
structure VmObject where
  pager : ℕ
  page : ℕ → Option VmPage

/-- Where ports and devices are, the device numbers, the page frames that `d_mmap` of a device
gives, and where these are. -/
structure Config where
  address : Name → ℕ
  devNumber : ℕ → ℕ
  dMmap : ℕ → ℕ → ℕ → VmProt → ℤ
  pmapPhysAddress : ℤ → ℕ

structure State where
  hashtable : Table Name ℕ
  devPager : ℕ → Option DevPager
  -- the pager ports in use
  ports : List ℕ
  -- the request port of the object for a pager, and the object of a request port
  request : ℕ → Option ℕ
  object : ℕ → Option VmObject

open State

inductive Result
  | noSuchDevice
  | resourceShortage
  | mapped (pager : ℕ)
  | supplied (pages : List (ℕ × ℕ))
  | terminated
  | done

section Paging
variable [PageSize] (cfg : Config)

def devPagerHash (n : Name) : ℕ := (cfg.address n &&& 0xffffff) % 127

def deviceMapPage (ds : DevPager) (offset : ℕ) : ℕ :=
  cfg.pmapPhysAddress (cfg.dMmap ds.device (cfg.devNumber ds.device) offset ds.prot)

/-- `vm_object_page_map`, for so many pages, which come out as well. -/
def vmObjectPageMap (mapFn : ℕ → ℕ) : ℕ → ℕ → VmObject → List (ℕ × ℕ) × VmObject
  | 0, _, object => ([], object)
  | n + 1, offset, object =>
    let addr := mapFn offset
    let r := vmObjectPageMap mapFn n (add offset pageSize)
      { object with page := update object.page offset (some ⟨addr, true, 1⟩) }
    ((offset, addr) :: r.1, r.2)

namespace State
variable (s : State)

def setPager (r : ℕ) (ds : Option DevPager) : State :=
  { s with devPager := update s.devPager r ds }

/-- `dev_pager_reference`. -/
def reference (r : ℕ) : Option State :=
  (s.devPager r).map fun ds => s.setPager r (some { ds with refCount := ds.refCount + 1 })

/-- `dev_pager_deallocate`. -/
def deallocate (r : ℕ) : Option State :=
  (s.devPager r).map fun ds =>
    if 1 < ds.refCount then s.setPager r (some { ds with refCount := ds.refCount - 1 })
    else s.setPager r none

/-- `dev_pager_hash_lookup`. -/
def hashLookup (n : Name) : Option ℕ := lookup (devPagerHash cfg) s.hashtable n

/-- `dev_pager_hash_insert`. -/
def hashInsert (n : Name) (r : ℕ) : State :=
  { s with hashtable := insert (devPagerHash cfg) s.hashtable n r }

/-- `dev_pager_hash_delete`; when there is no such entry the head of the bucket is freed. -/
def hashDelete (n : Name) : Option State :=
  (s.hashLookup cfg n).map fun _ =>
    { s with hashtable := delete (devPagerHash cfg) s.hashtable n }

/-- `device_pager_setup`, with what `zalloc` and `ipc_port_alloc_kernel` give. -/
def devicePagerSetup (device : ℕ) (prot : VmProt) (offset size : ℕ) (record port : Option ℕ) :
    Option (Result × State) :=
  match s.hashLookup cfg (.device device) with
  | some r => do
    let s ← s.reference r
    let ds ← s.devPager r
    let s ← s.deallocate r
    some (.mapped ds.pager, s)
  | none =>
    match record, port with
    | some r, some p =>
      let s := { s with ports := p :: s.ports }
      let s := s.setPager r (some ⟨1, 0, p, none, device, prot, offset, roundPage size⟩)
      some (.mapped p, (s.hashInsert cfg (.port p) r).hashInsert cfg (.device device) r)
    -- without a port the record is given back
    | _, _ => some (.resourceShortage, s)

def memoryObjectInit (pager request : ℕ) : Option State := do
  let r ← s.hashLookup cfg (.port pager)
  let s ← s.reference r
  let ds ← s.devPager r
  if ds.clientCount = 0 ∧ ds.pagerRequest = none then
    (s.setPager r (some { ds with clientCount := 1, pagerRequest := some request })).deallocate r
  else none

def memoryObjectDataRequest (pager request offset length : ℕ) : Option (Result × State) := do
  let r ← s.hashLookup cfg (.port pager)
  let s ← s.reference r
  let ds ← s.devPager r
  if ds.pagerRequest = some request then do
    let object ← s.object request
    let (pages, object) := vmObjectPageMap (deviceMapPage cfg ds) (length / pageSize)
      (add ds.offset offset) object
    let s ← { s with object := update s.object request (some object) }.deallocate r
    some (.supplied pages, s)
  else none

/-- `memory_object_terminate`, and the object and the ports go. -/
def memoryObjectTerminate (pager request : ℕ) : Option State := do
  let r ← s.hashLookup cfg (.port pager)
  let s ← s.reference r
  let ds ← s.devPager r
  if ds.clientCount = 1 ∧ ds.pagerRequest = some request then do
    let s ← s.hashDelete cfg (.port ds.pager)
    let s ← s.hashDelete cfg (.device ds.device)
    let s := { s with
      ports := s.ports.erase pager
      request := update s.request pager none
      object := update s.object request none }
    let s ← s.deallocate r
    s.deallocate r
  else none

end State

/-- What happens: requests to map a device, and what the kernel does with the pagers. -/
inductive Event
  | deviceMap (isOpen : Bool) (device : ℕ) (prot : VmProt) (offset size : ℕ)
    (record port : Option ℕ)
  -- an object is made for the pager when it is first mapped
  | enter (pager request : ℕ)
  | fault (pager offset length : ℕ)
  -- the object is no longer mapped
  | terminate (pager : ℕ)

/-- No result stands for a panic, an assertion that fails or a record that is no longer there. -/
def State.step (s : State) : Event → Option (Result × State)
  | .deviceMap isOpen device prot offset size record port =>
    if isOpen then
      -- records and ports that are given out are free
      s.devicePagerSetup cfg device prot offset size
        (record.filter fun r => (s.devPager r).isNone) (port.filter fun p => p ∉ s.ports)
    else some (.noSuchDevice, s)
  | .enter pager request =>
    if pager ∈ s.ports ∧ s.request pager = none ∧ (s.object request).isNone then
      ({ s with
        request := update s.request pager (some request)
        object := update s.object request (some ⟨pager, fun _ => none⟩)
        }.memoryObjectInit cfg pager request).map fun s => (.done, s)
    else some (.done, s)
  | .fault pager offset length =>
    match s.request pager with
    | none => some (.done, s)
    | some request => s.memoryObjectDataRequest cfg pager request offset length
  | .terminate pager =>
    match s.request pager with
    | none => some (.done, s)
    | some request => (s.memoryObjectTerminate cfg pager request).map fun s => (.terminated, s)

/-- No pager is in use. -/
def State.start : State := ⟨fun _ => [], fun _ => none, [], fun _ => none, fun _ => none⟩

/-! What requests and faults are to do. -/

/-- A window on a device. -/
structure Request where
  device : ℕ
  prot : VmProt
  offset : ℕ
  deriving DecidableEq

/-- The pages of a window, by their offsets in it. -/
def Request.pages (w : Request) (offset length : ℕ) : List (ℕ × ℕ) :=
  (List.range (length / pageSize)).map fun k =>
    let o := add offset (k * pageSize)
    (o, cfg.pmapPhysAddress (cfg.dMmap w.device (cfg.devNumber w.device) (add w.offset o) w.prot))

/-- The windows that have been asked for, with the pagers that were given for them. -/
abbrev Windows := List (Request × ℕ)

def Windows.next (a : Windows) : Event → Result → Windows
  | .deviceMap _ device prot offset .., .mapped p => a ++ [(⟨device, prot, offset⟩, p)]
  | .terminate p, .terminated => a.filter fun x => x.2 ≠ p
  | _, _ => a

/-- A pager is not shared by windows that differ, and supplies the pages of its window. -/
def Serves (a : Windows) (e : Event) (r : Result) (s' : State) : Prop :=
  match e, r with
  | .deviceMap _ device prot offset .., .mapped p =>
    ∀ x ∈ a, x.2 = p → x.1 = ⟨device, prot, offset⟩
  | .fault p offset length, .supplied pages =>
    (∀ x ∈ a, x.2 = p → pages = x.1.pages cfg offset length) ∧
      ∃ q object, s'.request p = some q ∧ s'.object q = some object ∧
        ∀ x ∈ pages, object.page x.1 = some ⟨x.2, true, 1⟩
  | _, _ => True

def spec (a : Windows) (e : Event) (r : Result) (a' : Windows) (s' : State) : Prop :=
  a' = a.next e r ∧ Serves cfg a e r s'

/-- A device that has a pager is asked for the window of that pager, and there are faults in windows
at the start of a device only. -/
def Shown (s : State) : Event → Prop
  | .deviceMap isOpen device prot offset .. => isOpen →
    ∀ r ∈ s.hashLookup cfg (.device device), ∀ ds ∈ s.devPager r,
      ds.prot = prot ∧ ds.offset = offset
  | .fault pager _ length => 0 < length / pageSize →
    ∀ r ∈ s.hashLookup cfg (.port pager), ∀ ds ∈ s.devPager r,
      ds.pagerRequest ≠ none → ds.offset % modulus = 0
  | _ => True

/-- The pagers that are in use, and what they are found by. -/
structure Inv (s : State) (a : Windows) : Prop where
  single : Single s.hashtable
  port : ∀ p r, s.hashLookup cfg (.port p) = some r ↔ ∃ ds ∈ s.devPager r, ds.pager = p
  device : ∀ d r, s.hashLookup cfg (.device d) = some r ↔ ∃ ds ∈ s.devPager r, ds.device = d
  counts : ∀ r, ∀ ds ∈ s.devPager r, ds.refCount = 1 ∧ ds.pager ∈ s.ports ∧
    ds.pagerRequest = s.request ds.pager ∧ ds.clientCount = (s.request ds.pager).elim 0 fun _ => 1
  ports : s.ports.Nodup
  live : ∀ p ∈ s.ports, ∃ r, ∃ ds ∈ s.devPager r, ds.pager = p
  request : ∀ p, ∀ q ∈ s.request p, p ∈ s.ports ∧ ∃ object ∈ s.object q, object.pager = p
  asked : ∀ x ∈ a, ∃ r, ∃ ds ∈ s.devPager r, ds.pager = x.2 ∧ x.1 = ⟨ds.device, ds.prot, ds.offset⟩
  made : ∀ r, ∀ ds ∈ s.devPager r, (⟨ds.device, ds.prot, ds.offset⟩, ds.pager) ∈ a

section Pager
variable {cfg} {s : State} {a : Windows}

theorem vmObjectPageMap_pages (mapFn : ℕ → ℕ) (n : ℕ) {offset : ℕ} (h : offset < modulus)
    (object : VmObject) : (vmObjectPageMap mapFn n offset object).1 = (List.range n).map fun k =>
        (add offset (k * pageSize), mapFn (add offset (k * pageSize))) := by
  induction n generalizing offset object with
  | zero => rfl
  | succ n ih =>
    have hzero : add offset (0 * pageSize) = offset := by
      rw [Nat.zero_mul, add_of_lt (by omega), Nat.add_zero]
    have hsucc : ∀ k, add (add offset pageSize) (k * pageSize) =
        add offset ((k + 1) * pageSize) := by
      intro k
      unfold add
      rw [Nat.succ_mul, Nat.mod_add_mod]
      congr 1
      omega
    unfold vmObjectPageMap
    dsimp only
    rw [ih (add_lt _ _), List.range_succ_eq_map, map_cons, List.map_map, hzero]
    refine congrArg _ (map_congr_left fun k _ => ?_)
    dsimp only [Function.comp]
    rw [hsucc]

theorem vmObjectPageMap_pager (mapFn : ℕ → ℕ) (n offset : ℕ) (object : VmObject) :
    (vmObjectPageMap mapFn n offset object).2.pager = object.pager := by
  induction n generalizing offset object with
  | zero => rfl
  | succ n ih => exact ih ..

theorem vmObjectPageMap_mem (mapFn : ℕ → ℕ) (n offset : ℕ) (object : VmObject) :
    (∀ x ∈ (vmObjectPageMap mapFn n offset object).1, x.2 = mapFn x.1) ∧
      ∀ o, (vmObjectPageMap mapFn n offset object).2.page o =
        if o ∈ (vmObjectPageMap mapFn n offset object).1.map Prod.fst then
          some ⟨mapFn o, true, 1⟩ else object.page o := by
  induction n generalizing offset object with
  | zero => exact ⟨nofun, fun o => (if_neg not_mem_nil).symm⟩
  | succ n ih =>
    obtain ⟨haddr, hpage⟩ := ih (add offset pageSize)
      { object with page := update object.page offset (some ⟨mapFn offset, true, 1⟩) }
    unfold vmObjectPageMap
    dsimp only
    refine ⟨fun x hx => ?_, fun o => ?_⟩
    · rcases mem_cons.1 hx with rfl | hx
      · rfl
      · exact haddr x hx
    · rw [hpage, map_cons]
      dsimp only
      rw [update_apply]
      by_cases ho : o = offset
      · rw [if_pos ho, ho, if_pos mem_cons_self, ite_self]
      · simp only [mem_cons, ho, false_or, if_false]

theorem vmObjectPageMap_page (mapFn : ℕ → ℕ) (n offset : ℕ) (object : VmObject) :
    ∀ x ∈ (vmObjectPageMap mapFn n offset object).1,
      (vmObjectPageMap mapFn n offset object).2.page x.1 = some ⟨x.2, true, 1⟩ := by
  intro x hx
  obtain ⟨haddr, hpage⟩ := vmObjectPageMap_mem mapFn n offset object
  rw [hpage, if_pos (mem_map_of_mem hx), haddr x hx]

/-! References. -/

section References
omit [PageSize]

variable {ds : DevPager} {r : ℕ}

theorem State.reference_of (h : s.devPager r = some ds) :
    s.reference r = some (s.setPager r (some { ds with refCount := ds.refCount + 1 })) := by
  unfold reference
  rw [h]
  rfl

theorem State.setPager_self (s : State) (r : ℕ) (ds : Option DevPager) :
    (s.setPager r ds).devPager r = ds := update_self ..

theorem State.setPager_setPager (s : State) (r : ℕ) (ds ds' : Option DevPager) :
    (s.setPager r ds).setPager r ds' = s.setPager r ds' := by
  unfold setPager
  rw [update_idem]

theorem State.setPager_eq {ds : Option DevPager} (h : s.devPager r = ds) : s.setPager r ds = s := by
  unfold setPager
  rw [← h, update_eq_self]

theorem State.deallocate_of (h : s.devPager r = some ds) (hrefs : 1 < ds.refCount) :
    s.deallocate r = some (s.setPager r (some { ds with refCount := ds.refCount - 1 })) := by
  unfold deallocate
  rw [h, map_some, if_pos hrefs]

theorem State.deallocate_last (h : s.devPager r = some ds)
    (hrefs : ¬1 < ds.refCount) : s.deallocate r = some (s.setPager r none) := by
  unfold deallocate
  rw [h, map_some, if_neg hrefs]

end References

/-! What each call does. -/

omit [PageSize] in
theorem Inv.unique (h : Inv cfg s a) {r r' : ℕ} {ds ds' : DevPager}
    (hr : s.devPager r = some ds) (hr' : s.devPager r' = some ds') (hp : ds.pager = ds'.pager) :
    r = r' ∧ ds = ds' := by
  have heq := ((h.port ds.pager r).2 ⟨ds, hr, rfl⟩).symm.trans
    ((h.port ds.pager r').2 ⟨ds', hr', hp.symm⟩)
  obtain rfl := some.inj heq
  exact ⟨rfl, some.inj (hr.symm.trans hr')⟩

variable {ds : DevPager} {r pager request : ℕ}

theorem Inv.setup_again (h : Inv cfg s a) (hr : s.devPager r = some ds)
    (prot : VmProt) (offset size : ℕ) (record port : Option ℕ) :
    s.devicePagerSetup cfg ds.device prot offset size record port = some (.mapped ds.pager, s) := by
  have hlookup := (h.device ds.device r).2 ⟨ds, hr, rfl⟩
  have hrefs := (h.counts r ds hr).1
  unfold devicePagerSetup
  rw [hlookup]
  dsimp only
  rw [reference_of hr]
  simp only [bind_eq_bind, bind_some, setPager_self]
  rw [deallocate_of (setPager_self ..) (by dsimp only; omega), bind_some,
    setPager_setPager]
  dsimp only
  rw [Nat.add_sub_cancel, setPager_eq hr]

theorem Inv.setup_new (h : Inv cfg s a) {device p : ℕ}
    (hlookup : s.hashLookup cfg (.device device) = none) (hr : s.devPager r = none)
    (hp : p ∉ s.ports) (prot : VmProt) (offset size : ℕ) :
    ∃ s', s.devicePagerSetup cfg device prot offset size (some r) (some p) =
        some (.mapped p, s') ∧ Inv cfg s' (a ++ [(⟨device, prot, offset⟩, p)]) := by
  unfold devicePagerSetup
  rw [hlookup]
  refine ⟨_, rfl, ?_⟩
  have hfree : ∀ r', ∀ ds ∈ s.devPager r', ds.pager ≠ p := fun r' ds hds heq =>
    hp (heq ▸ (h.counts r' ds hds).2.1)
  have hport : s.hashLookup cfg (.port p) = none := by
    refine eq_none_iff_forall_ne_some.2 fun r' hr' => ?_
    obtain ⟨ds, hds, hpager⟩ := (h.port p r').1 hr'
    exact hfree r' ds hds hpager
  have hrequest : s.request p = none :=
    eq_none_iff_forall_ne_some.2 fun q hq => hp (h.request p q hq).1
  have hdevice : ∀ r', ∀ ds ∈ s.devPager r', ds.device ≠ device := fun r' ds hds heq => by
    rw [← heq, (h.device ds.device r').2 ⟨ds, hds, rfl⟩] at hlookup
    cases hlookup
  have hsingle := h.single.insert hport r
  have hlookup' : lookup (devPagerHash cfg)
      (insert (devPagerHash cfg) s.hashtable (.port p) r) (.device device) = none := by
    rw [lookup_insert hport, if_neg (by simp)]
    exact hlookup
  generalize hnew : (⟨1, 0, p, none, device, prot, offset, roundPage size⟩ : DevPager) = new
  have hnewPager : new.pager = p := hnew ▸ rfl
  have hnewDevice : new.device = device := hnew ▸ rfl
  have hmem : ∀ r' ds, ds ∈ (if r' = r then some new else s.devPager r') ↔
      r' = r ∧ ds = new ∨ ds ∈ s.devPager r' := by
    intro r' ds
    split
    · next heq => rw [heq, hr, mem_some_iff]; simp [eq_comm]
    · next hne => simp [hne]
  constructor
  · exact hsingle.insert hlookup' r
  · intro p' r'
    dsimp only [hashLookup, hashInsert, setPager]
    rw [lookup_insert hlookup', if_neg (by simp), lookup_insert hport, update_apply]
    simp only [hmem, or_and_right, exists_or, Name.port.injEq]
    have hold := h.port p' r'
    unfold hashLookup at hold
    split
    · next heq =>
      rw [heq] at hold ⊢
      have hnone : ¬∃ ds ∈ s.devPager r', ds.pager = p := by
        rintro ⟨ds, hds, hpager⟩
        exact hfree r' ds hds hpager
      rw [or_iff_left hnone]
      refine ⟨fun hrr => ⟨new, ⟨(some.inj hrr).symm, rfl⟩, hnewPager⟩, ?_⟩
      rintro ⟨-, ⟨hrr, -⟩, -⟩
      exact congrArg some hrr.symm
    · next hne =>
      rw [hold, or_iff_right]
      rintro ⟨_, ⟨-, rfl⟩, hpager⟩
      exact hne (hpager.symm.trans hnewPager)
  · intro d r'
    dsimp only [hashLookup, hashInsert, setPager]
    rw [lookup_insert hlookup', lookup_insert hport, update_apply]
    simp only [hmem, or_and_right, exists_or, Name.device.injEq]
    have hold := h.device d r'
    unfold hashLookup at hold
    split
    · next heq =>
      rw [heq] at hold ⊢
      have hnone : ¬∃ ds ∈ s.devPager r', ds.device = device := by
        rintro ⟨ds, hds, hdev⟩
        exact hdevice r' ds hds hdev
      rw [or_iff_left hnone]
      refine ⟨fun hrr => ⟨new, ⟨(some.inj hrr).symm, rfl⟩, hnewDevice⟩, ?_⟩
      rintro ⟨-, ⟨hrr, -⟩, -⟩
      exact congrArg some hrr.symm
    · next hne =>
      rw [if_neg (by simp), hold, or_iff_right]
      rintro ⟨_, ⟨-, rfl⟩, hdev⟩
      exact hne (hdev.symm.trans hnewDevice)
  · intro r' ds hds
    dsimp only [hashInsert, setPager] at hds ⊢
    rw [update_apply, hmem] at hds
    rcases hds with ⟨-, rfl⟩ | hds
    · rw [hnewPager, hrequest, ← hnew]
      exact ⟨rfl, mem_cons_self, rfl, rfl⟩
    · obtain ⟨hrefs, hports, hreq, hclient⟩ := h.counts r' ds hds
      exact ⟨hrefs, mem_cons_of_mem p hports, hreq, hclient⟩
  · exact nodup_cons.2 ⟨hp, h.ports⟩
  · intro p' hp'
    dsimp only [hashInsert, setPager]
    simp only [update_apply, hmem]
    rcases mem_cons.1 hp' with rfl | hp'
    · exact ⟨r, new, .inl ⟨rfl, rfl⟩, hnewPager⟩
    · obtain ⟨r', ds, hds, hpager⟩ := h.live p' hp'
      exact ⟨r', ds, .inr hds, hpager⟩
  · intro p' q hq
    exact ⟨mem_cons_of_mem p (h.request p' q hq).1, (h.request p' q hq).2⟩
  · intro x hx
    dsimp only [hashInsert, setPager]
    simp only [update_apply, hmem]
    rcases mem_append.1 hx with hx | hx
    · obtain ⟨r', ds, hds, hpager, hwindow⟩ := h.asked x hx
      exact ⟨r', ds, .inr hds, hpager, hwindow⟩
    · rw [mem_singleton.1 hx]
      refine ⟨r, new, .inl ⟨rfl, rfl⟩, hnewPager, ?_⟩
      rw [← hnew]
  · intro r' ds hds
    dsimp only [hashInsert, setPager] at hds
    rw [update_apply, hmem] at hds
    rcases hds with ⟨-, rfl⟩ | hds
    · refine mem_append_right a (mem_singleton.2 ?_)
      rw [← hnew]
    · exact mem_append_left _ (h.made r' ds hds)

omit [PageSize] in
theorem Inv.enter (h : Inv cfg s a) (hport : pager ∈ s.ports)
    (hnone : s.request pager = none) (hfree : s.object request = none) :
    ∃ s', ({ s with
      request := update s.request pager (some request)
      object := update s.object request (some ⟨pager, fun _ => none⟩)
      } : State).memoryObjectInit cfg pager request = some s' ∧ Inv cfg s' a := by
  obtain ⟨r, ds, hr, rfl⟩ := h.live pager hport
  obtain ⟨hrefs, -, hrequest, hclient⟩ := h.counts r ds hr
  rw [hnone] at hrequest hclient
  have hlookup := (h.port ds.pager r).2 ⟨ds, hr, rfl⟩
  generalize hs : ({ s with
    request := update s.request ds.pager (some request)
    object := update s.object request (some ⟨ds.pager, fun _ => none⟩) } : State) = s₁
  have hr₁ : s₁.devPager r = some ds := hs ▸ hr
  have hlookup₁ : s₁.hashLookup cfg (.port ds.pager) = some r := hs ▸ hlookup
  have hinit : s₁.memoryObjectInit cfg ds.pager request = some (s₁.setPager r
      (some { ds with clientCount := 1, pagerRequest := some request })) := by
    unfold memoryObjectInit
    rw [hlookup₁, bind_eq_bind, bind_some, reference_of hr₁]
    simp only [bind_eq_bind, bind_some, setPager_self]
    rw [if_pos ⟨hclient, hrequest⟩, setPager_setPager,
      deallocate_of (setPager_self ..) (by dsimp only; omega),
      setPager_setPager]
    dsimp only
    rw [Nat.add_sub_cancel]
  refine ⟨_, hinit, ?_⟩
  rw [← hs]
  generalize hnew : ({ ds with clientCount := 1, pagerRequest := some request } : DevPager) = new
  -- the record is still that of the port and the window
  have hsame : ∀ r' (P : DevPager → Prop), (P new ↔ P ds) →
      ((∃ x ∈ update s.devPager r (some new) r', P x) ↔ ∃ x ∈ s.devPager r', P x) := by
    intro r' P hP
    rw [update_apply]
    split
    · next heq =>
      have hr' : s.devPager r = some ds := hr
      rw [heq, hr']
      simp [hP]
    · exact Iff.rfl
  have hmem : ∀ r' x, x ∈ update s.devPager r (some new) r' →
      r' = r ∧ x = new ∨ r' ≠ r ∧ x ∈ s.devPager r' := by
    intro r' x hx
    rw [update_apply] at hx
    split at hx
    · next heq => exact .inl ⟨heq, (some.inj hx).symm⟩
    · next hne => exact .inr ⟨hne, hx⟩
  have hother : ∀ r' x, r' ≠ r → x ∈ s.devPager r' → x.pager ≠ ds.pager := fun r' x hne hx heq =>
    hne (h.unique hx hr heq).1
  constructor
  · exact h.single
  · exact fun p r' => (h.port p r').trans (hsame r' (fun x => x.pager = p) (by rw [← hnew])).symm
  · exact fun d r' =>
      (h.device d r').trans (hsame r' (fun x => x.device = d) (by rw [← hnew])).symm
  · intro r' x hx
    dsimp only [setPager] at hx ⊢
    rcases hmem r' x hx with ⟨-, rfl⟩ | ⟨hne, hx⟩
    · rw [← hnew]
      dsimp only
      rw [update_self]
      exact ⟨hrefs, hport, rfl, rfl⟩
    · rw [update_of_ne (hother r' x hne hx)]
      exact h.counts r' x hx
  · exact h.ports
  · intro p hp
    obtain ⟨r', x, hx⟩ := h.live p hp
    exact ⟨r', (hsame r' (fun x => x.pager = p) (by rw [← hnew])).2 ⟨x, hx⟩⟩
  · intro p q hq
    dsimp only [setPager] at hq ⊢
    rw [update_apply] at hq
    split at hq
    · next heq =>
      obtain rfl := some.inj hq
      rw [heq, update_self]
      exact ⟨hport, _, rfl, rfl⟩
    · obtain ⟨hp, object, hobject, hpager⟩ := h.request p q hq
      have hne : q ≠ request := by
        rintro rfl
        rw [hfree] at hobject
        cases hobject
      rw [update_of_ne hne]
      exact ⟨hp, object, hobject, hpager⟩
  · intro x hx
    obtain ⟨r', y, hy⟩ := h.asked x hx
    exact ⟨r', (hsame r' (fun y => y.pager = x.2 ∧ x.1 = ⟨y.device, y.prot, y.offset⟩)
      (by rw [← hnew])).2 ⟨y, hy⟩⟩
  · intro r' x hx
    rcases hmem r' x hx with ⟨-, rfl⟩ | ⟨-, hx⟩
    · rw [← hnew]
      exact h.made r ds hr
    · exact h.made r' x hx

theorem Inv.fault (h : Inv cfg s a) (hrequest : s.request pager = some request)
    (offset length : ℕ) :
    ∃ r ds object, s.devPager r = some ds ∧ ds.pager = pager ∧ s.object request = some object ∧
      s.memoryObjectDataRequest cfg pager request offset length =
        some (.supplied (vmObjectPageMap (deviceMapPage cfg ds) (length / pageSize)
          (add ds.offset offset) object).1, { s with
            object := update s.object request (some (vmObjectPageMap
              (deviceMapPage cfg ds) (length / pageSize) (add ds.offset offset) object).2) }) := by
  obtain ⟨hport, object, hobject, -⟩ := h.request pager request hrequest
  obtain ⟨r, ds, hr, rfl⟩ := h.live pager hport
  obtain ⟨hrefs, -, hknown, -⟩ := h.counts r ds hr
  refine ⟨r, ds, object, hr, rfl, hobject, ?_⟩
  unfold memoryObjectDataRequest
  rw [(h.port ds.pager r).2 ⟨ds, hr, rfl⟩, bind_eq_bind, bind_some,
    reference_of hr]
  simp only [bind_eq_bind, bind_some, setPager_self]
  rw [if_pos (hknown.trans hrequest)]
  dsimp only [setPager]
  rw [hobject, bind_some]
  rw [deallocate_of (update_self ..) (by dsimp only; omega)]
  dsimp only [setPager, bind_some]
  have hself : update s.devPager r (some ds) = s.devPager :=
    update_eq_self_iff.2 (Eq.symm hr)
  rw [update_idem, Nat.add_sub_cancel, hself]
  rfl

omit [PageSize] in
theorem Inv.terminate (h : Inv cfg s a) (hrequest : s.request pager = some request) :
    ∃ s', s.memoryObjectTerminate cfg pager request = some s' ∧
      Inv cfg s' (a.filter fun x => x.2 ≠ pager) := by
  obtain ⟨hport, object, hobject, hobjectPager⟩ := h.request pager request hrequest
  obtain ⟨r, ds, hr, rfl⟩ := h.live pager hport
  obtain ⟨hrefs, -, hknown, hclient⟩ := h.counts r ds hr
  rw [hrequest] at hknown hclient
  have hlookup := (h.port ds.pager r).2 ⟨ds, hr, rfl⟩
  have hlookup' : lookup (devPagerHash cfg)
      (delete (devPagerHash cfg) s.hashtable (.port ds.pager)) (.device ds.device) = some r := by
    rw [h.single.lookup_delete, if_neg (by simp)]
    exact (h.device ds.device r).2 ⟨ds, hr, rfl⟩
  have hterminate : s.memoryObjectTerminate cfg ds.pager request = some {
      hashtable := delete (devPagerHash cfg)
        (delete (devPagerHash cfg) s.hashtable (.port ds.pager)) (.device ds.device)
      devPager := update s.devPager r none
      ports := s.ports.erase ds.pager
      request := update s.request ds.pager none
      object := update s.object request none } := by
    unfold memoryObjectTerminate
    rw [hlookup, bind_eq_bind, bind_some, reference_of hr]
    simp only [bind_eq_bind, bind_some, setPager_self]
    rw [if_pos ⟨hclient, hknown⟩]
    unfold hashLookup at hlookup
    unfold hashDelete hashLookup
    dsimp only [setPager]
    rw [hlookup]
    dsimp only [map_some, bind_some]
    rw [hlookup']
    dsimp only [map_some, bind_some]
    rw [deallocate_of (update_self ..) (by dsimp only; omega)]
    dsimp only [setPager, bind_some]
    rw [deallocate_last (update_self ..) (by dsimp only; omega)]
    dsimp only [setPager]
    rw [update_idem, update_idem]
  refine ⟨_, hterminate, ?_⟩
  have hmem : ∀ r' x, x ∈ update s.devPager r none r' ↔ x ∈ s.devPager r' ∧ x.pager ≠ ds.pager := by
    intro r' x
    rw [update_apply]
    split
    · next heq =>
      refine iff_of_false (by simp) ?_
      rintro ⟨hx, hne⟩
      refine hne ?_
      rw [heq] at hx
      exact congrArg DevPager.pager (some.inj (hx.symm.trans hr))
    · next hne => exact ⟨fun hx => ⟨hx, fun heq => hne (h.unique hx hr heq).1⟩, And.left⟩
  have hdevice : ∀ r', ∀ x ∈ s.devPager r', x.device = ds.device ↔ x.pager = ds.pager := by
    intro r' x hx
    constructor
    · intro heq
      have hrr := (h.device ds.device r').2 ⟨x, hx, heq⟩
      rw [(h.device ds.device r).2 ⟨ds, hr, rfl⟩] at hrr
      obtain rfl := some.inj hrr
      exact congrArg DevPager.pager (some.inj (hx.symm.trans hr))
    · exact fun heq => congrArg DevPager.device (h.unique hx hr heq).2
  have hport' : ∀ p, p ∈ s.ports.erase ds.pager ↔ p ≠ ds.pager ∧ p ∈ s.ports := fun p =>
    h.ports.mem_erase_iff
  have hsingle : Single (delete (devPagerHash cfg) s.hashtable (.port ds.pager)) :=
    h.single.delete _
  constructor
  · exact hsingle.delete _
  · intro p r'
    dsimp only [hashLookup]
    rw [hsingle.lookup_delete, if_neg (by simp), h.single.lookup_delete]
    simp only [hmem, Name.port.injEq]
    have hold := h.port p r'
    unfold hashLookup at hold
    split
    · next heq =>
      refine iff_of_false (by simp) ?_
      rintro ⟨x, ⟨-, hne⟩, hx⟩
      exact hne (hx.trans heq)
    · next hne =>
      rw [hold]
      constructor
      · rintro ⟨x, hx, hp⟩
        exact ⟨x, ⟨hx, fun heq => hne (hp.symm.trans heq)⟩, hp⟩
      · rintro ⟨x, ⟨hx, -⟩, hp⟩
        exact ⟨x, hx, hp⟩
  · intro d r'
    dsimp only [hashLookup]
    rw [hsingle.lookup_delete, h.single.lookup_delete]
    simp only [hmem, Name.device.injEq]
    have hold := h.device d r'
    unfold hashLookup at hold
    split
    · next heq =>
      refine iff_of_false (by simp) ?_
      rintro ⟨x, ⟨hx, hne⟩, hd⟩
      exact hne ((hdevice r' x hx).1 (hd.trans heq))
    · next hne =>
      rw [if_neg (by simp), hold]
      constructor
      · rintro ⟨x, hx, hd⟩
        exact ⟨x, ⟨hx, fun heq => hne (hd.symm.trans ((hdevice r' x hx).2 heq))⟩, hd⟩
      · rintro ⟨x, ⟨hx, -⟩, hd⟩
        exact ⟨x, hx, hd⟩
  · intro r' x hx
    obtain ⟨hx, hne⟩ := (hmem r' x).1 hx
    obtain ⟨hrefs, hp, hreq, hclient⟩ := h.counts r' x hx
    dsimp only
    rw [update_of_ne hne]
    exact ⟨hrefs, (hport' x.pager).2 ⟨hne, hp⟩, hreq, hclient⟩
  · exact h.ports.erase _
  · intro p hp
    obtain ⟨hne, hp⟩ := (hport' p).1 hp
    obtain ⟨r', x, hx, rfl⟩ := h.live p hp
    exact ⟨r', x, (hmem r' x).2 ⟨hx, hne⟩, rfl⟩
  · intro p q hq
    dsimp only at hq ⊢
    rw [update_apply] at hq
    split at hq
    · cases hq
    · next hne =>
      obtain ⟨hp, object', hobject', hpager⟩ := h.request p q hq
      refine ⟨(hport' p).2 ⟨hne, hp⟩, object', ?_, hpager⟩
      rw [update_of_ne]
      · exact hobject'
      · rintro rfl
        have heq := some.inj (hobject'.symm.trans hobject)
        exact hne (hpager.symm.trans (heq ▸ hobjectPager))
  · intro x hx
    obtain ⟨hx, hne⟩ := mem_filter.1 hx
    obtain ⟨r', y, hy, hp, hwindow⟩ := h.asked x hx
    exact ⟨r', y, (hmem r' y).2 ⟨hy, hp ▸ of_decide_eq_true hne⟩, hp, hwindow⟩
  · intro r' x hx
    obtain ⟨hx, hne⟩ := (hmem r' x).1 hx
    exact mem_filter.2 ⟨h.made r' x hx, decide_eq_true hne⟩

/-! Whole runs. -/

theorem pages_iff (cfg : Config) (ds : DevPager) (object : VmObject) (offset length : ℕ) :
    (vmObjectPageMap (deviceMapPage cfg ds) (length / pageSize) (add ds.offset offset)
        object).1 = Request.pages cfg ⟨ds.device, ds.prot, ds.offset⟩ offset length ↔
      (0 < length / pageSize → ds.offset % modulus = 0) := by
  rw [vmObjectPageMap_pages _ _ (add_lt _ _)]
  unfold Request.pages deviceMapPage
  dsimp only
  constructor
  · intro heq hpos
    have hzero := List.map_inj_left.1 heq 0 (mem_range.2 hpos)
    have hfst := congrArg Prod.fst hzero
    dsimp only at hfst
    unfold add modulus at hfst
    unfold modulus
    omega
  · intro hstart
    refine List.map_inj_left.2 fun k hk => ?_
    have hds := hstart (Nat.zero_lt_of_lt (mem_range.1 hk))
    unfold modulus at hds
    have hfst : add (add ds.offset offset) (k * pageSize) = add offset (k * pageSize) := by
      unfold add modulus
      omega
    have hsnd : add ds.offset (add offset (k * pageSize)) = add offset (k * pageSize) := by
      unfold add modulus
      omega
    rw [hfst, hsnd]

omit [PageSize] in
theorem Inv.window_iff (h : Inv cfg s a) (hds : s.devPager r = some ds) (P : Request → Prop) :
    (∀ x ∈ a, x.2 = ds.pager → P x.1) ↔ P ⟨ds.device, ds.prot, ds.offset⟩ := by
  refine ⟨fun hall => hall _ (h.made r ds hds) rfl, fun hwindow x hx hpager => ?_⟩
  obtain ⟨r', ds', hds', hpager', hx'⟩ := h.asked x hx
  obtain ⟨-, rfl⟩ := h.unique hds' hds (hpager'.trans hpager)
  rwa [hx']

omit [PageSize] in
theorem Inv.again (h : Inv cfg s a) (hds : s.devPager r = some ds) :
    Inv cfg s (a ++ [(⟨ds.device, ds.prot, ds.offset⟩, ds.pager)]) :=
  { h with
    asked := fun x hx => (mem_append.1 hx).elim (h.asked x)
      fun hx => ⟨r, ds, hds, by rw [mem_singleton.1 hx], by rw [mem_singleton.1 hx]⟩
    made := fun r' ds' hds' => mem_append_left _ (h.made r' ds' hds') }

theorem Inv.step_deviceMap (h : Inv cfg s a) (isOpen : Bool) (device : ℕ) (prot : VmProt)
    (offset size : ℕ) (record port : Option ℕ) : ∃ r s',
      s.step cfg (.deviceMap isOpen device prot offset size record port) = some (r, s') ∧
      (Shown cfg s (.deviceMap isOpen device prot offset size record port) →
        Inv cfg s' (a.next (.deviceMap isOpen device prot offset size record port) r)) ∧
      (Serves cfg a (.deviceMap isOpen device prot offset size record port) r s' ↔
        Shown cfg s (.deviceMap isOpen device prot offset size record port)) := by
  dsimp only [State.step]
  split
  · next hopen =>
    cases hlookup : s.hashLookup cfg (.device device) with
    | some r =>
      obtain ⟨ds, hds, rfl⟩ := (h.device device r).1 hlookup
      rw [h.setup_again hds]
      have hshown : Shown cfg s (.deviceMap isOpen ds.device prot offset size record port) ↔
          ds.prot = prot ∧ ds.offset = offset := by
        refine ⟨fun hshown => hshown hopen r hlookup ds hds, fun hwindow _ r' hr' ds' hds' => ?_⟩
        obtain rfl : r = r' := some.inj (hlookup.symm.trans hr')
        obtain rfl : ds = ds' := some.inj (hds.symm.trans hds')
        exact hwindow
      refine ⟨_, _, rfl, fun hwindow => ?_, ?_⟩
      · obtain ⟨rfl, rfl⟩ := hshown.1 hwindow
        exact h.again hds
      · rw [hshown]
        refine (h.window_iff hds fun w => w = ⟨ds.device, prot, offset⟩).trans ?_
        rw [Request.mk.injEq, and_iff_right rfl]
    | none =>
      have hshown : Shown cfg s (.deviceMap isOpen device prot offset size record port) := by
        intro _ r hr
        rw [hlookup] at hr
        cases hr
      have hshortage : ∀ record port : Option ℕ, record = none ∨ port = none →
          s.devicePagerSetup cfg device prot offset size record port =
            some (.resourceShortage, s) := by
        rintro record port hnone
        unfold devicePagerSetup
        rw [hlookup]
        rcases hnone with rfl | rfl
        · rfl
        · cases record <;> rfl
      cases hr : record.filter fun r => (s.devPager r).isNone with
      | none =>
        rw [hshortage none _ (.inl rfl)]
        exact ⟨_, _, rfl, fun _ => h, iff_of_true trivial hshown⟩
      | some r =>
        cases hp : port.filter fun p => p ∉ s.ports with
        | none =>
          rw [hshortage _ none (.inr rfl)]
          exact ⟨_, _, rfl, fun _ => h, iff_of_true trivial hshown⟩
        | some p =>
          have hr' : s.devPager r = none :=
            isNone_iff_eq_none.1 (filter_eq_some_iff.1 hr).2
          have hp' : p ∉ s.ports := of_decide_eq_true (filter_eq_some_iff.1 hp).2
          obtain ⟨s', hsetup, hinv⟩ := h.setup_new hlookup hr' hp' prot offset size
          refine ⟨_, s', hsetup, fun _ => hinv, iff_of_true (fun x hx hpager => ?_) hshown⟩
          obtain ⟨r', ds, hds, hpager', -⟩ := h.asked x hx
          exact absurd ((hpager'.trans hpager) ▸ (h.counts r' ds hds).2.1) hp'
  · next hopen => exact ⟨_, _, rfl, fun _ => h, iff_of_true trivial fun h => absurd h hopen⟩

theorem Inv.step_fault (h : Inv cfg s a) (pager offset length : ℕ) : ∃ r s',
    s.step cfg (.fault pager offset length) = some (r, s') ∧ Inv cfg s' a ∧
      (Serves cfg a (.fault pager offset length) r s' ↔
        Shown cfg s (.fault pager offset length)) := by
  dsimp only [State.step]
  split
  · next hnone =>
    refine ⟨_, _, rfl, h, iff_of_true trivial fun _ r hr ds hds hrequest => ?_⟩
    obtain ⟨ds', hds', hpager⟩ := (h.port pager r).1 hr
    obtain rfl := some.inj (hds.symm.trans hds')
    rw [(h.counts r ds hds).2.2.1, hpager] at hrequest
    exact absurd hnone hrequest
  · next request hrequest =>
    obtain ⟨r, ds, object, hds, rfl, hobject, hfault⟩ := h.fault hrequest offset length
    refine ⟨_, _, hfault, ?_, ?_⟩
    · refine { h with request := fun p q hq => ?_ }
      obtain ⟨hp, object', hobject', hpager⟩ := h.request p q hq
      refine ⟨hp, ?_⟩
      dsimp only
      rw [update_apply]
      split
      · next heq =>
        rw [heq] at hobject'
        obtain rfl := some.inj (hobject.symm.trans hobject')
        exact ⟨_, rfl, (vmObjectPageMap_pager ..).trans hpager⟩
      · exact ⟨object', hobject', hpager⟩
    · have hpage : ∃ q object', s.request ds.pager = some q ∧
          update s.object request (some (vmObjectPageMap (deviceMapPage cfg ds)
            (length / pageSize) (add ds.offset offset) object).2) q = some object' ∧
          ∀ x ∈ (vmObjectPageMap (deviceMapPage cfg ds) (length / pageSize)
            (add ds.offset offset) object).1, object'.page x.1 = some ⟨x.2, true, 1⟩ :=
        ⟨request, _, hrequest, update_self .., fun x hx =>
          vmObjectPageMap_page _ _ _ _ x hx⟩
      refine (and_iff_left hpage).trans ((h.window_iff hds fun w =>
        (vmObjectPageMap (deviceMapPage cfg ds) (length / pageSize) (add ds.offset offset)
          object).1 = w.pages cfg offset length).trans
            ((pages_iff cfg ds object offset length).trans (forall_congr' fun _ => ?_)))
      constructor
      · intro hstart r' hr' ds' hds' _
        obtain ⟨_, hds'', hpager⟩ := (h.port ds.pager r').1 hr'
        obtain rfl := some.inj (hds'.symm.trans hds'')
        obtain ⟨-, rfl⟩ := h.unique hds' hds hpager
        exact hstart
      · intro hshown
        refine hshown r ((h.port ds.pager r).2 ⟨ds, hds, rfl⟩) ds hds ?_
        rw [(h.counts r ds hds).2.2.1, hrequest]
        exact nofun

theorem Inv.step (h : Inv cfg s a) (e : Event) : ∃ r s', s.step cfg e = some (r, s') ∧
    (Shown cfg s e → Inv cfg s' (a.next e r)) ∧ (Serves cfg a e r s' ↔ Shown cfg s e) := by
  cases e with
  | deviceMap => exact h.step_deviceMap ..
  | enter pager request =>
    dsimp only [State.step]
    split
    · next hnew =>
      obtain ⟨s', hinit, hinv⟩ := h.enter hnew.1 hnew.2.1 (isNone_iff_eq_none.1 hnew.2.2)
      rw [hinit]
      exact ⟨_, _, rfl, fun _ => hinv, Iff.rfl⟩
    · exact ⟨_, _, rfl, fun _ => h, Iff.rfl⟩
  | fault pager offset length =>
    obtain ⟨r, s', hstep, hinv, hserves⟩ := h.step_fault pager offset length
    exact ⟨r, s', hstep, fun _ => hinv, hserves⟩
  | terminate pager =>
    dsimp only [State.step]
    split
    · exact ⟨_, _, rfl, fun _ => h, Iff.rfl⟩
    · next request hrequest =>
      obtain ⟨s', hterminate, hinv⟩ := h.terminate hrequest
      rw [hterminate]
      exact ⟨_, _, rfl, fun _ => hinv, Iff.rfl⟩

omit [PageSize] in
theorem Inv.start (cfg : Config) : Inv cfg State.start [] where
  single := single_empty
  port _ _ := iff_of_false nofun nofun
  device _ _ := iff_of_false nofun nofun
  counts := nofun
  ports := nodup_nil
  live := nofun
  request := nofun
  asked := nofun
  made := nofun

theorem Inv.serves (s : State) (a : Windows) (e : Event) (h : Inv cfg s a)
    (hshown : Shown cfg s e) : ∃ r s' a', s.step cfg e = some (r, s') ∧
      spec cfg a e r a' s' ∧ Inv cfg s' a' := by
  obtain ⟨r, s', hstep, hinv, hserves⟩ := h.step e
  exact ⟨r, s', _, hstep, ⟨rfl, hserves.2 hshown⟩, hinv hshown⟩

theorem Inv.served (s : State) (a : Windows) (e : Event) (r : Result) (s' : State) (a' : Windows)
    (h : Inv cfg s a) (hstep : s.step cfg e = some (r, s')) (hspec : spec cfg a e r a' s') :
    Shown cfg s e ∧ Inv cfg s' a' := by
  obtain ⟨r', s'', hstep', hinv, hserves⟩ := h.step e
  cases hstep.symm.trans hstep'
  have hshown := hserves.1 hspec.2
  rw [hspec.1]
  exact ⟨hshown, hinv hshown⟩

end Pager

/-- In a run of requests and faults each pager is that of one window, and supplies its pages,
exactly when devices that have a pager are asked for its window only, and all windows with faults
start at the start of their device. -/
theorem deviceMaps_shown (es : List Event) : Does (State.step cfg) (spec cfg) State.start [] es ↔
      Along (State.step cfg) (Shown cfg) State.start es :=
  Does.iff_along (Inv cfg) Inv.serves Inv.served (Inv.start cfg)

instance (s : State) : DecidablePred (Shown cfg s)
  | .deviceMap .. => inferInstanceAs (Decidable (_ → ∀ _ ∈ _, ∀ _ ∈ _, _))
  | .fault .. => inferInstanceAs (Decidable (_ → ∀ _ ∈ _, ∀ _ ∈ _, _ → _))
  | .enter .. => isTrue trivial
  | .terminate .. => isTrue trivial

end Paging

/-! A device with pages of 4096 bytes. -/

local instance fourKilobytes : PageSize := pages4096

/-- Its page frames are numbered by their offsets. -/
def frames : Config where
  address
    | .port p => p
    | .device d => d
  devNumber := id
  dMmap _ _ offset _ := offset / 4096
  pmapPhysAddress frame := frame.toNat * 4096

/-- A fault at the start of a window from 4096 on gives a page at 4096 of the object, and a window
that is asked for with another offset and protection gets the pager of the first. -/
theorem deviceMap_not_shown : ¬Does (State.step frames) (spec frames) State.start []
      [.deviceMap true 1 vmProtDefault 4096 4096 (some 0) (some 2), .enter 2 3, .fault 2 0 4096] ∧
    ¬Does (State.step frames) (spec frames) State.start []
      [.deviceMap true 1 vmProtDefault 0 4096 (some 0) (some 2),
        .deviceMap true 1 vmProtAll 8192 4096 (some 4) (some 5)] := by
  have hshown : ∀ es, Does (State.step frames) (spec frames) State.start [] es →
      Along (State.step frames) (Shown frames) State.start es := fun _ =>
    (Does.iff_along (Inv frames) Inv.serves Inv.served (Inv.start frames)).1
  exact ⟨fun hdoes => absurd (hshown _ hdoes) (by decide +kernel),
    fun hdoes => absurd (hshown _ hdoes) (by decide +kernel)⟩

end MachKernel.Device.Pager
