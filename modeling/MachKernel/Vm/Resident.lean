import MachKernel.Vm.Object

/-! Resident pages: the table that finds a page by its object and offset, and the queues that pages
are allocated and replaced from (`vm/vm_resident.c`, `vm/vm_page.h`). -/

namespace MachKernel.Vm
open Function
open Word32

abbrev PageId := ℕ

/-- `struct vm_page`. The links `next`, `listq` and `pageq` are the lists that the page is on. -/
structure ResidentPage where
  object : Option ObjId
  offset : ℕ
  wireCount : ℕ
  inactive : Bool
  active : Bool
  laundry : Bool
  free : Bool
  reference : Bool
  busy : Bool
  wanted : Bool
  tabled : Bool
  fictitious : Bool
  isPrivate : Bool
  absent : Bool
  physAddr : ℕ
deriving DecidableEq

def vmPageTemplate : ResidentPage where
  object := none
  offset := 0
  wireCount := 0
  inactive := false
  active := false
  laundry := false
  free := false
  reference := false
  busy := true
  wanted := false
  tabled := false
  fictitious := false
  isPrivate := false
  absent := false
  physAddr := 0

/-- A `short`. -/
def short (x : ℤ) : ℤ := x.bmod (2 ^ 16)

/-- What an object knows of its pages. -/
structure ObjectPages where
  memq : List PageId
  residentPageCount : ℤ
  lastAlloc : ℕ
  absentCount : ℕ

/-- The module: all pages by number, the hash buckets, the objects, the queues and the counts. -/
structure Resident where
  pages : PageId → ResidentPage
  npages : ℕ
  buckets : ℕ → List PageId
  objects : ObjId → ObjectPages
  queueFree : List PageId
  queueFictitious : List PageId
  queueActive : List PageId
  queueInactive : List PageId
  freeCount : ℤ
  fictitiousCount : ℤ
  activeCount : ℤ
  inactiveCount : ℤ
  wireCount : ℤ
  laundryCount : ℤ

/-- The hash of `vm_page_hash`, and the variables that may be patched. -/
class ResidentConfig where
  vmPageHash : ObjId → ℕ → ℕ
  deactivateBehind : Bool
  freeReserved : ℤ
  fictitiousAddr : ℕ

/-- `vm_page_hash` with objects at some addresses and a mask for the buckets. -/
def maskedHash [PageSize] (address : ObjId → ℕ) (mask : ℕ) (object : ObjId) (offset : ℕ) : ℕ :=
  add (address object) (atop offset) &&& mask

namespace Resident

def modifyPage (s : Resident) (p : PageId) (f : ResidentPage → ResidentPage) : Resident :=
  { s with pages := update s.pages p (f (s.pages p)) }

def modifyObject (s : Resident) (o : ObjId) (f : ObjectPages → ObjectPages) : Resident :=
  { s with objects := update s.objects o (f (s.objects o)) }

/-! ## Queues -/

/-- A page that is on the active queue leaves it. -/
def leaveActive (s : Resident) (mem : PageId) : Resident :=
  if (s.pages mem).active = true then
    { s.modifyPage mem fun p => { p with active := false } with
      queueActive := s.queueActive.erase mem
      activeCount := s.activeCount - 1 }
  else s

def leaveInactive (s : Resident) (mem : PageId) : Resident :=
  if (s.pages mem).inactive = true then
    { s.modifyPage mem fun p => { p with inactive := false } with
      queueInactive := s.queueInactive.erase mem
      inactiveCount := s.inactiveCount - 1 }
  else s

/-- `VM_PAGE_QUEUES_REMOVE`. -/
def queuesRemove (s : Resident) (mem : PageId) : Resident :=
  (s.leaveActive mem).leaveInactive mem

/-- A page on the active queue, at its end. -/
def enterActive (s : Resident) (mem : PageId) : Resident :=
  { s.modifyPage mem fun p => { p with active := true } with
    queueActive := s.queueActive ++ [mem]
    activeCount := s.activeCount + 1 }

def enterInactive (s : Resident) (m : PageId) : Resident :=
  { s.modifyPage m fun p => { p with inactive := true } with
    queueInactive := s.queueInactive ++ [m]
    inactiveCount := s.inactiveCount + 1 }

/-- `vm_page_wire`; the count has 16 bits. -/
def vmPageWire (s : Resident) (mem : PageId) : Resident :=
  let s :=
    if (s.pages mem).wireCount = 0 then
      let s := s.queuesRemove mem
      if (s.pages mem).isPrivate = false ∧ (s.pages mem).fictitious = false then
        { s with wireCount := s.wireCount + 1 }
      else s
    else s
  s.modifyPage mem fun p => { p with wireCount := (p.wireCount + 1) % 2 ^ 16 }

def vmPageUnwire (s : Resident) (mem : PageId) : Resident :=
  let s := s.modifyPage mem fun p => { p with wireCount := (p.wireCount + (2 ^ 16 - 1)) % 2 ^ 16 }
  if (s.pages mem).wireCount = 0 then
    let s := s.enterActive mem
    if (s.pages mem).isPrivate = false ∧ (s.pages mem).fictitious = false then
      { s with wireCount := s.wireCount - 1 }
    else s
  else s

def vmPageDeactivate (s : Resident) (m : PageId) : Resident :=
  let s :=
    if (s.pages m).active = true ∨ (s.pages m).inactive = true ∧ (s.pages m).reference = true then
      (s.modifyPage m fun p => { p with reference := false }).queuesRemove m
    else s
  if (s.pages m).wireCount = 0 ∧ (s.pages m).inactive = false then s.enterInactive m else s

/-- `vm_page_activate`; it panics when the page is active already. -/
def vmPageActivate (s : Resident) (m : PageId) : Option Resident :=
  let s := s.leaveInactive m
  if (s.pages m).wireCount = 0 then
    if (s.pages m).active = true then none else some (s.enterActive m)
  else some s

/-! ## The table -/

section
variable [ResidentConfig]

/-- The bucket of an object and an offset; no object hashes like object 0. -/
def bucketOf (object : Option ObjId) (offset : ℕ) : ℕ :=
  ResidentConfig.vmPageHash (object.getD 0) offset

def vmPageLookup (s : Resident) (object : ObjId) (offset : ℕ) : Option PageId :=
  (s.buckets (bucketOf (some object) offset)).find? fun m =>
    (s.pages m).object = some object ∧ (s.pages m).offset = offset

/-- The page goes to the front of its bucket and to the end of its object's list. -/
def tableEnter (s : Resident) (mem : PageId) (object : ObjId) (offset : ℕ) : Resident :=
  let bucket := bucketOf (some object) offset
  let s := s.modifyPage mem fun p => { p with object := some object, offset := offset, tabled := true }
  let s := { s with buckets := update s.buckets bucket (mem :: s.buckets bucket) }
  s.modifyObject object fun o =>
    { o with memq := o.memq ++ [mem], residentPageCount := short (o.residentPageCount + 1) }

/-- The end of `vm_page_insert`: on sequential access the page before is deactivated. -/
def noteAlloc [PageSize] (s : Resident) (object : ObjId) (offset : ℕ) : Resident :=
  let lastAlloc := (s.objects object).lastAlloc
  let s :=
    if ResidentConfig.deactivateBehind = true ∧ offset = add lastAlloc pageSize then
      match s.vmPageLookup object lastAlloc with
      | some lastMem => if (s.pages lastMem).busy = true then s else s.vmPageDeactivate lastMem
      | none => s
    else s
  s.modifyObject object fun o => { o with lastAlloc := offset }

def vmPageInsert [PageSize] (s : Resident) (mem : PageId) (object : ObjId) (offset : ℕ) :
    Option Resident :=
  if (s.pages mem).tabled = true then none
  else some ((s.tableEnter mem object offset).noteAlloc object offset)

def vmPageRemove (s : Resident) (mem : PageId) : Resident :=
  let object := (s.pages mem).object
  let bucket := bucketOf object (s.pages mem).offset
  let s := { s with buckets := update s.buckets bucket ((s.buckets bucket).erase mem) }
  let s := s.modifyObject (object.getD 0) fun o =>
    { o with memq := o.memq.erase mem, residentPageCount := short (o.residentPageCount - 1) }
  s.modifyPage mem fun p => { p with tabled := false }

def vmPageRename [PageSize] (s : Resident) (mem : PageId) (newObject : ObjId) (newOffset : ℕ) :
    Option Resident :=
  (s.vmPageRemove mem).vmPageInsert mem newObject newOffset

/-! ## Allocation -/

omit [ResidentConfig] in
def vmPageInit (s : Resident) (mem : PageId) (physAddr : ℕ) : Resident :=
  s.modifyPage mem fun _ => { vmPageTemplate with physAddr := physAddr }

def vmPageRelease (s : Resident) (mem : PageId) : Option Resident :=
  if (s.pages mem).free = true then none
  else
    some { s.modifyPage mem fun p => { p with free := true } with
      queueFree := mem :: s.queueFree
      freeCount := s.freeCount + 1 }

def vmPageReleaseFictitious (s : Resident) (m : PageId) : Option Resident :=
  if (s.pages m).free = true then none
  else
    some { s.modifyPage m fun p => { p with free := true } with
      queueFictitious := m :: s.queueFictitious
      fictitiousCount := s.fictitiousCount + 1 }

/-- `vm_page_grab`; it panics when pages are counted and there are none. -/
def vmPageGrab (s : Resident) (vmPrivilege : Bool) : Option (Option PageId × Resident) :=
  if s.freeCount < ResidentConfig.freeReserved ∧ vmPrivilege = false then some (none, s)
  else
    match s.queueFree with
    | [] => none
    | mem :: rest =>
      some (some mem, { s.modifyPage mem fun p => { p with free := false } with
        queueFree := rest
        freeCount := s.freeCount - 1 })

def vmPageGrabFictitious (s : Resident) : Option PageId × Resident :=
  match s.queueFictitious with
  | [] => (none, s)
  | m :: rest =>
    (some m, { s.modifyPage m fun p => { p with free := false } with
      queueFictitious := rest
      fictitiousCount := s.fictitiousCount - 1 })

/-- One turn of `vm_page_more_fictitious`: a page structure from the zone. -/
def vmPageMoreFictitious (s : Resident) : Option Resident :=
  let m := s.npages
  let s := ({ s with npages := s.npages + 1 } : Resident).vmPageInit m ResidentConfig.fictitiousAddr
  (s.modifyPage m fun p => { p with fictitious := true }).vmPageReleaseFictitious m

/-- One turn of `vm_page_create`: a page structure for memory that was found. -/
def vmPageCreate (s : Resident) (paddr : ℕ) : Option Resident :=
  let m := s.npages
  (({ s with npages := s.npages + 1 } : Resident).vmPageInit m paddr).vmPageRelease m

/-- `vm_page_convert`: a real page's memory goes to a fictitious page. -/
def vmPageConvert (s : Resident) (vmPrivilege : Bool) (m : PageId) : Option (Bool × Resident) :=
  (s.vmPageGrab vmPrivilege).bind fun (realM, s) =>
    match realM with
    | none => some (false, s)
    | some realM =>
      let physAddr := (s.pages realM).physAddr
      let s := s.modifyPage m fun p => { p with physAddr := physAddr, fictitious := false }
      let s := s.modifyPage realM fun p =>
        { p with physAddr := ResidentConfig.fictitiousAddr, fictitious := true }
      (s.vmPageReleaseFictitious realM).map fun s => (true, s)

/-! The parts of `vm_page_free`, for a page that is in no object any more. -/

def freeWiring (s : Resident) (mem : PageId) : Resident :=
  if (s.pages mem).wireCount ≠ 0 then
    let s :=
      if (s.pages mem).isPrivate = false ∧ (s.pages mem).fictitious = false then
        { s with wireCount := s.wireCount - 1 }
      else s
    s.modifyPage mem fun p => { p with wireCount := 0 }
  else s

def freeLaundry (s : Resident) (mem : PageId) : Resident :=
  if (s.pages mem).laundry = true then
    { s.modifyPage mem fun p => { p with laundry := false } with laundryCount := s.laundryCount - 1 }
  else s

/-- `PAGE_WAKEUP_DONE`, and `vm_object_absent_release` for a page without data. -/
def freeWakeup (s : Resident) (mem : PageId) : Resident :=
  let s := s.modifyPage mem fun p => { p with busy := false, wanted := false }
  if (s.pages mem).absent = true then
    s.modifyObject ((s.pages mem).object.getD 0) fun o => { o with absentCount := sub o.absentCount 1 }
  else s

/-- The structure is initialized and released. -/
def freeStructure (s : Resident) (mem : PageId) : Option Resident :=
  if (s.pages mem).isPrivate = true ∨ (s.pages mem).fictitious = true then
    let s := s.vmPageInit mem ResidentConfig.fictitiousAddr
    (s.modifyPage mem fun p => { p with fictitious := true }).vmPageReleaseFictitious mem
  else (s.vmPageInit mem (s.pages mem).physAddr).vmPageRelease mem

def freeUntabled (s : Resident) (mem : PageId) : Option Resident :=
  ((((s.queuesRemove mem).freeWiring mem).freeLaundry mem).freeWakeup mem).freeStructure mem

def vmPageFree (s : Resident) (mem : PageId) : Option Resident :=
  if (s.pages mem).free = true then none
  else if (s.pages mem).tabled = true then (s.vmPageRemove mem).freeUntabled mem
  else s.freeUntabled mem

/-- `vm_page_replace`: a page that is at the place already is cut out of the bucket and freed. -/
def vmPageReplace (s : Resident) (mem : PageId) (object : ObjId) (offset : ℕ) : Option Resident :=
  if (s.pages mem).tabled = true then none
  else
    let bucket := bucketOf (some object) offset
    let s := s.modifyPage mem fun p => { p with object := some object, offset := offset }
    let found := (s.buckets bucket).find? fun m =>
      (s.pages m).object = some object ∧ (s.pages m).offset = offset
    let s :=
      match found with
      | none => some s
      | some m =>
        let s := { s with buckets := update s.buckets bucket ((s.buckets bucket).erase m) }
        let s := s.modifyObject object fun o =>
          { o with memq := o.memq.erase m, residentPageCount := short (o.residentPageCount - 1) }
        (s.modifyPage m fun p => { p with tabled := false }).vmPageFree m
    s.map fun s => s.tableEnter mem object offset

/-- One turn of `vm_object_page_map`, with a fictitious page in hand. -/
def vmObjectPageMap [PageSize] (s : Resident) (m : PageId) (object : ObjId) (offset addr : ℕ) :
    Option Resident :=
  let s :=
    match s.vmPageLookup object offset with
    | none => some s
    | some oldPage => s.vmPageFree oldPage
  s.bind fun s =>
    let s := s.vmPageInit m addr
    let s := s.modifyPage m fun p => { p with isPrivate := true, wireCount := 1 }
    (s.vmPageInsert m object offset).map fun s =>
      s.modifyPage m fun p => { p with busy := false, wanted := false }

/-- The theft of a page in `vm_map_copyin_page_list`: it leaves its object and is unwired, for the
mapping is deleted afterwards. -/
def stealPage (s : Resident) (m : PageId) : Resident :=
  (s.vmPageRemove m).modifyPage m fun p => { p with wireCount := 0 }

end

end Resident

end MachKernel.Vm
