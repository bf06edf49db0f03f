import MachKernel.Vm.Fault
import MachKernel.Vm.Wire

/-! The whole of `vm_fault_page`: busy, absent and locked pages, pages that a pager is asked for,
and other threads wherever the routine waits or gives up its locks. -/

namespace MachKernel.Vm
open Function
open Word32 Links

/-- `vm_fault_return_t`. -/
inductive VmFaultReturn
  | success
  | retry
  | interrupted
  | memoryShortage
  | fictitiousShortage
  | memoryError
  deriving DecidableEq

inductive WaitResult
  | awakened
  | restart
  | interrupted

/-- What a request to a memory manager returns. -/
inductive RequestReturn
  | success
  | sendInterrupted
  | failure

/-- The fields of a page that say what is going on with its memory manager. -/
structure PageFlags where
  error : Bool
  fictitious : Bool
  pageLock : VmProt
  unlockRequest : VmProt

def vmProtRead : VmProt := ⟨true, false, false⟩

def VmProt.or (p q : VmProt) : VmProt :=
  ⟨p.read || q.read, p.write || q.write, p.execute || q.execute⟩

/-- `*protection &= ~VM_PROT_WRITE`. -/
def VmProt.withoutWrite (p : VmProt) : VmProt := { p with write := false }

/-- The kernel's objects, where the memory of a page is `none` until it has been filled; the flags
of the page at a place; and where `existence_info` does not say that the pager has no page. -/
structure PagingState (α : Type*) where
  kernel : Kernel (Option α)
  flags : ObjId → ℕ → PageFlags
  existence : ObjId → ℕ → Bool

/-- What a fault meets in each turn: what other threads do while it waits and while it has given up
its locks, how waits and requests end, and whether there is a free page and a lock. -/
structure FaultMeets (α : Type*) where
  waiting : ℕ → PagingState α → PagingState α
  meanwhile : ℕ → PagingState α → PagingState α
  waits : ℕ → WaitResult
  requests : ℕ → RequestReturn
  pages : ℕ → Bool
  converts : ℕ → Bool
  locks : ℕ → Bool
  collapse : CollapseGlobals
  cacheLocks : ℕ → Bool

/-- The arguments; `dirtyHandling` says that write permission is not given away, and whether a wait
is interruptible shows in how it ends. -/
structure FaultCall where
  firstObject : ObjId
  firstOffset : ℕ
  faultType : VmProt
  mustBeResident : Bool
  protection : VmProt
  dirtyHandling : Bool

/-- The variables of the search; `firstM` is the offset of the page in the first object. -/
structure FaultVars (α : Type*) where
  paging : PagingState α
  object : ObjId
  offset : ℕ
  firstM : Option ℕ
  accessRequired : VmProt
  met : ℕ

/-- How a turn of the search ends. -/
inductive FaultTurn (α : Type*)
  | again (s : FaultVars α)
  | found (s : FaultVars α) (m : VmPage (Option α))
  | ret (kr : VmFaultReturn) (paging : PagingState α)
  | panic

/-- How the routine ends: with the variables as they were at the last lookup, the page and where it
is, the page in the first object if that is another, and the protection. -/
inductive FaultOutcome (α : Type*)
  | success (seen : FaultVars α) (object : ObjId) (page : VmPage (Option α)) (topPage : Option ℕ)
      (protection : VmProt) (paging : PagingState α)
  | failure (kr : VmFaultReturn) (paging : PagingState α)
  | panic

/-- A page is changed. -/
def VmObject.updatePage {α : Type*} (ob : VmObject α) (offset : ℕ) (f : VmPage α → VmPage α) :
    VmObject α :=
  { ob with memq := ob.memq.map fun p => if p.offset = offset then f p else p }

namespace PagingState
variable {α : Type*} (p : PagingState α)

def objs (i : ObjId) : Option (VmObject (Option α)) := p.kernel.store.objs i

def modify (i : ObjId) (f : VmObject (Option α) → VmObject (Option α)) : PagingState α :=
  { p with kernel := { p.kernel with store := p.kernel.store.modify i f } }

/-- `VM_PAGE_FREE`. -/
def free (i : ObjId) (offset : ℕ) : PagingState α := p.modify i fun ob => ob.pageFree offset

/-- `vm_page_insert` of a page that has been grabbed. -/
def insert (i : ObjId) (offset : ℕ) (fictitious : Bool) : PagingState α :=
  { p.modify i fun ob => ob.pageInsert ⟨offset, none, true, false⟩ with
    flags := update p.flags i (update (p.flags i) offset
      ⟨false, fictitious, vmProtNone, vmProtNone⟩) }

def setBusy (i : ObjId) (offset : ℕ) (busy : Bool) : PagingState α :=
  p.modify i fun ob => ob.updatePage offset fun m => { m with busy := busy }

def fill (i : ObjId) (offset : ℕ) (data : Option α) : PagingState α :=
  p.modify i fun ob => ob.updatePage offset fun m => { m with data := data }

def setFlags (i : ObjId) (offset : ℕ) (flags : PageFlags) : PagingState α :=
  { p with flags := update p.flags i (update (p.flags i) offset flags) }

/-- `vm_object_paging_begin`. -/
def pagingBegin (i : ObjId) : PagingState α :=
  p.modify i fun ob => { ob with pagingInProgress := ob.pagingInProgress + 1 }

/-- `vm_object_paging_end`. -/
def pagingEnd (i : ObjId) : PagingState α :=
  p.modify i fun ob => { ob with pagingInProgress := ob.pagingInProgress - 1 }

/-- `vm_fault_cleanup`; the top page is in the first object. -/
def vmFaultCleanup (object firstObject : ObjId) (topPage : Option ℕ) : PagingState α :=
  match topPage with
  | none => p.pagingEnd object
  | some top => ((p.pagingEnd object).free firstObject top).pagingEnd firstObject

end PagingState

def vmObjectAbsentMax : ℕ := 50

namespace FaultVars
variable {α : Type*} (w : FaultMeets α) (c : FaultCall) (s : FaultVars α)

def cleanup : PagingState α := s.paging.vmFaultCleanup s.object c.firstObject s.firstM

/-- The locks are given up for a while. -/
def unlocked : FaultVars α := { s with paging := w.meanwhile s.met s.paging, met := s.met + 1 }

/-- `block_and_backoff`. -/
def backoff : VmFaultReturn × PagingState α :=
  (match w.waits s.met with
    | .awakened => .retry
    | _ => .interrupted, w.waiting s.met (s.cleanup c))

def blockAndBackoff : FaultTurn α := .ret (s.backoff w c).1 (s.backoff w c).2

/-- The page is being brought in. -/
def waitForPage : FaultTurn α :=
  let s' := { s with paging := w.waiting s.met s.paging, met := s.met + 1 }
  match w.waits s.met with
  | .awakened => .again s'
  | .restart => .ret .retry (s'.cleanup c)
  | .interrupted => .ret .interrupted (s'.cleanup c)

/-- `vm_page_zero_fill` of a page of the object, which is the page wanted. -/
def zeroFill [Zero α] (offset : ℕ) : FaultTurn α :=
  let s := s.unlocked w
  .found { s with paging := s.paging.fill s.object offset (some 0) } ⟨offset, some 0, true, false⟩

/-- A page that its memory manager does not have. -/
def absentPage [Zero α] (ob : VmObject (Option α)) (m : VmPage (Option α)) : FaultTurn α :=
  let offset := add s.offset ob.shadowOffset
  match ob.shadow with
  | none =>
    if w.pages s.met = false then .ret .memoryShortage (s.cleanup c)
    else if s.object ≠ c.firstObject then
      match s.firstM with
      | none => .panic
      | some top =>
        let paging := ((s.paging.free s.object m.offset).pagingEnd s.object).free c.firstObject top
        zeroFill w { s with
          paging := paging.insert c.firstObject c.firstOffset false
          object := c.firstObject
          offset := c.firstOffset
          firstM := none } c.firstOffset
    else
      zeroFill w { s with
        paging := (s.paging.free s.object m.offset).insert s.object offset false
        offset := offset } offset
  | some nextObject =>
    let s' :=
      if c.mustBeResident then { s with paging := s.paging.pagingEnd s.object }
      else if s.object ≠ c.firstObject then
        { s with paging := (s.paging.pagingEnd s.object).free s.object m.offset }
      else { s with
        firstM := some m.offset
        paging := s.paging.modify s.object fun ob =>
          { ob.updatePage m.offset fun m => { m with absent := false, busy := true } with
            absentCount := ob.absentCount - 1 } }
    .again { s' with
      paging := s'.paging.pagingBegin nextObject
      object := nextObject
      offset := offset
      accessRequired := vmProtRead
      met := s.met + 1 }

/-- A page whose use has been locked out. -/
def unlockPage (ob : VmObject (Option α)) (flags : PageFlags) : FaultTurn α :=
  if s.accessRequired.and flags.unlockRequest ≠ s.accessRequired then
    if ob.pagerReady = false then s.blockAndBackoff w c
    else
      let newUnlockRequest := s.accessRequired.or flags.unlockRequest
      let s' := unlocked w { s with
        paging := s.paging.setFlags s.object s.offset
          { flags with unlockRequest := newUnlockRequest } }
      match w.requests s.met with
      | .success => .again s'
      | .sendInterrupted => .ret .interrupted (s'.cleanup c)
      | .failure => .ret .memoryError (s'.cleanup c)
  else s.blockAndBackoff w c

/-- The page waits for data from the memory manager. -/
def awaitData (ob : VmObject (Option α)) : FaultVars α :=
  let flags := s.paging.flags s.object s.offset
  let paging := s.paging.setFlags s.object s.offset
    { flags with fictitious := flags.fictitious && !ob.internal }
  { s with
    paging := paging.modify s.object fun ob =>
      { ob.updatePage s.offset fun m => { m with absent := true } with
        absentCount := ob.absentCount + 1 } }

/-- The request may have blocked, so that the page may have gone. -/
def requestFailed (kr : VmFaultReturn) : FaultTurn α :=
  let waits := ((s.paging.objs s.object).bind fun ob => ob.pageLookup s.offset).any
    fun m => m.absent && m.busy
  let paging := if waits then s.paging.free s.object s.offset else s.paging
  .ret kr (cleanup c { s with paging := paging })

/-- The memory manager is asked for the page, for which there is a busy page now. -/
def requestPage (ob : VmObject (Option α)) : FaultTurn α :=
  if ob.pagerReady = false then
    blockAndBackoff w c { s with paging := s.paging.free s.object s.offset }
  else if ob.internal = true ∧ w.converts s.met = false then
    .ret .memoryShortage (cleanup c { s with paging := s.paging.free s.object s.offset })
  else if ob.internal = false ∧ vmObjectAbsentMax < ob.absentCount then
    blockAndBackoff w c { s with paging := s.paging.free s.object s.offset }
  else
    let s' := (s.awaitData ob).unlocked w
    match w.requests s.met with
    | .success => .again s'
    | .sendInterrupted => s'.requestFailed c .interrupted
    | .failure => s'.requestFailed c .memoryError

/-- There is nothing in the object: on to the next one, or to the page in the first object. -/
def nextObject [Zero α] (ob : VmObject (Option α)) : FaultTurn α :=
  let offset := add s.offset ob.shadowOffset
  match ob.shadow with
  | none =>
    match s.firstM with
    | none => .panic
    | some top =>
      let s' := if s.object ≠ c.firstObject then
          { s with
            paging := s.paging.pagingEnd s.object
            object := c.firstObject
            offset := c.firstOffset }
        else { s with offset := offset }
      have s' := { s' with firstM := none, accessRequired := vmProtRead }
      have flags := s'.paging.flags s'.object top
      if flags.fictitious = true ∧ w.converts s.met = false then
        .ret .memoryShortage ((s'.paging.free s'.object top).pagingEnd s'.object)
      else
        zeroFill w { s' with
          paging := s'.paging.setFlags s'.object top { flags with fictitious := false } } top
  | some nextObject =>
    let paging := if s.object ≠ c.firstObject ∨ c.mustBeResident = true then
      s.paging.pagingEnd s.object else s.paging
    .again { s with
      paging := paging.pagingBegin nextObject
      object := nextObject
      offset := offset
      accessRequired := vmProtRead
      met := s.met + 1 }

/-- There is no page. -/
def noPage [Zero α] (ob : VmObject (Option α)) : FaultTurn α :=
  let lookForPage : Bool :=
    ob.pagerCreated && s.paging.existence s.object (add s.offset ob.pagingOffset)
  if (lookForPage = true ∨ s.object = c.firstObject) ∧ c.mustBeResident = false then
    if w.pages s.met = false then .ret .fictitiousShortage (s.cleanup c)
    else
      let s := { s with paging := s.paging.insert s.object s.offset true }
      if lookForPage then s.requestPage w c ob
      else if s.object = c.firstObject then
        nextObject w c { s with firstM := some s.offset } ob
      else s.nextObject w c ob
  else if s.object = c.firstObject then nextObject w c { s with firstM := none } ob
  else s.nextObject w c ob

/-- A turn of the search. -/
def look [Zero α] : FaultTurn α :=
  match s.paging.objs s.object with
  | none => .panic
  | some ob =>
    match ob.pageLookup s.offset with
    | none => s.noPage w c ob
    | some m =>
      let flags := s.paging.flags s.object s.offset
      if m.busy then s.waitForPage w c
      else if flags.error then
        .ret .memoryError (cleanup c { s with paging := s.paging.free s.object s.offset })
      else if m.absent then s.absentPage w c ob m
      else if s.accessRequired.and flags.pageLock ≠ vmProtNone then s.unlockPage w c ob flags
      else .found { s with paging := s.paging.setBusy s.object s.offset true }
        { m with busy := true }

/-- How the search ends: with the variables at the last lookup, those after it, and the page; none
while it has not come to its end. -/
inductive SearchEnd (α : Type*)
  | found (seen s : FaultVars α) (m : VmPage (Option α))
  | ret (kr : VmFaultReturn) (paging : PagingState α)
  | panic

def search [Zero α] : ℕ → FaultVars α → Option (SearchEnd α)
  | 0, _ => none
  | turns + 1, s =>
    match s.look w c with
    | .again s' => search turns s'
    | .found s' m => some (.found s s' m)
    | .ret kr paging => some (.ret kr paging)
    | .panic => some .panic

def releasePage (m : VmPage (Option α)) : FaultVars α :=
  { s with paging := s.paging.setBusy s.object m.offset false }

/-- The page has been found further down the chain: to write it, it is copied into the first object,
which is collapsed then. -/
def copyUp (seen : FaultVars α) (m : VmPage (Option α)) (protection : VmProt) (turns : ℕ) :
    Option (FaultOutcome α) :=
  if c.faultType.write then
    if w.pages s.met = false then
      some (.failure .memoryShortage ((s.releasePage m).cleanup c))
    else
      let s := s.unlocked w
      let paging := (s.paging.setBusy s.object m.offset false).pagingEnd s.object
      match s.firstM with
      | none => some .panic
      | some top =>
        let paging := (paging.free c.firstObject top).insert c.firstObject c.firstOffset false
        let paging := (paging.fill c.firstObject c.firstOffset m.data).pagingEnd c.firstObject
        match paging.kernel.store.vmObjectCollapse w.collapse w.cacheLocks (some c.firstObject)
            turns with
        | .error .running => none
        | .error .panic => some .panic
        | .ok store =>
          let paging := { paging with kernel := { paging.kernel with store := store } }
          some (.success seen c.firstObject ⟨c.firstOffset, m.data, true, false⟩ none protection
            (paging.pagingBegin c.firstObject))
  else some (.success seen s.object m s.firstM protection.withoutWrite s.paging)

/-- The page is in the first object: before it is written, the copy object gets it. -/
def copyLoop (seen : FaultVars α) (m : VmPage (Option α)) (protection : VmProt) :
    ℕ → FaultVars α → Option (FaultOutcome α)
  | 0, _ => none
  | turns + 1, s =>
    match (s.paging.objs c.firstObject).bind VmObject.copy with
    | none => some (.success seen s.object m s.firstM protection s.paging)
    | some copyObject =>
      if c.faultType.write = false then
        some (.success seen s.object m s.firstM protection.withoutWrite s.paging)
      else if c.mustBeResident then
        some (.success seen s.object m s.firstM protection s.paging)
      else if w.locks s.met = false then copyLoop seen m protection turns (s.unlocked w)
      else
        match s.paging.objs copyObject with
        | none => some .panic
        | some cob =>
          let copyOffset := sub c.firstOffset cob.shadowOffset
          match cob.pageLookup copyOffset with
          | some copyM =>
            if copyM.busy then
              let (kr, paging) := (s.releasePage m).backoff w c
              some (.failure kr paging)
            else some (.success seen s.object m s.firstM protection s.paging)
          | none =>
            if w.pages s.met = false then
              some (.failure .memoryShortage ((s.releasePage m).cleanup c))
            else
              let copied := (s.paging.insert copyObject copyOffset false).fill copyObject
                copyOffset m.data
              if cob.pagerCreated = false then
                some (.success seen s.object m s.firstM protection
                  (copied.setBusy copyObject copyOffset false))
              else
                -- the page goes to the pager, and meanwhile there is one more reference
                let copied := (copied.modify copyObject fun ob =>
                  { ob with refCount := ob.refCount + 1 }).free copyObject copyOffset
                let paging := { copied with kernel := { copied.kernel with
                  store := copied.kernel.store.dataInitialize cob copyOffset m.data } }
                let s := unlocked w { s with paging := paging }
                match s.paging.objs copyObject with
                | none => some .panic
                | some cob =>
                  if cob.shadow ≠ some s.object ∨ cob.refCount = 1 then
                    copyLoop seen m protection turns { s with paging := { s.paging with
                      kernel := s.paging.kernel.vmObjectDeallocate (some copyObject) } }
                  else
                    some (.success seen s.object m s.firstM protection
                      (s.paging.modify copyObject fun ob =>
                        { ob with refCount := ob.refCount - 1 }))

end FaultVars

/-- `vm_fault_page`. A wait with a continuation goes on where it was. -/
def vmFaultPage {α : Type*} [Zero α] (w : FaultMeets α) (c : FaultCall) (turns : ℕ)
    (paging : PagingState α) : Option (FaultOutcome α) :=
  let protection :=
    if c.dirtyHandling ∧ c.faultType.write = false then c.protection.withoutWrite
    else c.protection
  match FaultVars.search w c turns ⟨paging, c.firstObject, c.firstOffset, none, c.faultType, 0⟩ with
  | none => none
  | some (.ret kr paging) => some (.failure kr paging)
  | some .panic => some .panic
  | some (.found seen s m) =>
    if s.object ≠ c.firstObject then s.copyUp w c seen m protection turns
    else FaultVars.copyLoop w c seen m protection turns s

end MachKernel.Vm
