import MachKernel.Vm.Delete
import MachKernel.Vm.Enter
import MachKernel.Vm.Resident

/-! Map copy objects and what consumes them: `vm_map_copy_discard`, `vm_map_copyout` with its form
for page lists, and `vm_map_copy_overwrite`. -/

namespace MachKernel.Vm
open Function
open Word32 Linked

abbrev CopyId := ℕ

/-- Where a page is: on the free list, in no object, or in an object. -/
inductive PagePlace
  | free
  | stolen (busy : Bool)
  | tabled (object : ObjId) (offset : ℕ) (busy : Bool)
  deriving DecidableEq

/-- What a continuation does when it is invoked: it fails, or it returns no copy, or a page list
that may have a continuation of its own. -/
inductive Cont
  | fails (result : KernReturn)
  | null
  | pageList (offset size : ℕ) (pages : List (PageId × PagePlace)) (cont : Option Cont)

/-- The union `c_u` of a copy, by its type. -/
inductive CopyBody
  | entryList (entries : List VmMapEntry)
  | object (object : Option ObjId)
  | pageList (pageList : List (Option PageId)) (npages : ℕ) (cont : Option Cont)

/-- `struct vm_map_copy`. -/
structure MapCopy where
  offset : ℕ
  size : ℕ
  body : CopyBody

/-- A destination map, the pages, and the copies in `vm_map_copy_zone`. -/
structure CopyoutState (α : Type*) extends MapState α where
  pages : PageId → PagePlace
  npages : ℕ
  queueFree : List PageId
  zone : CopyId → Option MapCopy
  nextCopy : CopyId

open CopyoutState

/-- What happens while the map is unlocked: what other threads make of it and of the objects, and
how a copy into permanent memory ends. -/
structure Unlocked (α : Type*) where
  others : MapState α → MapState α
  result : KernReturn
  copySize : ℕ

/-- The arguments of `vm_object_collapse` that are not its object. -/
structure CollapseRun where
  globals : CollapseGlobals
  lockTry : ℕ → Bool
  turns : ℕ

namespace CopyoutState
variable {α : Type*} (s : CopyoutState α)

def setPage (m : PageId) (place : PagePlace) : CopyoutState α :=
  { s with pages := update s.pages m place }

def setCopy (c : CopyId) (copy : MapCopy) : CopyoutState α :=
  { s with zone := update s.zone c (some copy) }

/-- `zfree` of a copy. -/
def zfree (c : CopyId) : CopyoutState α := { s with zone := update s.zone c none }

/-- `vm_object_paging_end`. -/
def pagingEnd (object : ObjId) : CopyoutState α :=
  { s with
    kernel := { s.kernel with
      store := s.kernel.store.modify object fun ob =>
        { ob with pagingInProgress := ob.pagingInProgress - 1 } } }

/-- `vm_page_free`; it panics when the page is free already. -/
def vmPageFree (m : PageId) : Option (CopyoutState α) :=
  if s.pages m = .free then none
  else some { s.setPage m .free with queueFree := m :: s.queueFree }

/-- `vm_page_replace`: a page that is at the place already is freed. -/
def vmPageReplace (m : PageId) (object : ObjId) (offset : ℕ) : Option (CopyoutState α) :=
  let enter (busy : Bool) : CopyoutState α :=
    match (List.range s.npages).find? fun q =>
        s.pages q = .tabled object offset true ∨ s.pages q = .tabled object offset false with
    | none => s.setPage m (.tabled object offset busy)
    | some q =>
      { (s.setPage q .free).setPage m (.tabled object offset busy) with
        queueFree := q :: s.queueFree }
  match s.pages m with
  | .tabled _ _ _ => none
  | .stolen busy => some (enter busy)
  | .free => some (enter false)

/-! ## Discarding -/

/-- `vm_map_copy_page_discard`: stolen pages are freed, the others are not busy any more. -/
def copyPageDiscard (pageList : List (Option PageId)) : ℕ → CopyoutState α → Option (CopyoutState α)
  | 0, s => some s
  | npages + 1, s =>
    match (pageList[npages]?).join with
    | none => copyPageDiscard pageList npages s
    | some m =>
      match s.pages m with
      | .tabled object offset _ =>
        copyPageDiscard pageList npages ((s.setPage m (.tabled object offset false)).pagingEnd object)
      | _ => (s.vmPageFree m).bind (copyPageDiscard pageList npages)

/-- `vm_map_copy_discard`, `none` where it reads a copy that is not there. A continuation is aborted,
which shows in the source map only. -/
def vmMapCopyDiscard : Option CopyId → Option (CopyoutState α)
  | none => some s
  | some c =>
    match s.zone c with
    | none => none
    | some copy =>
      match copy.body with
      | .entryList entries =>
        some (zfree { s with
          kernel := entries.foldl (fun k entry => k.vmObjectDeallocate entry.object) s.kernel } c)
      | .object object =>
        some (zfree { s with kernel := s.kernel.vmObjectDeallocate object } c)
      | .pageList pageList npages _ => (s.copyPageDiscard pageList npages).map fun s => s.zfree c

/-- A turn of `vm_map_copy_steal_pages`: a page in an object is copied to a new one. -/
def stealPage (m : PageId) : Option (PageId × CopyoutState α) :=
  match s.pages m with
  | .tabled object offset _ =>
    match s.queueFree with
    | [] => none
    | newM :: rest =>
      let s := (s.setPage m (.tabled object offset false)).pagingEnd object
      some (newM, { s.setPage newM (.stolen true) with queueFree := rest })
  | _ => some (m, s)

def stealPages : List (Option PageId) → ℕ → CopyoutState α → Option
    (List (Option PageId) × CopyoutState α)
  | l, 0, s => some (l, s)
  | some m :: l, npages + 1, s =>
    (s.stealPage m).bind fun (m, s) => (stealPages l npages s).map fun (l, s) => (some m :: l, s)
  | _, _ + 1, _ => none

/-- The pages of a list are stolen if the first of them is in an object. -/
def stealTabled (c : CopyId) : Option (CopyoutState α) :=
  match s.zone c with
  | some ⟨offset, size, .pageList (some m :: l) npages cont⟩ =>
    match s.pages m with
    | .tabled _ _ _ =>
      (s.stealPages (some m :: l) npages).map fun (l, s) =>
        s.setCopy c ⟨offset, size, .pageList l npages cont⟩
    | _ => some s
  | _ => none

end CopyoutState

/-! ## Room for a copy -/

/-- The loop that looks for room after `last`: the address found and the entry before it. -/
def copyoutSpace (size maxOffset : ℕ) : ℕ → Option ℕ → List VmMapEntry → Option (ℕ × Option ℕ)
  | start, last, post =>
    let stop := add start size
    if maxOffset < stop ∨ stop < start then none
    else
      match post with
      | [] => some (start, last)
      | next :: rest =>
        if stop < next.vmeStart then some (start, last)
        else copyoutSpace size maxOffset next.vmeEnd (some next.id) rest

namespace VmMap

/-- The end of the entry that the search begins with. -/
def copyoutStart (m : VmMap) : ℕ :=
  match m.firstFree with
  | none => m.minOffset
  | some i => m.vmeEndOf (some i)

/-- The entries of a copy as they go to the map, under names of their own. -/
def relocate (m : VmMap) (adjustment : ℕ) (entries : List VmMapEntry) : List VmMapEntry :=
  entries.zipIdx.map fun (entry, i) =>
    { entry with
      id := m.nextId + i
      vmeStart := add entry.vmeStart adjustment
      vmeEnd := add entry.vmeEnd adjustment
      inheritance := vmInheritDefault
      protection := vmProtDefault
      maxProtection := vmProtAll }

/-- `vm_map_copy_insert`, with the hints and the size. -/
def copyInsert (m : VmMap) (last : Option ℕ) (entries : List VmMapEntry) (size : ℕ) : VmMap :=
  { m with
    entries := entries.foldr (insertAfter VmMapEntry.id last) m.entries
    nentries := m.nentries + entries.length
    size := add m.size size
    firstFree := if m.firstFree = last then Linked.last VmMapEntry.id entries else m.firstFree
    hint := Linked.last VmMapEntry.id entries
    nextId := m.nextId + entries.length }

end VmMap

namespace MapState
variable {α : Type*}

/-- The search from `StartAgain` on, with what is left of the times that the map is unlocked: no
room in the end, or an address and the entry before it. -/
def findRoom (size : ℕ) : List (Unlocked α) → MapState α →
    Option (Option (ℕ × Option ℕ) × MapState α × List (Unlocked α))
  | ws, s =>
    let m := s.map.lock
    match copyoutSpace size m.maxOffset m.copyoutStart m.firstFree
      (after VmMapEntry.id m.firstFree m.entries) with
    | some room => some (some room, ⟨s.kernel, m⟩, ws)
    | none =>
      if m.waitForSpace ∧ size ≤ sub m.maxOffset m.minOffset then
        match ws with
        | [] => none
        | w :: ws => findRoom size ws (w.others ⟨s.kernel, m⟩)
      else some (none, ⟨s.kernel, m⟩, ws)

/-- `vm_map_enter`; `none` while it waits for space. -/
def vmMapEnter [PageSize] (run : CollapseRun) (address : ℕ) (args : EnterArgs) :
    List (Unlocked α) → MapState α → Option (KernReturn × ℕ × MapState α)
  | ws, s =>
    match s.map.enterPass s.kernel.store run.globals run.lockTry run.turns address args with
    | .ret kr address m store => some (kr, address, ⟨{ s.kernel with store := store }, m⟩)
    | .wait m =>
      match ws with
      | [] => none
      | w :: ws => vmMapEnter run address args ws (w.others ⟨s.kernel, m⟩)
    | .collapsing => none

end MapState

namespace CopyoutState
variable {α : Type*}

/-! ## Copying out -/

section
variable [PageSize] (s : CopyoutState α)

/-- The part of `vm_map_copyout` for a list of entries. The pages of wired entries are only
mapped. -/
def copyoutEntries (ws : List (Unlocked α)) (c : CopyId) (copy : MapCopy)
    (entries : List VmMapEntry) : Option (KernReturn × ℕ × CopyoutState α) :=
  let vmCopyStart := truncPage copy.offset
  let size := sub (roundPage (add copy.offset copy.size)) vmCopyStart
  match s.toMapState.findRoom size ws with
  | none => none
  | some (none, t, _) => some (.noSpace, 0, { s with toMapState := t })
  | some (some (start, last), t, _) =>
    let entries := t.map.relocate (sub start vmCopyStart) entries
    let t : MapState α := ⟨t.kernel, t.map.copyInsert last entries size⟩
    some (.success, add start (sub copy.offset vmCopyStart),
      zfree { s with toMapState := t } c)

/-- The part of `vm_map_copyout` for an object. -/
def copyoutObject (run : CollapseRun) (ws : List (Unlocked α)) (c : CopyId) (copy : MapCopy)
    (object : Option ObjId) : Option (KernReturn × ℕ × CopyoutState α) :=
  let args : EnterArgs :=
    { size := copy.size, mask := 0, anywhere := true, object := object, offset := copy.offset
      needsCopy := false, curProtection := vmProtDefault, maxProtection := vmProtAll
      inheritance := vmInheritDefault }
  match s.toMapState.vmMapEnter run 0 args ws with
  | none => none
  | some (kr, address, t) =>
    if kr ≠ .success then some (kr, address, { s with toMapState := t })
    else some (.success, address, zfree { s with toMapState := t } c)

end

section
variable (s : CopyoutState α)

/-- The checks of the map entry below, which may be extended. -/
def extensible (start : ℕ) (last : VmMapEntry) : Bool :=
  last.vmeEnd = start ∧ last.isAMap = false ∧ last.isSubMap = false ∧
    last.inheritance = vmInheritDefault ∧ last.protection = vmProtDefault ∧
    last.maxProtection = vmProtAll ∧ last.wiredCount = 0

/-- `last` is extended over the new range, with an object and an offset of it. -/
def extendLast (last : VmMapEntry) (store : ObjectStore α) (object : ObjId) (offset start size : ℕ) :
    CopyoutState α :=
  { s with
    kernel := { s.kernel with store := store }
    map := { s.map with
      entries := Linked.update VmMapEntry.id last.id (fun last =>
        { last with
          object := some object, offset := offset, vmeEnd := add start size
          inTransition := true }) s.map.entries
      size := add s.map.size size
      hint := some last.id } }

/-- `create_object`: a new object, and an entry in transition for it. -/
def createLast (start size : ℕ) (last : Option ℕ) : ObjId × ℕ × CopyoutState α :=
  let (object, store) := s.kernel.store.vmObjectAllocate size
  let m := s.map
  let entry : VmMapEntry :=
    { id := m.nextId, vmeStart := start, vmeEnd := add start size, object := some object
      offset := 0, isAMap := false, isSubMap := false, inTransition := true, needsWakeup := false
      needsCopy := false, protection := vmProtDefault, maxProtection := vmProtAll
      inheritance := vmInheritDefault, wiredCount := 0, userWiredCount := 0 }
  (object, entry.id, { s with
    kernel := { s.kernel with store := store }
    map := { m.entryLink last entry with
      nextId := m.nextId + 1
      firstFree := if m.firstFree = last then some entry.id else m.firstFree
      hint := some entry.id
      size := add m.size size } })

/-- The object that the pages go to, the name of its entry, and the offset of the first page. -/
def pageListEntry (run : CollapseRun) (start size : ℕ) (last : Option ℕ) :
    Option (ObjId × ℕ × ℕ × CopyoutState α) :=
  let create (s : CopyoutState α) : ObjId × ℕ × ℕ × CopyoutState α :=
    let (object, entry, s) := s.createLast start size last
    (object, entry, 0, s)
  match last.bind s.map.entryAt with
  | none => some (create s)
  | some last =>
    if extensible start last then
      match last.object with
      | none =>
        let (object, store) :=
          s.kernel.store.vmObjectAllocate (add (sub last.vmeEnd last.vmeStart) size)
        some (object, last.id, sub start last.vmeStart, s.extendLast last store object 0 start size)
      | some object =>
        match s.kernel.store.vmObjectCollapse run.globals run.lockTry (some object) run.turns with
        | .error _ => none
        | .ok store =>
          match store.objs object with
          | none => none
          | some ob =>
            if 1 < ob.refCount ∨ ob.pagerCreated ∨ ob.shadow.isSome ∨ ob.copy.isSome then
              some (create { s with kernel := { s.kernel with store := store } })
            else
              let newSize := add (add last.offset (sub start last.vmeStart)) size
              let store := store.set object { ob with size := max newSize ob.size }
              some (object, last.id, add last.offset (sub start last.vmeStart),
                s.extendLast last store object last.offset start size)
    else some (create s)

/-- The pages that a continuation returns. -/
def takePages (pages : List (PageId × PagePlace)) : CopyoutState α :=
  pages.foldl (fun s p => { s.setPage p.1 p.2 with queueFree := s.queueFree.erase p.1 }) s

/-- `vm_map_copy_invoke_cont` with the map unlocked: the result, the copy to go on with, and the
state after the lock is taken again. The copy that is used up is discarded only after a success. -/
def invokeCont (w : Unlocked α) (c : CopyId) (cont : Cont) :
    Option (KernReturn × Option CopyId × CopyoutState α) :=
  let s := { s with toMapState := w.others s.toMapState }
  let lock (s : CopyoutState α) : CopyoutState α := { s with map := s.map.lock }
  match cont with
  | .fails result => some (result, some c, lock s)
  | .null => (s.vmMapCopyDiscard (some c)).map fun s => (.success, none, lock s)
  | .pageList offset size pages cont =>
    let new := s.nextCopy
    let s := { s.takePages pages with nextCopy := new + 1 }
    let s := s.setCopy new ⟨offset, size, .pageList (pages.map fun p => some p.1) pages.length cont⟩
    (s.vmMapCopyDiscard (some c)).bind fun s =>
      (s.stealTabled new).map fun s => (.success, some new, lock s)

/-- How the pages have been inserted: the result, and the copy that is left. -/
structure Inserted (α : Type*) where
  result : KernReturn
  copy : Option CopyId
  contInvoked : Bool
  state : CopyoutState α

/-- The loop from `insert_pages` on, for the pages of the list from number `i` on. -/
def insertPages [PageSize] (object : ObjId) :
    ℕ → ℕ → List (Unlocked α) → Inserted α → ℕ → Option (Inserted α)
  | 0, _, _, r, _ => some r
  | turns + 1, offset, ws, r, i =>
    match r.copy with
    | none => none
    | some c =>
      match r.state.zone c with
      | some ⟨copyOffset, copySize, .pageList pageList npages cont⟩ =>
        match pageList[i]? with
        | some (some m) =>
          match r.state.vmPageReplace m object offset with
          | none => none
          | some s =>
            let rest (cont : Option Cont) : MapCopy :=
              ⟨copyOffset, copySize, .pageList (pageList.set i none) (npages - 1) cont⟩
            match npages - 1, cont with
            | 0, some cont =>
              match ws with
              | [] => none
              | w :: ws =>
                match (s.setCopy c (rest none)).invokeCont w c cont with
                | none => none
                | some (.success, copy, s) =>
                  insertPages object turns (add offset pageSize) ws ⟨.success, copy, true, s⟩ 0
                | some (result, copy, s) => some ⟨result, copy, true, s⟩
            | _, cont =>
              insertPages object turns (add offset pageSize) ws
                { r with state := s.setCopy c (rest cont) } (i + 1)
        | _ => none
      | _ => none

end

end CopyoutState

namespace MapState
variable {α : Type*}

/-- The entries of the range are not in transition any more. -/
def clearTransition (s : MapState α) (contInvoked : Bool) (last start stop : ℕ) :
    Option (MapState α) :=
  if contInvoked then
    match s.map.lookupEntry start with
    | (true, some i, m) =>
      let clear (entry : VmMapEntry) : VmMapEntry :=
        { entry with inTransition := false, needsWakeup := false }
      let l := m.entries.dropWhile fun e => e.id ≠ i
      some ⟨s.kernel, { m with
        entries := (m.entries.takeWhile fun e => e.id ≠ i) ++
          (l.takeWhile fun e => e.vmeStart < stop).map clear ++
          l.dropWhile fun e => e.vmeStart < stop }⟩
    | _ => none
  else some (s.update last fun entry => { entry with inTransition := false })

end MapState

namespace CopyoutState
variable {α : Type*} [PageSize] (s : CopyoutState α)

def vmMapCopyoutPageList (run : CollapseRun) (ws : List (Unlocked α)) (c : CopyId)
    (copy : MapCopy) : Option (KernReturn × ℕ × CopyoutState α) :=
  match s.stealTabled c with
  | none => none
  | some s =>
    let size := sub (roundPage (add copy.offset copy.size)) (truncPage copy.offset)
    match s.toMapState.findRoom size ws with
    | none => none
    | some (none, t, _) =>
      (vmMapCopyDiscard { s with toMapState := t } (some c)).map fun s => (.noSpace, 0, s)
    | some (some (start, last), t, ws) =>
      match pageListEntry { s with toMapState := t } run start size last with
      | none => none
      | some (object, last, offset, s) =>
        match insertPages object (size / pageSize) offset ws ⟨.success, some c, false, s⟩ 0 with
        | some ⟨result, some c, contInvoked, s⟩ =>
          match s.zone c, s.toMapState.clearTransition contInvoked last start (add start size) with
          | some copy, some t =>
            if result = .success then
              some (.success, add start (sub copy.offset (truncPage copy.offset)),
                zfree { s with toMapState := t } c)
            else
              some (result, 0, zfree
                { s with toMapState := (t.vmMapDelete start (add start size)).2 } c)
          | _, _ => none
        | _ => none

def vmMapCopyout (run : CollapseRun) (ws : List (Unlocked α)) :
    Option CopyId → Option (KernReturn × ℕ × CopyoutState α)
  | none => some (.success, 0, s)
  | some c =>
    match s.zone c with
    | none => none
    | some copy =>
      match copy.body with
      | .object object => s.copyoutObject run ws c copy object
      | .pageList _ _ _ => s.vmMapCopyoutPageList run ws c copy
      | .entryList entries => s.copyoutEntries ws c copy entries

end CopyoutState

/-! ## Overwriting -/

namespace Kernel
variable {α : Type*} (k : Kernel α)

def mapAt (j : ℕ) : Option VmMap := (k.maps.find? fun sm => sm.id = j).map SubMap.map

def setMap (j : ℕ) (m : VmMap) : Kernel α :=
  { k with maps := update SubMap.id j (fun sm => { sm with map := m }) k.maps }

/-- An operation on a sharing map. -/
def inShare (j : ℕ) (f : MapState α → MapState α) : Kernel α :=
  match k.mapAt j with
  | none => k
  | some m => (f ⟨k, m⟩).kernel.setMap j (f ⟨k, m⟩).map

end Kernel

/-- The entry to be overwritten: one of the destination map, or of a sharing map. -/
inductive EntryPlace
  | main (i : ℕ)
  | share (j i : ℕ)

namespace MapState
variable {α : Type*} (s : MapState α)

def entryOf : EntryPlace → Option VmMapEntry
  | .main i => s.map.entryAt i
  | .share j i => (s.kernel.mapAt j).bind fun m => m.entryAt i

def modifyEntry (place : EntryPlace) (f : VmMapEntry → VmMapEntry) : MapState α :=
  match place with
  | .main i => s.update i f
  | .share j i => ⟨s.kernel.inShare j fun t => t.update i f, s.map⟩

/-- How the first pass goes on from an entry: it waits, with the size that is left to be checked, or
it ends. -/
inductive Pass1
  | wait (entry size : ℕ)
  | done (result : KernReturn)

/-- The first pass over the entries: they are writeable, and there is no hole. -/
def overwriteCheck : ℕ → List VmMapEntry → Pass1
  | _, [] => .done .invalidAddress
  | size, entry :: rest =>
    let subSize := sub entry.vmeEnd entry.vmeStart
    if entry.protection.write = false then .done .protectionFailure
    else if entry.inTransition then .wait entry.id size
    else if size ≤ subSize then .done .success
    else
      match rest with
      | [] => .done .invalidAddress
      | next :: _ =>
        if next.vmeStart ≠ entry.vmeEnd then .done .invalidAddress
        else overwriteCheck (sub size subSize) rest

/-- The first pass from `start_pass_1` on. After a wait it starts over, but with the size that was
left. On success the first entry comes with it. -/
def overwritePass1 (dstAddr : ℕ) : List (Unlocked α) → ℕ → MapState α →
    Option (KernReturn × Option ℕ × MapState α × List (Unlocked α))
  | ws, size, s =>
    match s.map.lock.lookupEntry dstAddr with
    | (true, some i, m) =>
      let s := MapState.clipStart ⟨s.kernel, m⟩ i dstAddr
      match overwriteCheck size (s.suffix (some i)) with
      | .wait entry size =>
        let s := s.update entry fun e => { e with needsWakeup := true }
        match ws with
        | [] => none
        | w :: ws => overwritePass1 dstAddr ws size (w.others s)
      | .done result => some (result, some i, s, ws)
    | (_, _, m) => some (.invalidAddress, none, ⟨s.kernel, m⟩, ws)

/-- The sharing map of an entry is followed: the entry of it with the offset, and the size of both
after one is clipped to the other. -/
def followShare (i : ℕ) (entry : VmMapEntry) (size : ℕ) : Option (MapState α × EntryPlace × ℕ) :=
  match entry.object with
  | none => none
  | some j =>
    match (s.kernel.mapAt j).map fun m => m.lock.lookupEntry entry.offset with
    | some (_, some k, m) =>
      let kernel := (s.kernel.setMap j m).inShare j fun t => t.clipStart k entry.offset
      match (kernel.mapAt j).bind fun m => m.entryAt k with
      | none => none
      | some subEntry =>
        let subSize := sub subEntry.vmeEnd subEntry.vmeStart
        if subSize < size then
          some (MapState.clipEnd ⟨kernel, s.map⟩ i (add entry.vmeStart subSize), .share j k, subSize)
        else if size < subSize then
          some (⟨kernel.inShare j fun t => t.clipEnd k (add subEntry.vmeStart size), s.map⟩,
            .share j k, size)
        else some (⟨kernel, s.map⟩, .share j k, size)
    | _ => none

end MapState

namespace CopyoutState
variable {α : Type*}

/-- The second pass at the head of its loop. -/
structure Overwrite (α : Type*) where
  state : CopyoutState α
  start : ℕ
  tmpEntry : Option ℕ

def setEntries (s : CopyoutState α) (c : CopyId) (copy : MapCopy) (entries : List VmMapEntry) :
    CopyoutState α := s.setCopy c { copy with body := .entryList entries }

/-- `vm_map_copy_clip_end` of the first entry of a copy. -/
def copyClipEnd (s : CopyoutState α) (c : CopyId) (copy : MapCopy) (copyEntry : VmMapEntry)
    (rest : List VmMapEntry) (stop : ℕ) : CopyoutState α × VmMapEntry × List VmMapEntry :=
  if stop < copyEntry.vmeEnd then
    let low := { copyEntry with vmeEnd := stop }
    let high := { copyEntry with
      vmeStart := stop
      offset := add copyEntry.offset (sub stop copyEntry.vmeStart) }
    (setEntries { s with kernel := s.kernel.reference copyEntry.target } c copy
      (low :: high :: rest), low, high :: rest)
  else (s, copyEntry, rest)

/-- The entries of the destination and of the copy are clipped to one size. -/
def fitEntries (s : CopyoutState α) (c : CopyId) (copy : MapCopy) (tmp : ℕ)
    (entry copyEntry : VmMapEntry) (rest : List VmMapEntry) :
    Option (EntryPlace × CopyoutState α × VmMapEntry × List VmMapEntry) :=
  let copySize := sub copyEntry.vmeEnd copyEntry.vmeStart
  let size := sub entry.vmeEnd entry.vmeStart
  let (t, size) : MapState α × ℕ :=
    if copySize < size then (s.toMapState.clipEnd tmp (add entry.vmeStart copySize), copySize)
    else (s.toMapState, size)
  match if entry.isAMap then t.followShare tmp entry size else some (t, .main tmp, size) with
  | none => none
  | some (t, place, size) =>
    let s := { s with toMapState := t }
    some (place, if size < copySize then
        s.copyClipEnd c copy copyEntry rest (add copyEntry.vmeStart size)
      else (s, copyEntry, rest))

/-- Temporary memory is thrown away, and the source put in its place. -/
def overwriteTemporary (s : CopyoutState α) (c : CopyId) (copy : MapCopy) (tmp start : ℕ)
    (place : EntryPlace) (entry copyEntry : VmMapEntry) (rest : List VmMapEntry) : Overwrite α :=
  let t := s.toMapState.modifyEntry place fun e =>
    { e with
      object := copyEntry.object, offset := copyEntry.offset, needsCopy := copyEntry.needsCopy
      wiredCount := 0, userWiredCount := 0 }
  let s := setEntries { s with toMapState := t } c copy rest
  let s := { s with kernel := s.kernel.vmObjectDeallocate entry.object }
  ⟨s, ((s.map.entryAt tmp).map VmMapEntry.vmeEnd).getD start, s.map.next (some tmp)⟩

/-- The part of the copy that has been copied is disposed of. -/
def disposeCopied (s : CopyoutState α) (c : CopyId) (copy : MapCopy) (copyEntry : VmMapEntry)
    (rest : List VmMapEntry) (copySize : ℕ) : CopyoutState α :=
  if copySize ≠ 0 then
    let (s, copyEntry, rest) := s.copyClipEnd c copy copyEntry rest (add copyEntry.vmeStart copySize)
    let s := s.setEntries c copy rest
    { s with kernel := s.kernel.vmObjectDeallocate copyEntry.object }
  else s

/-- Picking up in the destination map. The lookup is done again when the map has changed while it
was unlocked. -/
def pickUp (s : CopyoutState α) (timestamp tmp start : ℕ) :
    (KernReturn × CopyoutState α) ⊕ Overwrite α :=
  let m := s.map.lock
  if timestamp + 1 = m.timestamp then
    let t := MapState.clipEnd ⟨s.kernel, m⟩ tmp start
    .inr ⟨{ s with toMapState := t }, start, t.map.next (some tmp)⟩
  else
    match m.lookupEntry start with
    | (true, some i, m) =>
      .inr ⟨{ s with toMapState := MapState.clipStart ⟨s.kernel, m⟩ i start }, start, some i⟩
    | (_, _, m) => .inl (.invalidAddress, { s with map := m })

/-- Permanent memory is copied into with the map unlocked, and a reference to its object. -/
def overwritePermanent (s : CopyoutState α) (w : Unlocked α) (c : CopyId) (copy : MapCopy)
    (tmp start : ℕ) (object : ObjId) (copyEntry : VmMapEntry) (rest : List VmMapEntry) :
    (KernReturn × CopyoutState α) ⊕ Overwrite α :=
  let timestamp := s.map.timestamp
  let t := w.others ⟨s.kernel.reference (some (.object object)), s.map⟩
  let s := { s with toMapState := ⟨t.kernel.vmObjectDeallocate (some object), t.map⟩ }
  if w.result ≠ .success then .inl (w.result, s)
  else
    (s.disposeCopied c copy copyEntry rest w.copySize).pickUp timestamp tmp (add start w.copySize)

/-- The rest of a turn, by the object of the entry to be overwritten; `none` where that is no
object. -/
def overwriteEntry (s : CopyoutState α) (ws : List (Unlocked α)) (c : CopyId) (copy : MapCopy)
    (tmp start : ℕ) (place : EntryPlace) (copyEntry : VmMapEntry) (rest : List VmMapEntry) :
    Option ((KernReturn × CopyoutState α) ⊕ Overwrite α × List (Unlocked α)) :=
  match s.toMapState.entryOf place with
  | none => none
  | some entry =>
    if entry.isAMap ∨ entry.isSubMap then none
    else
      match entry.object with
      | none => some (.inr (s.overwriteTemporary c copy tmp start place entry copyEntry rest, ws))
      | some object =>
        match s.kernel.store.objs object with
        | none => none
        | some ob =>
          if ob.temporary then
            some (.inr (s.overwriteTemporary c copy tmp start place entry copyEntry rest, ws))
          else
            match ws with
            | [] => none
            | w :: ws =>
              match s.overwritePermanent w c copy tmp start object copyEntry rest with
              | .inl r => some (.inl r)
              | .inr o => some (.inr (o, ws))

/-- A turn of the second pass; `none` where the list of entries has come to its end. -/
def overwriteTurn (ws : List (Unlocked α)) (c : CopyId) (copy : MapCopy) (copyEntry : VmMapEntry)
    (rest : List VmMapEntry) (o : Overwrite α) :
    Option ((KernReturn × CopyoutState α) ⊕ Overwrite α × List (Unlocked α)) :=
  match o.tmpEntry, o.tmpEntry.bind o.state.map.entryAt with
  | some tmp, some entry =>
    if entry.vmeStart ≠ o.start then some (.inl (.invalidAddress, o.state))
    else if entry.protection.write = false then some (.inl (.protectionFailure, o.state))
    else
      match o.state.fitEntries c copy tmp entry copyEntry rest with
      | none => none
      | some (place, s, copyEntry, rest) =>
        s.overwriteEntry ws c copy tmp o.start place copyEntry rest
  | _, _ =>
    if o.start ≠ o.state.map.minOffset then some (.inl (.invalidAddress, o.state)) else none

/-- The second pass; `none` while it has not come to its end. -/
def overwriteLoop (c : CopyId) :
    ℕ → List (Unlocked α) → Overwrite α → Option (KernReturn × CopyoutState α)
  | 0, _, _ => none
  | turns + 1, ws, o =>
    match o.state.zone c with
    | some ⟨offset, size, .entryList (copyEntry :: rest)⟩ =>
      match overwriteTurn ws c ⟨offset, size, .entryList (copyEntry :: rest)⟩ copyEntry rest o with
      | none => none
      | some (.inl r) => some r
      | some (.inr (o, ws)) => overwriteLoop c turns ws o
    | some ⟨_, _, .entryList []⟩ =>
      (o.state.vmMapCopyDiscard (some c)).map fun s => (.success, s)
    | _ => none

/-- `vm_map_copy_overwrite`, which takes lists of entries only. -/
def vmMapCopyOverwrite (s : CopyoutState α) (turns : ℕ) (ws : List (Unlocked α)) (dstAddr : ℕ) :
    Option CopyId → Option (KernReturn × CopyoutState α)
  | none => some (.success, s)
  | some c =>
    match s.zone c with
    | some ⟨_, size, .entryList _⟩ =>
      if size = 0 then (s.vmMapCopyDiscard (some c)).map fun s => (.success, s)
      else
        match s.toMapState.overwritePass1 dstAddr ws size with
        | none => none
        | some (.success, tmpEntry, t, ws) =>
          overwriteLoop c turns ws ⟨{ s with toMapState := t }, dstAddr, tmpEntry⟩
        | some (result, _, t, _) => some (result, { s with toMapState := t })
    | _ => none

end CopyoutState

end MachKernel.Vm
