import MachKernel.Vm.MapCopy

/-! Copying a range into lists of pages (`vm_map_copyin_page_list`), with the continuation for what
does not fit into one list. -/

namespace MachKernel.Vm
open Word32 Linked

def vmMapCopyPageListMax : ℕ := 8

/-- `vm_map_copyin_args_t`; the map is the source map. -/
structure VmMapCopyinArgs where
  srcAddr : ℕ
  srcLen : ℕ
  destroyAddr : ℕ
  destroyLen : ℕ
  stealPages : Bool

/-- What `vm_page_lookup` or `vm_fault_page` finds at an offset of an object, and the maps when it
was looked up. -/
structure ListedPage (α : Type*) where
  object : ObjId
  offset : ℕ
  seen : MapState α

/-- A copy whose type is `VM_MAP_COPY_PAGE_LIST`, with the arguments of its continuation. -/
structure PageListCopy (α : Type*) where
  offset : ℕ
  size : ℕ
  pageList : List (ListedPage α)
  cont : Option VmMapCopyinArgs

/-- Whether a page is there, or else how the fault ends for which the map is unlocked. -/
inductive PageSight (α : Type*)
  | resident
  | faulted (others : MapState α → MapState α)
  | memoryError (others : MapState α → MapState α)

/-- Whether a page may be taken from its object: it is not precious, and the object is temporary
and has one reference. -/
inductive Stealing
  | steals (wired : Bool)
  | keeps

/-- What a call meets: its pages, what other threads do while pages are copied that cannot be taken,
and what is left in a field that is not set. -/
structure CopyinMeets (α : Type*) where
  sights : ℕ → PageSight α
  stealing : ℕ → Stealing
  others : MapState α → MapState α
  stale : Bool

/-- The variables of `vm_map_copyin_page_list`, with the times that each lock has been taken less
those that it has been released; the one of the source map goes by `none`. -/
structure CopyinPages (α : Type*) where
  maps : MapState α
  locks : Option ℕ → ℤ
  srcStart : ℕ
  srcEnd : ℕ
  srcSize : ℕ
  pageList : List (ListedPage α)
  cont : Option VmMapCopyinArgs
  canSteal : Bool
  looked : ℕ

/-- How the loop over the entries ends. -/
inductive PagesEnd (α : Type*)
  | copied (s : CopyinPages α)
  | error (kr : KernReturn) (s : CopyinPages α)
  | panic

inductive PageListOutcome (α : Type*)
  | ret (kr : KernReturn) (copy : Option (PageListCopy α)) (maps : MapState α)
      (locks : Option ℕ → ℤ)
  | panic

namespace CopyinPages
variable {α : Type*} (s : CopyinPages α)

def take (lock : Option ℕ) : CopyinPages α :=
  { s with locks := Function.update s.locks lock (s.locks lock + 1) }

def release (lock : Option ℕ) : CopyinPages α :=
  { s with locks := Function.update s.locks lock (s.locks lock - 1) }

@[simp] theorem take_maps (lock : Option ℕ) : (s.take lock).maps = s.maps := rfl

@[simp] theorem take_srcStart (lock : Option ℕ) : (s.take lock).srcStart = s.srcStart := rfl

theorem release_take (lock : Option ℕ) : ((s.take lock).release lock).locks = s.locks := by
  funext l
  rcases eq_or_ne l lock with rfl | hne
  · simp [take, release]
  · simp [take, release, hne]

/-- `vm_map_lock` of the source map. -/
def lockMap : CopyinPages α :=
  { s.take none with maps := ⟨s.maps.kernel, s.maps.map.lock⟩ }

/-- The object of an entry, which is allocated if there is none yet. -/
def objectOf (k : Kernel α) (e : VmMapEntry) : ObjId × Kernel α :=
  match e.object with
  | some o => (o, k)
  | none =>
    let (o, store) := k.store.vmObjectAllocate (sub e.vmeEnd e.vmeStart)
    (o, { k with store := store })

def setObject (m : VmMap) (i : ℕ) (o : ObjId) : VmMap :=
  { m with entries := update VmMapEntry.id i (fun e => { e with object := some o }) m.entries }

/-- The object of the source entry, the offset of `src_start` in it, and the size that can be done
in this pass; none where a sharing map has no entry for it. -/
def entrySource (e : VmMapEntry) : Option (ObjId × ℕ × CopyinPages α) :=
  let srcSize := if e.vmeEnd < s.srcEnd then sub e.vmeEnd s.srcStart else sub s.srcEnd s.srcStart
  if e.isAMap then
    match e.object with
    | none => none
    | some j =>
      match s.maps.kernel.mapAt j with
      | none => none
      | some subMap =>
        let s := { s.take (some j) with canSteal := false }
        match subMap.lock.lookupEntry e.offset with
        | (true, some t, subMap) =>
          match subMap.entryAt t with
          | none => none
          | some tmp =>
            let subSize := sub tmp.vmeEnd (add e.offset (sub s.srcStart e.vmeStart))
            let srcSize := if subSize < srcSize then subSize else srcSize
            let (o, kernel) := objectOf s.maps.kernel tmp
            let srcOffset := add (add tmp.offset (sub e.offset tmp.vmeStart))
              (sub s.srcStart e.vmeStart)
            some (o, srcOffset, CopyinPages.release { s with
                maps := ⟨kernel.setMap j (setObject subMap t o), s.maps.map⟩
                srcSize := srcSize } (some j))
        | _ => none
  else
    let (o, kernel) := objectOf s.maps.kernel e
    some (o, add e.offset (sub s.srcStart e.vmeStart),
      { s with maps := ⟨kernel, setObject s.maps.map e.id o⟩, srcSize := srcSize })

def makeContinuation (srcDestroy stale : Bool) : CopyinPages α :=
  let srcLen := sub s.srcEnd s.srcStart
  { s with
    cont := some ⟨s.srcStart, srcLen, if srcDestroy then s.srcStart else 0,
      if srcDestroy then srcLen else 0, stale⟩
    srcEnd := s.srcStart }

section
variable [PageSize]

/-- A page is put in the list. -/
def list (object : ObjId) (srcOffset : ℕ) : CopyinPages α :=
  { s with
    pageList := s.pageList ++ [⟨object, srcOffset, s.maps⟩]
    srcStart := add s.srcStart pageSize
    looked := s.looked + 1 }

/-- The loop over the pages, while there is room in the list: whether a lookup is needed, or the
state in which a fault has failed. -/
def pageLoop (w : CopyinMeets α) (srcDestroy isCont : Bool) (object : ObjId) (srcLastOffset : ℕ) :
    ℕ → ℕ → CopyinPages α → Except (CopyinPages α) (CopyinPages α × Bool)
  | 0, srcOffset, s =>
    if srcOffset < srcLastOffset then .ok (s.makeContinuation srcDestroy w.stale, false)
    else .ok (s, false)
  | room + 1, srcOffset, s =>
    if srcOffset < srcLastOffset then
      match w.sights s.looked with
      | .resident =>
        pageLoop w srcDestroy isCont object srcLastOffset room (add srcOffset pageSize)
          (s.list object srcOffset)
      | .faulted others =>
        .ok ({ (s.list object srcOffset).release none with
          maps := others s.maps, canSteal := false }, true)
      | .memoryError others =>
        let s := { s.release none with
          maps := others s.maps, canSteal := false, looked := s.looked + 1 }
        if isCont = true ∧ s.pageList ≠ [] then
          .ok (s.makeContinuation srcDestroy w.stale, true)
        else .error s
    else .ok (s, false)

/-- The loop over the entries from an entry on, or from `do_map_lookup` on. -/
def entryLoop (w : CopyinMeets α) (srcDestroy isCont : Bool) :
    ℕ → CopyinPages α → Option ℕ → Option (PagesEnd α)
  | 0, _, _ => none
  | turns + 1, s, none =>
    let s := s.lockMap
    match s.maps.map.lookupEntry s.srcStart with
    | (true, some i, m) =>
      entryLoop w srcDestroy isCont turns { s with maps := ⟨s.maps.kernel, m⟩ } (some i)
    | (_, _, m) => some (.error .invalidAddress { s with maps := ⟨s.maps.kernel, m⟩ })
  | turns + 1, s, some i =>
    match s.maps.map.entryAt i with
    | none => some .panic
    | some e =>
      if e.protection.read = false then some (.error .protectionFailure s)
      else
        match s.entrySource e with
        | none => some .panic
        | some (object, srcOffset, s) =>
          match pageLoop w srcDestroy isCont object (add srcOffset s.srcSize)
            (vmMapCopyPageListMax - s.pageList.length) srcOffset s with
          | .error s => some (.error .memoryError s)
          | .ok (s, needMapLookup) =>
            if s.srcEnd ≤ s.srcStart ∧ s.srcEnd ≠ 0 then
              some (.copied (if needMapLookup then s.lockMap else s))
            else if needMapLookup then entryLoop w srcDestroy isCont turns s none
            else
              match after VmMapEntry.id (some i) s.maps.map.entries with
              | [] =>
                if s.maps.map.minOffset ≠ e.vmeEnd then some (.error .invalidAddress s)
                else some .panic
              | next :: _ =>
                if next.vmeStart ≠ e.vmeEnd then some (.error .invalidAddress s)
                else entryLoop w srcDestroy isCont turns { s with srcStart := e.vmeEnd }
                  (some next.id)

/-- The loop over the pages of the list that makes sure that they are in no object; none where the
entry of a wired page is missing. -/
def stealLoop (w : CopyinMeets α) (srcDestroy : Bool) (srcStart : ℕ) :
    ℕ → ℕ → ℕ → CopyinPages α → Option (CopyinPages α)
  | 0, _, _, s => some s
  | n + 1, i, unwireEnd, s =>
    let copy : CopyinPages α :=
      CopyinPages.lockMap { s.release none with maps := w.others s.maps }
    match w.stealing i with
    | .keeps => some copy
    | .steals wired =>
      if srcDestroy ∧ s.canSteal then
        let pageVaddr := add srcStart (i * pageSize)
        if wired ∧ unwireEnd ≤ pageVaddr then
          match s.maps.map.lookupEntry pageVaddr with
          | (true, some j, m) =>
            let t := MapState.clipStart ⟨s.maps.kernel, m⟩ j pageVaddr
            let t := t.clipEnd j (add srcStart s.srcSize)
            let t := t.update j fun e => { e with wiredCount := 0, userWiredCount := 0 }
            match t.map.entryAt j with
            | none => none
            | some e => stealLoop w srcDestroy srcStart n (i + 1) e.vmeEnd { s with maps := t }
          | _ => none
        else stealLoop w srcDestroy srcStart n (i + 1) unwireEnd s
      else some copy

end

end CopyinPages

section
variable [PageSize] {α : Type*}

/-- `vm_map_copyin_page_list`; none while the loop has not come to its end. -/
def vmMapCopyinPageList (w : CopyinMeets α) (alwaysSteal : Bool) (turns : ℕ) (maps : MapState α)
    (locks : Option ℕ → ℤ) (srcAddr len : ℕ) (srcDestroy stealPages isCont : Bool) :
    Option (PageListOutcome α) :=
  let stealPages := alwaysSteal || stealPages
  if len = 0 then some (.ret .success none maps locks)
  else
    let srcStart := truncPage srcAddr
    let srcEnd := roundPage (add srcAddr len)
    if srcEnd ≤ srcStart ∧ (srcEnd < srcStart ∨ srcStart ≠ 0) then
      some (.ret .invalidAddress none maps locks)
    else
      match CopyinPages.entryLoop w srcDestroy isCont turns
        ⟨maps, locks, srcStart, srcEnd, 0, [], none, true, 0⟩ none with
      | none => none
      | some .panic => some .panic
      | some (.error kr s) => some (.ret kr none s.maps (s.release none).locks)
      | some (.copied s) =>
        if stealPages then
          match s.stealLoop w srcDestroy srcStart s.pageList.length 0 srcStart with
          | none => some .panic
          | some s =>
            let maps := if srcDestroy then (s.maps.vmMapDelete srcStart s.srcEnd).2 else s.maps
            some (.ret .success (some ⟨srcAddr, len, s.pageList, s.cont⟩) maps
              (s.release none).locks)
        else
          let cont :=
            if srcDestroy ∧ s.cont = none then some ⟨0, 0, srcStart, sub s.srcEnd srcStart, false⟩
            else s.cont
          some (.ret .success (some ⟨srcAddr, len, s.pageList, cont⟩) s.maps (s.release none).locks)

/-- How the continuation ends; it may store its result through a pointer that is missing, and then
what is left of the maps does not matter any more. -/
inductive ContEnd (α : Type*)
  | done (outcome : PageListOutcome α)
  | nullStore (maps : MapState α)

def vmMapCopyinPageListCont (w : CopyinMeets α) (alwaysSteal : Bool) (turns : ℕ)
    (maps : MapState α) (locks : Option ℕ → ℤ) (contArgs : VmMapCopyinArgs)
    (copyResult : Option ℕ) (abort : Bool) : Option (ContEnd α) :=
  let srcDestroy : Bool := contArgs.destroyLen ≠ 0
  let srcDestroyOnly : Bool := contArgs.srcLen = 0
  if abort || srcDestroyOnly then
    let (result, maps) :=
      maps.vmMapRemove contArgs.srcAddr (add contArgs.srcAddr contArgs.srcLen)
    match copyResult with
    | none => some (.nullStore maps)
    | some _ => some (.done (.ret result none maps locks))
  else
    (vmMapCopyinPageList w alwaysSteal turns maps locks contArgs.srcAddr contArgs.srcLen srcDestroy
      contArgs.stealPages true).map fun outcome =>
        match outcome with
        | .panic => .done .panic
        | .ret result copy maps locks =>
          if srcDestroy ∧ contArgs.stealPages = false then
            match copy with
            | none => .done .panic
            | some copy =>
              -- the old destroy info is transferred
              .done (.ret result (some { copy with
                cont := copy.cont.map fun newArgs => { newArgs with
                  destroyAddr := contArgs.destroyAddr, destroyLen := contArgs.destroyLen } })
                maps locks)
          else .done (.ret result copy maps locks)

/-- `vm_map_copy_invoke_cont`, as far as the source sees it; `newCopy` is where the result goes. -/
def vmMapCopyInvokeCont (w : CopyinMeets α) (alwaysSteal : Bool) (turns : ℕ) (maps : MapState α)
    (locks : Option ℕ → ℤ) (args : VmMapCopyinArgs) (newCopy : ℕ) : Option (ContEnd α) :=
  vmMapCopyinPageListCont w alwaysSteal turns maps locks args (some newCopy) false

/-- `vm_map_copy_abort_cont`, which passes `VM_MAP_COPY_NULL` for the place of the result. -/
def vmMapCopyAbortCont (w : CopyinMeets α) (alwaysSteal : Bool) (turns : ℕ) (maps : MapState α)
    (locks : Option ℕ → ℤ) (args : VmMapCopyinArgs) : Option (ContEnd α) :=
  vmMapCopyinPageListCont w alwaysSteal turns maps locks args none true

/-- `vm_map_copy_discard` of a page list, as far as the source map sees it. -/
def PageListCopy.discard (copy : PageListCopy α) (w : CopyinMeets α) (alwaysSteal : Bool)
    (turns : ℕ) (maps : MapState α) (locks : Option ℕ → ℤ) : Option (ContEnd α) :=
  match copy.cont with
  | none => some (.done (.ret .success none maps locks))
  | some args => vmMapCopyAbortCont w alwaysSteal turns maps locks args

end

end MachKernel.Vm
