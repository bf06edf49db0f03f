import MachKernel.Vm.Delete

/-! Wiring a range of addresses (`vm_map_pageable_common`). -/

namespace MachKernel.Vm
open Word32 Linked

/-- `x++` and `x--` of an `unsigned short`. -/
@[irreducible] def ushortSucc (x : ℕ) : ℕ := (x + 1) % 2 ^ 16

@[irreducible] def ushortPred (x : ℕ) : ℕ := (x + (2 ^ 16 - 1)) % 2 ^ 16

def vmProtNone : VmProt := ⟨false, false, false⟩

namespace ObjectStore
variable {α : Type*} (st : ObjectStore α)

/-- `vm_object_shadow`: the new object that takes the place of `object`, at offset 0. -/
def vmObjectShadow (object : Option ObjId) (offset length : ℕ) : ObjId × ObjectStore α :=
  let (result, st) := st.vmObjectAllocate length
  (result, st.modify result fun ob => { ob with shadow := object, shadowOffset := offset })

end ObjectStore

/-- `vm_fault_wire` and `vm_fault_unwire`: what the faults make of the objects, and the hint that
their lookups leave. -/
class WireFaults (α : Type*) where
  vmFaultWire : MapState α → VmMapEntry → Kernel α × Option ℕ
  vmFaultUnwire : MapState α → VmMapEntry → Kernel α × Option ℕ

namespace MapState
variable {α : Type*} (s : MapState α)

/-- One wiring more of an entry; those of the users together are one of the kernel's. -/
def wireEntry (userWire : Bool) (entry : VmMapEntry) : VmMapEntry :=
  if userWire then
    { entry with
      userWiredCount := ushortSucc entry.userWiredCount
      wiredCount :=
        if entry.userWiredCount = 0 then ushortSucc entry.wiredCount else entry.wiredCount }
  else { entry with wiredCount := ushortSucc entry.wiredCount }

def unwireEntry (userWire : Bool) (entry : VmMapEntry) : VmMapEntry :=
  if userWire then
    { entry with
      userWiredCount := ushortPred entry.userWiredCount
      wiredCount :=
        if ushortPred entry.userWiredCount = 0 then ushortPred entry.wiredCount
        else entry.wiredCount }
  else { entry with wiredCount := ushortPred entry.wiredCount }

/-- The object that an entry which is not wired yet needs: a shadow of a copied one, or one for
memory that is filled with zeros. -/
def createObject (i : ℕ) : MapState α :=
  match s.map.entryAt i with
  | none => s
  | some entry =>
    let length := entry.vmeEnd - entry.vmeStart
    if entry.wiredCount = 0 ∧ entry.isAMap = false then
      if entry.needsCopy = true ∧ entry.protection.write = true then
        let (object, store) := s.kernel.store.vmObjectShadow entry.object entry.offset length
        update ⟨{ s.kernel with store := store }, s.map⟩ i fun e =>
          { e with object := some object, offset := 0, needsCopy := false }
      else if entry.object = none then
        let (object, store) := s.kernel.store.vmObjectAllocate length
        update ⟨{ s.kernel with store := store }, s.map⟩ i fun e =>
          { e with object := some object, offset := 0 }
      else s
    else s

/-- After an entry that ends below the end of the range comes a hole. -/
def Hole (stop : ℕ) (entry : VmMapEntry) (vmeNext : Option VmMapEntry) : Prop :=
  entry.vmeEnd < stop ∧ ∀ n ∈ vmeNext, entry.vmeEnd < n.vmeStart

instance (stop : ℕ) (entry : VmMapEntry) (vmeNext : Option VmMapEntry) :
    Decidable (Hole stop entry vmeNext) := inferInstanceAs (Decidable (_ ∧ _))

/-- The check of the range to be unwired. -/
def unwireCheck (userWire : Bool) (stop : ℕ) : List VmMapEntry → Bool
  | [] => true
  | entry :: l =>
    if entry.vmeStart < stop then
      if entry.wiredCount = 0 ∨ Hole stop entry l.head? ∨
          userWire = true ∧ entry.userWiredCount = 0 then false
      else unwireCheck userWire stop l
    else true

/-- The wired counts are restored, from an entry backwards. -/
def backOut (userWire : Bool) (start : ℕ) : ℕ → MapState α → Option ℕ → MapState α
  | turns + 1, s, some i =>
    match s.map.entryAt i with
    | none => s
    | some entry =>
      if start < entry.vmeEnd then
        let s := s.update i (unwireEntry userWire)
        backOut userWire start turns s (s.map.prev (some i))
      else s
  | _, s, _ => s

/-- One turn of the first pass: the entry gets its object, is clipped to the range, and its count is
incremented. -/
def wireTurn (start stop : ℕ) (userWire : Bool) (i : ℕ) : MapState α :=
  let s := (s.clipEnd i stop).createObject i
  let s := (s.clipStart i start).clipEnd i stop
  s.update i (wireEntry userWire)

/-- The first pass. -/
def wireLoop (start stop : ℕ) (accessType : VmProt) (userWire : Bool) :
    ℕ → MapState α → Option ℕ → KernReturn × MapState α
  | turns + 1, s, some i =>
    match s.map.entryAt i with
    | none => (.success, s)
    | some entry =>
      if entry.vmeStart < stop then
        let s := s.wireTurn start stop userWire i
        match s.map.entryAt i with
        | none => (.success, s)
        | some entry =>
          if Hole stop entry ((s.map.next (some i)).bind s.map.entryAt) ∨
              entry.protection.and accessType ≠ accessType then
            (.failure, s.backOut userWire start s.map.entries.length (some i))
          else wireLoop start stop accessType userWire turns s (s.map.next (some i))
      else (.success, s)
  | _, s, _ => (.success, s)

section
variable [WireFaults α]

/-- The second pass: the pages of the entries that are wired for the first time. -/
def wirePass (stop : ℕ) (s : MapState α) (l : List VmMapEntry) : MapState α :=
  (l.takeWhile fun entry => entry.vmeStart < stop).foldl (fun s entry =>
    if entry.wiredCount = 1 ∧ entry.userWiredCount ≤ 1 then
      let (kernel, hint) := WireFaults.vmFaultWire s entry
      ⟨kernel, s.map.saveHint hint⟩
    else s) s

/-- The loop that unwires. -/
def unwireLoop (userWire : Bool) (stop : ℕ) : ℕ → MapState α → Option ℕ → MapState α
  | turns + 1, s, some i =>
    match s.map.entryAt i with
    | none => s
    | some entry =>
      if entry.vmeStart < stop then
        let s := (s.clipEnd i stop).update i (unwireEntry userWire)
        match s.map.entryAt i with
        | none => s
        | some entry =>
          let s : MapState α :=
            if entry.wiredCount = 0 then
              let (kernel, hint) := WireFaults.vmFaultUnwire s entry
              ⟨kernel, s.map.saveHint hint⟩
            else s
          unwireLoop userWire stop turns s (s.map.next (some i))
      else s
  | _, s, _ => s

/-- `vm_map_pageable_common`; for the kernel's map the lock is given up during the faults. -/
def vmMapPageableCommon (kernelPmap : Bool) (start stop : ℕ) (accessType : VmProt)
    (userWire : Bool) : KernReturn × MapState α :=
  let (start, stop) := s.map.rangeCheck start stop
  match s.map.lock.lookupEntry start with
  | (true, some i, m) =>
    let s : MapState α := ⟨s.kernel, m⟩
    if accessType = vmProtNone then
      let s := s.clipStart i start
      if unwireCheck userWire stop (s.suffix (some i)) then
        (.success, unwireLoop userWire stop s.map.entries.length s (some i))
      else (.invalidArgument, s)
    else
      match wireLoop start stop accessType userWire s.map.entries.length s (some i) with
      | (.success, s) =>
        let s := wirePass stop s (s.suffix (some i))
        (.success, if kernelPmap then ⟨s.kernel, s.map.lock⟩ else s)
      | r => r
  | (_, _, m) => (.failure, ⟨s.kernel, m⟩)

def vmMapPageable (kernelPmap : Bool) (start stop : ℕ) (accessType : VmProt) :
    KernReturn × MapState α := s.vmMapPageableCommon kernelPmap start stop accessType false

def vmMapPageableUser (kernelPmap : Bool) (start stop : ℕ) (accessType : VmProt) :
    KernReturn × MapState α := s.vmMapPageableCommon kernelPmap start stop accessType true

end

end MapState

end MachKernel.Vm
