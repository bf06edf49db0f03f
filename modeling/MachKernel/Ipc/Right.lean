import MachKernel.Ipc.Entry

/-! Operations on the rights of a space (`ipc/ipc_right.c`, `ipc/ipc_object.c`). -/

namespace MachKernel.Ipc

namespace PortType

def onlySend : PortType := ⟨true, false, false, false, false⟩

def onlyReceive : PortType := ⟨false, true, false, false, false⟩

def onlySendOnce : PortType := ⟨false, false, true, false, false⟩

def onlyPortSet : PortType := ⟨false, false, false, true, false⟩

def onlyDeadName : PortType := ⟨false, false, false, false, true⟩

def sendReceive : PortType := ⟨true, true, false, false, false⟩

/-- A bit of `MACH_PORT_TYPE_SEND_RIGHTS`. -/
def sendRights (t : PortType) : Bool := t.send || t.sendOnce

end PortType

/-- `struct ipc_port`, as far as rights look at it. -/
structure Port where
  active : Bool
  references : ℕ
  receiverName : MachPort
  destination : Option ℕ
  mscount : ℕ
  srights : ℕ
  sorights : ℕ
  nsrequest : Option ℕ
  dnrequests : ℕ → Option ℕ

/-- Calls into other modules. -/
inductive RightCall
  | hashInsert (object : Option ℕ) (name : MachPort)
  | hashDelete (object : Option ℕ) (name : MachPort)
  | marequestCancel (name : MachPort)
  | marequestRename (oname nname : MachPort)
  | dnrename (request : ℕ) (oname nname : MachPort)
  | psetRename (object : Option ℕ) (nname : MachPort)
  | spaceRelease
  | clearReceiver (port : ℕ)
  | notifySendOnce (port : ℕ)
  | notifyPortDeleted (soright : ℕ) (name : MachPort)
  | notifyNoSenders (nsrequest mscount : ℕ)
  | portDestroy (port : ℕ)
  | psetDestroy (pset : Option ℕ)

/-- A use of the entry of a name through a pointer, or its deallocation, with the space as it was
then. -/
structure Access where
  space : IpcSpace
  name : MachPort
  entry : EntryRef
  dealloc : Bool

/-- A space, the ports, and what was done through pointers to entries. -/
structure RightState where
  space : IpcSpace
  ports : ℕ → Port
  accesses : List Access
  calls : List RightCall

/-- `kern_return_t`. -/
inductive KernReturn
  | success
  | invalidTask
  | invalidName
  | invalidRight
  | invalidValue
  | invalidArgument
  | urefsOverflow
deriving DecidableEq

/-- `mach_msg_type_name_t`: what is done with a right that is copied in. -/
inductive MsgTypeName
  | moveReceive
  | moveSend
  | moveSendOnce
  | copySend
  | makeSend
  | makeSendOnce
deriving DecidableEq

/-- `mach_port_right_t`. -/
inductive PortRight
  | send
  | receive
  | sendOnce
  | portSet
  | deadName
deriving DecidableEq

/-- What `ipc_right_copyin` gives: an object, where `none` is `IO_DEAD`, and a send-once right for
a port-deleted notification. -/
structure Copyin where
  kr : KernReturn
  object : Option ℕ
  soright : Option ℕ

/-- `MACH_PORT_UREFS_MAX`. -/
def urefsMax : ℤ := 2 ^ 16 - 1

/-- `MACH_PORT_UREFS_OVERFLOW`. -/
def urefsOverflow (urefs : ℕ) (delta : ℤ) : Bool := 0 < delta && urefsMax < urefs + delta

/-- `MACH_PORT_UREFS_UNDERFLOW`. -/
def urefsUnderflow (urefs : ℕ) (delta : ℤ) : Bool := delta < 0 && (urefs : ℤ) < -delta

namespace RightState

def modifyPort (s : RightState) (port : ℕ) (f : Port → Port) : RightState :=
  { s with ports := Function.update s.ports port (f (s.ports port)) }

def call (s : RightState) (c : RightCall) : RightState := { s with calls := s.calls ++ [c] }

def callIf (s : RightState) (b : Bool) (c : RightCall) : RightState := if b = true then s.call c else s

/-- Reads an entry through a pointer; a pointer that does not point to an entry reads zeros. -/
def useEntry (s : RightState) (name : MachPort) (entry : EntryRef) : Capability × RightState :=
  ((s.space.entry entry).getD .zero,
    { s with accesses := s.accesses ++ [⟨s.space, name, entry, false⟩] })

def writeEntry (s : RightState) (name : MachPort) (entry : EntryRef)
    (f : Capability → Capability) : RightState :=
  let accesses := s.accesses ++ [⟨s.space, name, entry, false⟩]
  { s with space := s.space.write f entry, accesses := accesses }

variable [TableSizes]

/-- `ipc_entry_dealloc`. -/
def deallocEntry (s : RightState) (name : MachPort) (entry : EntryRef) : RightState :=
  let accesses := s.accesses ++ [⟨s.space, name, entry, true⟩]
  { s with space := s.space.dealloc name entry, accesses := accesses }

/-- `ipc_entry_lookup`. -/
def lookupEntry (s : RightState) (name : MachPort) : Option EntryRef × RightState :=
  let (entry, space) := s.space.lookup name
  (entry, { s with space := space })

/-- `ipc_port_release`. -/
def portRelease (s : RightState) (port : ℕ) : RightState :=
  s.modifyPort port fun p => { p with references := p.references - 1 }

def portReference (s : RightState) (port : ℕ) : RightState :=
  s.modifyPort port fun p => { p with references := p.references + 1 }

/-- The send right that is dropped may be the last one; then a no-senders notification is due. -/
def dropSendRight (s : RightState) (port : ℕ) : Option (ℕ × ℕ) × RightState :=
  let p := s.ports port
  let p := { p with srights := p.srights - 1 }
  if p.srights = 0 then
    (p.nsrequest.map fun n => (n, p.mscount), s.modifyPort port fun _ => { p with nsrequest := none })
  else (none, s.modifyPort port fun _ => p)

def notifyNoSenders (s : RightState) : Option (ℕ × ℕ) → RightState
  | some (nsrequest, mscount) => s.call (.notifyNoSenders nsrequest mscount)
  | none => s

def notifyPortDeleted (s : RightState) (name : MachPort) : Option ℕ → RightState
  | some soright => s.call (.notifyPortDeleted soright name)
  | none => s

/-- `ipc_right_dncancel_macro`: the send-once right of a dead-name request. -/
def dncancel (s : RightState) (port : ℕ) (name : MachPort) (entry : EntryRef) :
    Option ℕ × RightState :=
  let (e, s) := s.useEntry name entry
  if e.request = 0 then (none, s)
  else
    let dnrequest := (s.ports port).dnrequests e.request
    let s := s.modifyPort port fun p =>
      { p with dnrequests := Function.update p.dnrequests e.request none }
    let s := s.writeEntry name entry fun c => { c with request := 0 }
    -- in compat mode this is a pointer to the space
    if e.compat = true then (none, s.call .spaceRelease) else (dnrequest, s)

/-- `ipc_right_check`: a dead port's entry becomes a dead name, or in compat mode goes away. -/
def ipcRightCheck (s : RightState) (port : ℕ) (name : MachPort) (entry : EntryRef) :
    Bool × RightState :=
  if (s.ports port).active = true then (false, s)
  else
    let (bits, s) := s.useEntry name entry
    let s := s.callIf (bits.type.send && bits.marequest) (.marequestCancel name)
    let s := s.callIf bits.type.send (.hashDelete (some port) name)
    have bits := { bits with marequest := bits.marequest && !bits.type.send }
    let s := s.portRelease port
    if bits.compat = true then
      let s := s.writeEntry name entry fun c => { c with request := 0, object := none }
      (true, s.deallocEntry name entry)
    else
      let (e, s) := s.useEntry name entry
      let urefs := if e.request ≠ 0 then bits.urefs + 1 else bits.urefs
      (true, s.writeEntry name entry fun _ => ⟨.onlyDeadName, urefs, bits.marequest, false, none, 0⟩)

/-- The dead-name case of `ipc_right_dealloc`. -/
def deallocDeadName (s : RightState) (name : MachPort) (entry : EntryRef) (bits : Capability) :
    KernReturn × RightState :=
  if bits.urefs = 1 then (.success, s.deallocEntry name entry)
  else (.success, s.writeEntry name entry fun c => { c with urefs := bits.urefs - 1 })

def ipcRightDealloc (s : RightState) (name : MachPort) (entry : EntryRef) : KernReturn × RightState :=
  let (bits, s) := s.useEntry name entry
  let port := bits.object.getD 0
  if bits.type = .onlyDeadName then s.deallocDeadName name entry bits
  else if bits.type = .onlySendOnce then
    let (dead, s) := s.ipcRightCheck port name entry
    if dead = true then
      if bits.compat = true then (.invalidName, s)
      else
        let (bits, s) := s.useEntry name entry
        s.deallocDeadName name entry bits
    else
      let (dnrequest, s) := s.dncancel port name entry
      let s := s.writeEntry name entry fun c => { c with object := none }
      let s := s.deallocEntry name entry
      let s := s.call (.notifySendOnce port)
      (.success, s.notifyPortDeleted name dnrequest)
  else if bits.type = .onlySend then
    let (dead, s) := s.ipcRightCheck port name entry
    if dead = true then
      if bits.compat = true then (.invalidName, s)
      else
        let (bits, s) := s.useEntry name entry
        s.deallocDeadName name entry bits
    else if bits.urefs = 1 then
      let (nsrequest, s) := s.dropSendRight port
      let (dnrequest, s) := s.dncancel port name entry
      let s := s.call (.hashDelete (some port) name)
      let s := s.callIf bits.marequest (.marequestCancel name)
      let s := s.portRelease port
      let s := s.writeEntry name entry fun c => { c with object := none }
      let s := s.deallocEntry name entry
      (.success, (s.notifyNoSenders nsrequest).notifyPortDeleted name dnrequest)
    else (.success, s.writeEntry name entry fun c => { c with urefs := bits.urefs - 1 })
  else if bits.type = .sendReceive then
    if bits.urefs = 1 then
      let (nsrequest, s) := s.dropSendRight port
      let s := s.writeEntry name entry fun c => { c with type := .onlyReceive, urefs := 0 }
      (.success, s.notifyNoSenders nsrequest)
    else (.success, s.writeEntry name entry fun c => { c with urefs := bits.urefs - 1 })
  else (.invalidRight, s)

def ipcRightDestroy (s : RightState) (name : MachPort) (entry : EntryRef) : KernReturn × RightState :=
  let (bits, s) := s.useEntry name entry
  let type := bits.type
  let port := bits.object.getD 0
  if type = .onlyDeadName then (.success, s.deallocEntry name entry)
  else if type = .onlyPortSet then
    let s := s.writeEntry name entry fun c => { c with object := none }
    let s := s.deallocEntry name entry
    (.success, s.call (.psetDestroy bits.object))
  else
    let s := s.callIf bits.marequest (.marequestCancel name)
    let s := s.callIf (type = .onlySend) (.hashDelete bits.object name)
    if (s.ports port).active = false then
      let s := s.portRelease port
      let s := s.writeEntry name entry fun c => { c with request := 0, object := none }
      let s := s.deallocEntry name entry
      (if bits.compat = true then .invalidName else .success, s)
    else
      let (dnrequest, s) := s.dncancel port name entry
      let s := s.writeEntry name entry fun c => { c with object := none }
      let s := s.deallocEntry name entry
      let (nsrequest, s) := if type.send = true then s.dropSendRight port else (none, s)
      let s :=
        if type.receive = true then s.call (.portDestroy port)
        else if type.sendOnce = true then s.call (.notifySendOnce port)
        else s.portRelease port
      (.success, (s.notifyNoSenders nsrequest).notifyPortDeleted name dnrequest)

/-- The dead-name case of `ipc_right_delta`. -/
def deltaDeadName (s : RightState) (name : MachPort) (entry : EntryRef) (bits : Capability)
    (delta : ℤ) : KernReturn × RightState :=
  if urefsUnderflow bits.urefs delta = true then (.invalidValue, s)
  else if urefsOverflow bits.urefs delta = true then (.urefsOverflow, s)
  else if bits.urefs + delta = 0 then (.success, s.deallocEntry name entry)
  else (.success, s.writeEntry name entry fun c => { c with urefs := (bits.urefs + delta).toNat })

def ipcRightDelta (s : RightState) (name : MachPort) (entry : EntryRef) (right : PortRight)
    (delta : ℤ) : KernReturn × RightState :=
  let (bits, s) := s.useEntry name entry
  let port := bits.object.getD 0
  match right with
  | .portSet =>
    if bits.type.portSet = false then (.invalidRight, s)
    else if delta = 0 then (.success, s)
    else if delta ≠ -1 then (.invalidValue, s)
    else
      let s := s.writeEntry name entry fun c => { c with object := none }
      let s := s.deallocEntry name entry
      (.success, s.call (.psetDestroy bits.object))
  | .receive =>
    if bits.type.receive = false then (.invalidRight, s)
    else if delta = 0 then (.success, s)
    else if delta ≠ -1 then (.invalidValue, s)
    else
      let s := s.callIf bits.marequest (.marequestCancel name)
      let (dnrequest, s) :=
        if bits.compat = true then
          let (dnrequest, s) := s.dncancel port name entry
          let s := s.writeEntry name entry fun c => { c with object := none }
          (dnrequest, s.deallocEntry name entry)
        else if bits.type.send = true then
          -- the send right that is left turns into a dead name
          let (e, s) := s.useEntry name entry
          let urefs := if e.request ≠ 0 then bits.urefs + 1 else bits.urefs
          (none, s.writeEntry name entry fun _ => ⟨.onlyDeadName, urefs, false, false, none, 0⟩)
        else
          let (dnrequest, s) := s.dncancel port name entry
          let s := s.writeEntry name entry fun c => { c with object := none }
          (dnrequest, s.deallocEntry name entry)
      let s := s.call (.portDestroy port)
      (.success, s.notifyPortDeleted name dnrequest)
  | .sendOnce =>
    if bits.type.sendOnce = false then (.invalidRight, s)
    else if delta > 0 ∨ delta < -1 then (.invalidValue, s)
    else
      let (dead, s) := s.ipcRightCheck port name entry
      if dead = true then
        if bits.compat = true then (.invalidName, s) else (.invalidRight, s)
      else if delta = 0 then (.success, s)
      else
        let (dnrequest, s) := s.dncancel port name entry
        let s := s.writeEntry name entry fun c => { c with object := none }
        let s := s.deallocEntry name entry
        let s := s.call (.notifySendOnce port)
        (.success, s.notifyPortDeleted name dnrequest)
  | .deadName =>
    if bits.type.sendRights = true then
      let (dead, s) := s.ipcRightCheck port name entry
      if dead = false then (.invalidRight, s)
      else if bits.compat = true then (.invalidName, s)
      else
        let (bits, s) := s.useEntry name entry
        s.deltaDeadName name entry bits delta
    else if bits.type.deadName = false then (.invalidRight, s)
    else s.deltaDeadName name entry bits delta
  | .send =>
    if bits.type.send = false then (.invalidRight, s)
    else if urefsUnderflow bits.urefs delta = true then (.invalidValue, s)
    else if urefsOverflow (bits.urefs + 1) delta = true then (.urefsOverflow, s)
    else
      let (dead, s) := s.ipcRightCheck port name entry
      if dead = true then
        if bits.compat = true then (.invalidName, s) else (.invalidRight, s)
      else if bits.urefs + delta = 0 then
        let (nsrequest, s) := s.dropSendRight port
        if bits.type.receive = true then
          let s := s.writeEntry name entry fun c => { c with type := .onlyReceive, urefs := 0 }
          (.success, s.notifyNoSenders nsrequest)
        else
          let (dnrequest, s) := s.dncancel port name entry
          let s := s.call (.hashDelete (some port) name)
          let s := s.callIf bits.marequest (.marequestCancel name)
          let s := s.portRelease port
          let s := s.writeEntry name entry fun c => { c with object := none }
          let s := s.deallocEntry name entry
          (.success, (s.notifyNoSenders nsrequest).notifyPortDeleted name dnrequest)
      else
        (.success, s.writeEntry name entry fun c => { c with urefs := (bits.urefs + delta).toNat })

/-- The end `copy_dead` of `ipc_right_copyin`. -/
def copyDead (s : RightState) (deadok : Bool) : Copyin × RightState :=
  if deadok = false then (⟨.invalidRight, none, none⟩, s) else (⟨.success, none, none⟩, s)

/-- The end `move_dead`. -/
def moveDead (s : RightState) (name : MachPort) (entry : EntryRef) (bits : Capability) (deadok : Bool) :
    Copyin × RightState :=
  if deadok = false then (⟨.invalidRight, none, none⟩, s)
  else if bits.urefs = 1 then
    (⟨.success, none, none⟩,
      s.writeEntry name entry fun c => { c with type := { c.type with deadName := false } })
  else (⟨.success, none, none⟩, s.writeEntry name entry fun c => { c with urefs := bits.urefs - 1 })

def ipcRightCopyin (s : RightState) (name : MachPort) (entry : EntryRef) (msgtName : MsgTypeName)
    (deadok : Bool) : Copyin × RightState :=
  let (bits, s) := s.useEntry name entry
  let port := bits.object.getD 0
  let invalidRight : Copyin := ⟨.invalidRight, none, none⟩
  let invalidName : Copyin := ⟨.invalidName, none, none⟩
  match msgtName with
  | .makeSend =>
    if bits.type.receive = false then (invalidRight, s)
    else
      (⟨.success, some port, none⟩, (s.modifyPort port fun p =>
        { p with mscount := p.mscount + 1, srights := p.srights + 1 }).portReference port)
  | .makeSendOnce =>
    if bits.type.receive = false then (invalidRight, s)
    else
      (⟨.success, some port, none⟩,
        (s.modifyPort port fun p => { p with sorights := p.sorights + 1 }).portReference port)
  | .moveReceive =>
    if bits.type.receive = false then (invalidRight, s)
    else
      let (dnrequest, s) :=
        if bits.type.send = true then
          (none, (s.call (.hashInsert (some port) name)).portReference port)
        else
          let (dnrequest, s) := s.dncancel port name entry
          let s := s.callIf bits.marequest (.marequestCancel name)
          (dnrequest, s.writeEntry name entry fun c => { c with object := none })
      let s := s.writeEntry name entry fun c => { c with type := { c.type with receive := false } }
      let s := s.call (.clearReceiver port)
      (⟨.success, some port, dnrequest⟩, s.modifyPort port fun p =>
        { p with mscount := 0, receiverName := ⊥, destination := none })
  | .copySend =>
    if bits.type.deadName = true then s.copyDead deadok
    -- dead send-once rights are allowed
    else if bits.type.sendRights = false then (invalidRight, s)
    else
      let (dead, s) := s.ipcRightCheck port name entry
      if dead = true then
        if bits.compat = true then (invalidName, s)
        else
          let (_, s) := s.useEntry name entry
          s.copyDead deadok
      else if bits.type.send = false then (invalidRight, s)
      else
        (⟨.success, some port, none⟩,
          (s.modifyPort port fun p => { p with srights := p.srights + 1 }).portReference port)
  | .moveSend =>
    if bits.type.deadName = true then s.moveDead name entry bits deadok
    else if bits.type.sendRights = false then (invalidRight, s)
    else
      let (dead, s) := s.ipcRightCheck port name entry
      if dead = true then
        if bits.compat = true then (invalidName, s)
        else
          let (bits, s) := s.useEntry name entry
          s.moveDead name entry bits deadok
      else if bits.type.send = false then (invalidRight, s)
      else if bits.urefs = 1 then
        let (dnrequest, s) :=
          if bits.type.receive = true then (none, s.portReference port)
          else
            let (dnrequest, s) := s.dncancel port name entry
            let s := s.call (.hashDelete (some port) name)
            let s := s.callIf bits.marequest (.marequestCancel name)
            (dnrequest, s.writeEntry name entry fun c => { c with object := none })
        let s := s.writeEntry name entry fun c =>
          { c with type := { c.type with send := false }, urefs := 0 }
        (⟨.success, some port, dnrequest⟩, s)
      else
        let s := s.modifyPort port fun p => { p with srights := p.srights + 1 }
        let s := s.portReference port
        (⟨.success, some port, none⟩,
          s.writeEntry name entry fun c => { c with urefs := bits.urefs - 1 })
  | .moveSendOnce =>
    if bits.type.deadName = true then s.moveDead name entry bits deadok
    -- dead send rights are allowed
    else if bits.type.sendRights = false then (invalidRight, s)
    else
      let (dead, s) := s.ipcRightCheck port name entry
      if dead = true then
        if bits.compat = true then (invalidName, s)
        else
          let (bits, s) := s.useEntry name entry
          s.moveDead name entry bits deadok
      else if bits.type.sendOnce = false then (invalidRight, s)
      else
        let (dnrequest, s) := s.dncancel port name entry
        let s := s.writeEntry name entry fun c => { c with object := none }
        let s := s.writeEntry name entry fun c => { c with type := { c.type with sendOnce := false } }
        (⟨.success, some port, dnrequest⟩, s)

def ipcRightLookupWrite (s : RightState) (name : MachPort) : Except KernReturn EntryRef × RightState :=
  if s.space.isActive = false then (.error .invalidTask, s)
  else
    match s.lookupEntry name with
    | (none, s) => (.error .invalidName, s)
    | (some entry, s) => (.ok entry, s)

def ipcObjectCopyin (s : RightState) (name : MachPort) (msgtName : MsgTypeName) :
    KernReturn × Option ℕ × RightState :=
  match s.ipcRightLookupWrite name with
  | (.error kr, s) => (kr, none, s)
  | (.ok entry, s) =>
    let (copyin, s) := s.ipcRightCopyin name entry msgtName true
    let (e, s) := s.useEntry name entry
    let s := if e.type = .none then s.deallocEntry name entry else s
    (copyin.kr, copyin.object,
      if copyin.kr = .success then s.notifyPortDeleted name copyin.soright else s)

def ipcRightRename (s : RightState) (oname : MachPort) (oentry : EntryRef) (nname : MachPort)
    (nentry : EntryRef) : KernReturn × RightState :=
  let (bits, s) := s.useEntry oname oentry
  let (dead, s) :=
    if bits.request ≠ 0 then s.ipcRightCheck (bits.object.getD 0) oname oentry else (false, s)
  if dead = true ∧ bits.compat = true then (.invalidName, s.deallocEntry nname nentry)
  else
    let (bits, s) :=
      if dead = true then
        let (e, s) := s.useEntry oname oentry
        ({ e with request := 0, object := none }, s)
      else if bits.request ≠ 0 then
        let s := s.call (.dnrename bits.request oname nname)
        (bits, s.writeEntry oname oentry fun c => { c with request := 0 })
      else (bits, s)
    let s := s.callIf bits.marequest (.marequestRename oname nname)
    -- the new entry is set up before the hash table can see it
    let s := s.writeEntry nname nentry fun _ => bits
    let s :=
      if bits.type = .onlySend then
        (s.call (.hashDelete bits.object oname)).call (.hashInsert bits.object nname)
      else if bits.type.receive = true then
        s.modifyPort (bits.object.getD 0) fun p => { p with receiverName := nname }
      else if bits.type.portSet = true then s.call (.psetRename bits.object nname)
      else s
    let s := s.writeEntry oname oentry fun c => { c with object := none }
    (.success, s.deallocEntry oname oentry)

end RightState

end MachKernel.Ipc
