import MachKernel.Ipc.CopyinUndo

/-! The bits of an entry as a word, and the operations that count user references in it
(`ipc/ipc_entry.h`, `ipc/port.h`, `ipc/ipc_right.c`). -/

namespace MachKernel.Ipc

namespace IeBits

/-- `IE_BITS_UREFS_MASK`. -/
def urefsMask : BitVec 32 := 0x0000ffff

/-- `IE_BITS_TYPE_MASK`. -/
def typeMask : BitVec 32 := 0x001f0000

/-- `IE_BITS_MAREQUEST`. -/
def marequest : BitVec 32 := 0x00200000

/-- `IE_BITS_COMPAT`. -/
def compat : BitVec 32 := 0x00400000

/-- `IE_BITS_RIGHT_MASK`. -/
def rightMask : BitVec 32 := 0x007fffff

/-- `MACH_PORT_TYPE_SEND` and so on. -/
def send : BitVec 32 := 0x00010000
def receive : BitVec 32 := 0x00020000
def sendOnce : BitVec 32 := 0x00040000
def portSet : BitVec 32 := 0x00080000
def deadName : BitVec 32 := 0x00100000

/-- `IE_BITS_UREFS`. -/
def urefs (bits : BitVec 32) : BitVec 32 := bits &&& urefsMask

/-- `IE_BITS_TYPE`. -/
def type (bits : BitVec 32) : BitVec 32 := bits &&& typeMask

/-- The test of `bits & mask`. -/
def has (bits mask : BitVec 32) : Bool := bits &&& mask != 0

/-- `MACH_PORT_UREFS_MAX`, an unsigned word. -/
def machPortUrefsMax : BitVec 32 := 1 <<< 16 - 1

/-- `MACH_PORT_UREFS_OVERFLOW`, of an unsigned count and a signed change. -/
def machPortUrefsOverflow (urefs delta : BitVec 32) : Bool :=
  BitVec.slt 0 delta && (BitVec.ule (urefs + delta) urefs || BitVec.ult machPortUrefsMax (urefs + delta))

/-- `MACH_PORT_UREFS_UNDERFLOW`. The comparison with the count is unsigned. -/
def machPortUrefsUnderflow (urefs delta : BitVec 32) : Bool :=
  BitVec.slt delta 0 && BitVec.ult urefs (-delta)

end IeBits

open IeBits

/-- `struct ipc_entry`. -/
structure EntryWord where
  ieBits : BitVec 32
  ieObject : Option ℕ
  ieRequest : ℕ
deriving DecidableEq

/-- What `ipc_right_copyin` gives: an object, where `none` is `IO_DEAD`, and whether there is a
send-once right. -/
structure CopiedIn where
  kr : KernReturn
  object : Option ℕ
  soright : Bool

/-- What a dead-name request asks for: `notify` may be `IP_NULL`, and then there is no slot. The slot
is `none` when the table of the port is full. -/
inductive Notify
  | null
  | notify (slot : Option ℕ)

namespace EntryWord

/-! An operation gives back the entry, or nothing after `ipc_entry_dealloc`. The port of the entry is
alive or dead when the operation locks it; nothing is assumed of when it dies. -/

def ipcRightCheck (e : EntryWord) (alive : Bool) : Bool × Option EntryWord :=
  if alive = true then (false, some e)
  else
    let bits := e.ieBits
    let bits :=
      if has bits send = true then
        if has bits marequest = true then bits &&& ~~~marequest else bits
      else bits
    if has bits compat = true then (true, none)
    else
      let bits := bits &&& ~~~typeMask ||| deadName
      let bits := if e.ieRequest ≠ 0 then bits + 1 else bits
      (true, some ⟨bits, none, 0⟩)

/-- `ipc_right_dncancel_macro`: whether there is a send-once right, which a compat entry has not. -/
def dncancel (e : EntryWord) : Bool × EntryWord :=
  if e.ieRequest = 0 then (false, e) else (!has e.ieBits compat, { e with ieRequest := 0 })

/-- What callers do when `ipc_right_check` said that the port is dead. -/
def checked (bits : BitVec 32) (e : Option EntryWord)
    (dead : EntryWord → KernReturn × Option EntryWord) : KernReturn × Option EntryWord :=
  if has bits compat = true then (.invalidName, e)
  else
    match e with
    | some e => dead e
    | none => (.invalidName, none)

/-- The label `dead_name` of `ipc_right_dealloc`. -/
def deallocDeadName (e : EntryWord) : KernReturn × Option EntryWord :=
  let bits := e.ieBits
  if urefs bits = 1 then (.success, none) else (.success, some { e with ieBits := bits - 1 })

def ipcRightDealloc (e : EntryWord) (alive : Bool) : KernReturn × Option EntryWord :=
  let bits := e.ieBits
  let type := type bits
  if type = deadName then e.deallocDeadName
  else if type = sendOnce then
    match e.ipcRightCheck alive with
    | (true, e) => checked bits e deallocDeadName
    | (false, _) => (.success, none)
  else if type = send then
    match e.ipcRightCheck alive with
    | (true, e) => checked bits e deallocDeadName
    | (false, _) =>
      if urefs bits = 1 then (.success, none) else (.success, some { e with ieBits := bits - 1 })
  else if type = send ||| receive then
    if urefs bits = 1 then (.success, some { e with ieBits := bits &&& ~~~(urefsMask ||| send) })
    else (.success, some { e with ieBits := bits - 1 })
  else (.invalidRight, some e)

/-- The dead-name case of `ipc_right_delta`. -/
def deltaDeadName (delta : BitVec 32) (e : EntryWord) : KernReturn × Option EntryWord :=
  let bits := e.ieBits
  let urefs := urefs bits
  if machPortUrefsUnderflow urefs delta = true then (.invalidValue, some e)
  else if machPortUrefsOverflow urefs delta = true then (.urefsOverflow, some e)
  else if urefs + delta = 0 then (.success, none)
  else (.success, some { e with ieBits := bits + delta })

def ipcRightDelta (e : EntryWord) (alive : Bool) (right : PortRight) (delta : BitVec 32) :
    KernReturn × Option EntryWord :=
  let bits := e.ieBits
  match right with
  | .portSet =>
    if has bits portSet = false then (.invalidRight, some e)
    else if delta = 0 then (.success, some e)
    else if delta ≠ -1 then (.invalidValue, some e)
    else (.success, none)
  | .receive =>
    if has bits receive = false then (.invalidRight, some e)
    else if delta = 0 then (.success, some e)
    else if delta ≠ -1 then (.invalidValue, some e)
    else
      let bits := if has bits marequest = true then bits &&& ~~~marequest else bits
      if has bits compat = true then (.success, none)
      else if has bits send = true then
        let bits := bits &&& ~~~typeMask
        let bits := bits ||| deadName
        let bits := if e.ieRequest ≠ 0 then bits + 1 else bits
        (.success, some ⟨bits, none, 0⟩)
      else (.success, none)
  | .sendOnce =>
    if has bits sendOnce = false then (.invalidRight, some e)
    else if BitVec.slt 0 delta || BitVec.slt delta (-1) then (.invalidValue, some e)
    else
      match e.ipcRightCheck alive with
      | (true, e) => checked bits e fun e => (.invalidRight, some e)
      | (false, _) => if delta = 0 then (.success, some e) else (.success, none)
  | .deadName =>
    if has bits (send ||| sendOnce) = true then
      match e.ipcRightCheck alive with
      | (true, e) => checked bits e (deltaDeadName delta)
      | (false, _) => (.invalidRight, some e)
    else if has bits deadName = false then (.invalidRight, some e)
    else e.deltaDeadName delta
  | .send =>
    if has bits send = false then (.invalidRight, some e)
    else
      let urefs := urefs bits
      if machPortUrefsUnderflow urefs delta = true then (.invalidValue, some e)
      else if machPortUrefsOverflow (urefs + 1) delta = true then (.urefsOverflow, some e)
      else
        match e.ipcRightCheck alive with
        | (true, e) => checked bits e fun e => (.invalidRight, some e)
        | (false, _) =>
          if urefs + delta = 0 then
            if has bits receive = true then
              (.success, some { e with ieBits := bits &&& ~~~(urefsMask ||| send) })
            else (.success, none)
          else (.success, some { e with ieBits := bits + delta })

/-- The label `copy_dead` of `ipc_right_copyin`. -/
def copyDead (deadok : Bool) (e : EntryWord) : CopiedIn × Option EntryWord :=
  if deadok = false then (⟨.invalidRight, none, false⟩, some e)
  else (⟨.success, none, false⟩, some e)

/-- The label `move_dead`. -/
def moveDead (deadok : Bool) (e : EntryWord) : CopiedIn × Option EntryWord :=
  let bits := e.ieBits
  if deadok = false then (⟨.invalidRight, none, false⟩, some e)
  else if urefs bits = 1 then
    (⟨.success, none, false⟩, some { e with ieBits := bits &&& ~~~deadName })
  else (⟨.success, none, false⟩, some { e with ieBits := bits - 1 })

/-- The cases of `ipc_right_copyin` for send and send-once rights: dead names and rights for dead
ports are taken as such, rights for a port that is alive must have the type. -/
def copyinSends (e : EntryWord) (alive : Bool) (right : BitVec 32)
    (dead : EntryWord → CopiedIn × Option EntryWord) (live : CopiedIn × Option EntryWord) :
    CopiedIn × Option EntryWord :=
  let bits := e.ieBits
  if has bits deadName = true then dead e
  else if has bits (send ||| sendOnce) = false then (⟨.invalidRight, none, false⟩, some e)
  else
    match e.ipcRightCheck alive with
    | (true, e) =>
      if has bits compat = true then (⟨.invalidName, none, false⟩, e)
      else
        match e with
        | some e => dead e
        | none => (⟨.invalidName, none, false⟩, none)
    | (false, _) => if has bits right = false then (⟨.invalidRight, none, false⟩, some e) else live

def ipcRightCopyin (e : EntryWord) (alive : Bool) (msgtName : MsgTypeName) (deadok : Bool) :
    CopiedIn × Option EntryWord :=
  let bits := e.ieBits
  match msgtName with
  | .makeSend | .makeSendOnce =>
    if has bits receive = false then (⟨.invalidRight, none, false⟩, some e)
    else (⟨.success, e.ieObject, false⟩, some e)
  | .moveReceive =>
    if has bits receive = false then (⟨.invalidRight, none, false⟩, some e)
    else if has bits send = true then
      (⟨.success, e.ieObject, false⟩, some { e with ieBits := bits &&& ~~~receive })
    else
      let port := e.ieObject
      let (dnrequest, e) := e.dncancel
      (⟨.success, port, dnrequest⟩, some { e with ieObject := none, ieBits := bits &&& ~~~receive })
  | .copySend =>
    e.copyinSends alive send (copyDead deadok) (⟨.success, e.ieObject, false⟩, some e)
  | .moveSend =>
    e.copyinSends alive send (moveDead deadok) ( if urefs bits = 1 then
        let port := e.ieObject
        let (dnrequest, e) :=
          if has bits receive = true then (false, e)
          else
            let (dnrequest, e) := e.dncancel
            (dnrequest, { e with ieObject := none })
        (⟨.success, port, dnrequest⟩, some { e with ieBits := bits &&& ~~~(urefsMask ||| send) })
      else (⟨.success, e.ieObject, false⟩, some { e with ieBits := bits - 1 }))
  | .moveSendOnce =>
    e.copyinSends alive sendOnce (moveDead deadok) ( let port := e.ieObject
      let (dnrequest, e) := e.dncancel
      (⟨.success, port, dnrequest⟩, some { e with ieObject := none, ieBits := bits &&& ~~~sendOnce }))

/-- `ipc_right_copyin_undo`. The port is dead. -/
def ipcRightCopyinUndo (e : EntryWord) (msgtName : MsgTypeName) (soright : Bool) : Option EntryWord :=
  let bits := e.ieBits
  if soright = true then
    some { e with ieBits := bits &&& ~~~rightMask ||| deadName ||| 2 }
  else if type bits = 0 then
    some { e with ieBits := bits &&& ~~~rightMask ||| deadName ||| 1 }
  else if type bits = deadName then
    if msgtName ≠ .copySend then some { e with ieBits := bits + 1 } else some e
  else
    let e := if msgtName ≠ .copySend then { e with ieBits := bits + 1 } else e
    (e.ipcRightCheck false).2

def ipcRightCopyinTwo (e : EntryWord) (alive : Bool) : CopiedIn × Option EntryWord :=
  let bits := e.ieBits
  if has bits send = false then (⟨.invalidRight, none, false⟩, some e)
  else
    let urefs := urefs bits
    if BitVec.ult urefs 2 then (⟨.invalidRight, none, false⟩, some e)
    else
      match e.ipcRightCheck alive with
      | (true, e) =>
        if has bits compat = true then (⟨.invalidName, none, false⟩, e)
        else (⟨.invalidRight, none, false⟩, e)
      | (false, _) =>
        let port := e.ieObject
        if urefs = 2 then
          let (dnrequest, e) :=
            if has bits receive = true then (false, e)
            else
              let (dnrequest, e) := e.dncancel
              (dnrequest, { e with ieObject := none })
          (⟨.success, port, dnrequest⟩, some { e with ieBits := bits &&& ~~~(urefsMask ||| send) })
        else (⟨.success, port, false⟩, some { e with ieBits := bits - 2 })

/-- `ipc_right_copyout` of a send-once right, a send right or a receive right. -/
def ipcRightCopyout (e : EntryWord) (right : PortRight) (overflow : Bool) : KernReturn × EntryWord :=
  let bits := e.ieBits
  match right with
  | .sendOnce => (.success, { e with ieBits := bits ||| (sendOnce ||| 1) })
  | .send =>
    if has bits send = true ∧ urefs bits + 1 = machPortUrefsMax then
      -- the count is left at its maximum
      if overflow = true then (.success, e) else (.urefsOverflow, e)
    else (.success, { e with ieBits := (bits ||| send) + 1 })
  | .receive => (.success, { e with ieBits := bits ||| receive })
  | _ => (.success, e)

/-- The quick copyout of a send right in `ipc_kmsg_copyout_object`. -/
def copyoutQuick (e : EntryWord) : EntryWord :=
  let bits := e.ieBits + 1
  if BitVec.ult (urefs bits) machPortUrefsMax then { e with ieBits := bits } else e

/-- A turn of `ipc_right_dnrequest`; without a result there is another turn after the table of the
port has grown. -/
def ipcRightDnrequest (e : EntryWord) (alive immediate : Bool) (notify : Notify) :
    Option KernReturn × Option EntryWord :=
  let bits := e.ieBits
  let immediately (e : EntryWord) : Option KernReturn × Option EntryWord :=
    let bits := e.ieBits
    match notify with
    | .notify _ =>
      if has bits deadName = true ∧ immediate = true then
        if machPortUrefsOverflow (urefs bits) 1 = true then (some .urefsOverflow, some e)
        else (some .success, some { e with ieBits := bits + 1 })
      else if has bits (send ||| receive ||| sendOnce ||| deadName) = true then
        (some .invalidArgument, some e)
      else (some .invalidRight, some e)
    | .null =>
      if has bits (send ||| receive ||| sendOnce ||| deadName) = true then
        (some .invalidArgument, some e)
      else (some .invalidRight, some e)
  if has bits (send ||| receive ||| sendOnce) = true then
    match e.ipcRightCheck alive with
    | (false, _) =>
      match notify with
      | .null =>
        if has bits compat = true then (some .success, some e)
        else (some .success, some e.dncancel.2)
      | .notify slot =>
        let e := e.dncancel.2
        match slot with
        | none => (none, some e)
        | some request =>
          (some .success, some { e with ieRequest := request, ieBits := bits &&& ~~~compat })
    | (true, e) =>
      if has bits compat = true then (some .invalidName, e)
      else
        match e with
        | some e => immediately e
        | none => (some .invalidName, none)
  else immediately e

/-! ## Runs -/

/-- An entry that `ipc_entry_get` or `ipc_entry_alloc_name` made: only the generation and the
collision bit are set. -/
def fresh (gen : BitVec 32) : EntryWord := ⟨gen &&& ~~~rightMask, none, 0⟩

/-- `ipc_right_rename`, with the generation and the collision bit of the new entry. -/
def ipcRightRename (e : EntryWord) (alive : Bool) (gen : BitVec 32) :
    KernReturn × Option EntryWord :=
  let bits := e.ieBits
  let renamed (e : EntryWord) : EntryWord :=
    { e with ieBits := (fresh gen).ieBits ||| (e.ieBits &&& rightMask) }
  if e.ieRequest ≠ 0 then
    match e.ipcRightCheck alive with
    | (true, e') => checked bits e' fun e => (.success, some (renamed e))
    | (false, _) => (.success, some (renamed e))
  else (.success, some (renamed e))

/-- After a copyin the caller deallocates an entry without a right. -/
def kept (e : Option EntryWord) : Option EntryWord := e.filter fun e => type e.ieBits ≠ 0

/-- A copyin as callers make it. -/
def copyin (e : EntryWord) (alive : Bool) (msgtName : MsgTypeName) (deadok : Bool) :
    KernReturn × Option EntryWord :=
  let (c, e) := e.ipcRightCopyin alive msgtName deadok
  (c.kr, kept e)

def copyinTwo (e : EntryWord) (alive : Bool) : KernReturn × Option EntryWord :=
  let (c, e) := e.ipcRightCopyinTwo alive
  (c.kr, kept e)

/-- A copyin that is undone, if it succeeds, when the port is dead. -/
def copyinUndone (e : EntryWord) (alive : Bool) (msgtName : MsgTypeName) (deadok : Bool) :
    KernReturn × Option EntryWord :=
  let (c, e) := e.ipcRightCopyin alive msgtName deadok
  (c.kr, if c.kr = .success then e.bind fun e => e.ipcRightCopyinUndo msgtName c.soright else e)

/-- The entries of a new name. -/
inductive Made : EntryWord → Prop
  | copyout (gen : BitVec 32) (port : ℕ) (right : PortRight) (overflow : Bool)
      (h : right = .send ∨ right = .receive ∨ right = .sendOnce) :
      Made (({ fresh gen with ieObject := some port } : EntryWord).ipcRightCopyout right overflow).2
  /-- `ipc_object_copyout_compat`. -/
  | copyoutCompat (gen : BitVec 32) (port request : ℕ) (right : PortRight)
      (h : right = .send ∨ right = .receive ∨ right = .sendOnce) :
      Made ((⟨(fresh gen).ieBits ||| compat, some port, request⟩ : EntryWord).ipcRightCopyout right
        true).2
  /-- `ipc_object_alloc`, of a port or a port set. -/
  | alloc (gen : BitVec 32) (object : ℕ) (type : BitVec 32) (h : type = receive ∨ type = portSet) :
      Made ⟨(fresh gen).ieBits ||| (type ||| 0), some object, 0⟩
  /-- `ipc_port_alloc_compat`. -/
  | allocCompat (gen : BitVec 32) (port : ℕ) :
      Made ⟨(fresh gen).ieBits ||| (compat ||| receive), some port, 1⟩
  /-- `ipc_object_alloc_dead`. -/
  | allocDead (gen : BitVec 32) : Made ⟨(fresh gen).ieBits ||| (deadName ||| 1), none, 0⟩

end EntryWord

/-- The operations on an entry that change its user-reference count or its type. -/
inductive UrefOp
  | copyout (right : PortRight) (overflow : Bool)
  | copyoutQuick
  | dealloc (alive : Bool)
  | delta (alive : Bool) (right : PortRight) (delta : BitVec 32)
  | copyin (alive : Bool) (msgtName : MsgTypeName) (deadok : Bool)
  | copyinUndone (alive : Bool) (msgtName : MsgTypeName) (deadok : Bool)
  | copyinTwo (alive : Bool)
  | dnrequest (alive immediate : Bool) (notify : Notify)
  | check (alive : Bool)
  | rename (alive : Bool) (gen : BitVec 32)
  | marequest
  | marequestDestroy

namespace UrefOp

def run (e : EntryWord) : UrefOp → Option KernReturn × Option EntryWord
  | copyout right overflow =>
    let (kr, e) := e.ipcRightCopyout right overflow
    (some kr, some e)
  | copyoutQuick => (some .success, some e.copyoutQuick)
  | dealloc alive =>
    let (kr, e) := e.ipcRightDealloc alive
    (some kr, e)
  | delta alive right d =>
    let (kr, e) := e.ipcRightDelta alive right d
    (some kr, e)
  | copyin alive msgtName deadok =>
    let (kr, e) := e.copyin alive msgtName deadok
    (some kr, e)
  | copyinUndone alive msgtName deadok =>
    let (kr, e) := e.copyinUndone alive msgtName deadok
    (some kr, e)
  | copyinTwo alive =>
    let (kr, e) := e.copyinTwo alive
    (some kr, e)
  | dnrequest alive immediate notify => e.ipcRightDnrequest alive immediate notify
  | check alive => (some .success, (e.ipcRightCheck alive).2)
  | rename alive gen =>
    let (kr, e) := e.ipcRightRename alive gen
    (some kr, e)
  | marequest => (some .success, some { e with ieBits := e.ieBits ||| IeBits.marequest })
  | marequestDestroy => (some .success, some { e with ieBits := e.ieBits &&& ~~~IeBits.marequest })

/-- When callers run the operation on an entry: a copyout finds the name of the port in the reverse
hash table or as its receiver, what is undone is a copyin of a send or send-once right for a port
whose receive right is not in the entry, and a port whose receive right is in the entry is alive. -/
def Enabled (e : EntryWord) : UrefOp → Prop
  | copyout right _ =>
    right = .send ∧ has e.ieBits (send ||| receive) = true ∨ right = .receive ∧ type e.ieBits = send
  | copyoutQuick => type e.ieBits = send
  | copyinUndone _ msgtName _ =>
    (msgtName = .copySend ∨ msgtName = .moveSend ∨ msgtName = .moveSendOnce) ∧
      has e.ieBits receive = false
  | dnrequest alive _ _ | rename alive _ => alive = true ∨ has e.ieBits receive = false
  | check _ => has e.ieBits (send ||| sendOnce) = true
  | marequest | marequestDestroy => has e.ieBits (send ||| receive) = true
  | dealloc _ | delta _ _ _ | copyin _ _ _ | copyinTwo _ => True

end UrefOp

/-- The entries that the operations can make. -/
inductive EntryWord.Reachable : EntryWord → Prop
  | made {e : EntryWord} (h : Made e) : Reachable e
  | step {e e' : EntryWord} (op : UrefOp) (h : Reachable e) (hop : op.Enabled e)
      (he : (op.run e).2 = some e') : Reachable e'

end MachKernel.Ipc
