import MachKernel.Ipc.Circularity

/-! Message queues of ports and port sets (`ipc/ipc_mqueue.c`, `ipc/ipc_pset.c`): messages, waiting
receivers and blocked senders. -/

namespace MachKernel.Ipc
open Function

abbrev PsetId := ℕ

/-- A message: its destination, its size, and whether it is marked `MACH_MSGH_BITS_CIRCULAR` or sent
to a send-once right. -/
structure Kmsg where
  address : ℕ
  msghRemotePort : PortId
  msghSize : ℕ
  circular : Bool
  sendOnce : Bool
  deriving DecidableEq

/-- A thread in a message queue, with the size of its buffer. -/
structure Receiver where
  thread : ℕ
  ithMsize : ℕ
  deriving DecidableEq

/-- A thread in `ipc_mqueue_send`: its message, `MACH_SEND_ALWAYS`, and the timeout if there is
`MACH_SEND_TIMEOUT`. -/
structure Sender where
  thread : ℕ
  kmsg : Kmsg
  sendAlways : Bool
  timeout : Option ℕ
  deriving DecidableEq

/-- `ipc_mqueue`. -/
structure Mqueue where
  imqMessages : List Kmsg
  imqThreads : List Receiver

/-- Whose message queue it is. -/
inductive Owner
  | port (p : PortId)
  | pset (ps : PsetId)
  deriving DecidableEq

/-- `ipc_port`, up to what sending and receiving uses; `ipKernel` when the receiver is the kernel. -/
structure IpcPort where
  ipActive : Bool
  ipKernel : Bool
  ipPset : Option PsetId
  ipSeqno : ℕ
  ipMsgcount : ℕ
  ipQlimit : ℕ
  ipBlocked : List Sender

def machPortQlimitDefault : ℕ := 5

def machPortQlimitMax : ℕ := 16

/-- A message given to a receiver of a queue, with its sequence number. -/
structure Delivery where
  receiver : Receiver
  owner : Owner
  kmsg : Kmsg
  seqno : ℕ
  deriving DecidableEq

/-- Ports and port sets, and for each port: the senders woken that have not run yet, the messages given
to receivers that have not come to the lock of the port yet, and as a history the messages it
accepted and those delivered. -/
structure MqState where
  ports : PortId → IpcPort
  ipsActive : PsetId → Bool
  queues : Owner → Mqueue
  woken : PortId → List Sender
  held : PortId → List Delivery
  accepted : PortId → List Kmsg
  delivered : PortId → List Delivery

inductive SendResult
  | success
  | timedOut
  | interrupted
  /-- The thread is blocked. -/
  | inProgress

inductive ReceiveResult
  | success
  | tooLarge (size : ℕ)
  | timedOut
  | interrupted
  | invalidName
  | inSet
  /-- The thread waits. -/
  | inProgress

namespace MqState
variable (s : MqState)

def modifyPort (p : PortId) (f : IpcPort → IpcPort) : MqState :=
  { s with ports := update s.ports p (f (s.ports p)) }

def setQueue (o : Owner) (q : Mqueue) : MqState := { s with queues := update s.queues o q }

/-- The queue into which messages for a port go. -/
def ownerOf (p : PortId) : Owner :=
  match (s.ports p).ipPset with
  | none => .port p
  | some ps => .pset ps

/-- The message is handed to the receiver, with `ip_seqno++`. -/
def deliver (r : Receiver) (o : Owner) (kmsg : Kmsg) : MqState :=
  let p := kmsg.msghRemotePort
  let d : Delivery := ⟨r, o, kmsg, (s.ports p).ipSeqno⟩
  { s.modifyPort p (fun port => { port with ipSeqno := (port.ipSeqno + 1) % 2 ^ 32 }) with
    held := update s.held p (s.held p ++ [d])
    delivered := update s.delivered p (s.delivered p ++ [d]) }

end MqState

/-- The first waiting receiver whose buffer is large enough, and those behind it; the ones before it
are woken with `MACH_RCV_TOO_LARGE`. -/
def findReceiver (size : ℕ) : List Receiver → Option Receiver × List Receiver
  | [] => (none, [])
  | r :: rest => if size ≤ r.ithMsize then (some r, rest) else findReceiver size rest

namespace MqState
variable (s : MqState)

/-- The message is given to a receiver that waits in the queue, or put at the end of the queue. -/
def putKmsg (o : Owner) (kmsg : Kmsg) : MqState :=
  match findReceiver kmsg.msghSize (s.queues o).imqThreads with
  | (some r, rest) => (s.setQueue o ⟨(s.queues o).imqMessages, rest⟩).deliver r o kmsg
  | (none, rest) => s.setQueue o ⟨(s.queues o).imqMessages ++ [kmsg], rest⟩

/-- `ipc_kmsg_rmqueue`. -/
def rmqueue (o : Owner) (kmsg : Kmsg) : MqState :=
  s.setQueue o ⟨(s.queues o).imqMessages.erase kmsg, (s.queues o).imqThreads⟩

/-- The loop of `ipc_mqueue_move` over the messages of the old queue. -/
def moveLoop (dest source : Owner) (port : PortId) : List Kmsg → MqState → MqState
  | [], s => s
  | kmsg :: rest, s =>
    if kmsg.msghRemotePort ≠ port then moveLoop dest source port rest s
    else moveLoop dest source port rest ((s.rmqueue source kmsg).putKmsg dest kmsg)

def ipcMqueueMove (dest source : Owner) (port : PortId) : MqState :=
  moveLoop dest source port (s.queues source).imqMessages s

/-- `ipc_mqueue_changed`: all receivers are woken. -/
def ipcMqueueChanged (o : Owner) : MqState := s.setQueue o ⟨(s.queues o).imqMessages, []⟩

/-- The message is accepted: `ip_msgcount++`, and then it goes to the queue. -/
def accept (kmsg : Kmsg) : MqState :=
  let p := kmsg.msghRemotePort
  let s' := s.modifyPort p fun port => { port with ipMsgcount := (port.ipMsgcount + 1) % 2 ^ 16 }
  { s' with accepted := update s.accepted p (s.accepted p ++ [kmsg]) }.putKmsg (s.ownerOf p) kmsg

/-- Whether the sender need not block. -/
def Admits (sd : Sender) : Prop :=
  (s.ports sd.kmsg.msghRemotePort).ipMsgcount < (s.ports sd.kmsg.msghRemotePort).ipQlimit ∨
    sd.sendAlways = true ∨ sd.kmsg.sendOnce = true

instance (sd : Sender) : Decidable (s.Admits sd) := by unfold Admits; infer_instance

/-- Whether the message of the sender is accepted. -/
def Takes (sd : Sender) : Prop :=
  (s.ports sd.kmsg.msghRemotePort).ipActive = true ∧ s.Admits sd ∧ sd.kmsg.circular = false

/-- The loop of `ipc_mqueue_send` up to the next `thread_block`, and what comes after it. -/
def sendLoop (sd : Sender) : SendResult × MqState :=
  let p := sd.kmsg.msghRemotePort
  if (s.ports p).ipActive = false then (.success, s)
  else if s.Admits sd then
    if sd.kmsg.circular then (.success, s) else (.success, s.accept sd.kmsg)
  else if sd.timeout = some 0 then (.timedOut, s)
  else (.inProgress, s.modifyPort p fun port => { port with ipBlocked := port.ipBlocked ++ [sd] })

/-- `ipc_mqueue_send`; a message to the kernel is handled, and its reply is another message. -/
def ipcMqueueSend (sd : Sender) : SendResult × MqState :=
  if (s.ports sd.kmsg.msghRemotePort).ipKernel then (.success, s) else s.sendLoop sd

/-- A sender that was woken with `MACH_MSG_SUCCESS` runs. -/
def unwake (sd : Sender) : MqState :=
  let p := sd.kmsg.msghRemotePort
  { s with woken := update s.woken p ((s.woken p).erase sd) }

def sendWoken (sd : Sender) : SendResult × MqState := (s.unwake sd).sendLoop sd

/-- A sender takes itself off the queue of blocked senders. -/
def unblock (sd : Sender) : MqState :=
  s.modifyPort sd.kmsg.msghRemotePort fun port => { port with ipBlocked := port.ipBlocked.erase sd }

/-- `THREAD_TIMED_OUT`. -/
def sendTimedOut (sd : Sender) : SendResult × MqState :=
  (s.unblock sd).sendLoop { sd with timeout := some 0 }

/-- `THREAD_INTERRUPTED` and `THREAD_SHOULD_TERMINATE`. -/
def sendInterrupted (sd : Sender) : SendResult × MqState := (.interrupted, s.unblock sd)

/-- The loop of `ipc_mqueue_receive` up to the next `thread_block`, or until it has a message. -/
def receiveLoop (o : Owner) (r : Receiver) (timeout : Option ℕ) : ReceiveResult × MqState :=
  match (s.queues o).imqMessages with
  | kmsg :: rest =>
    if r.ithMsize < kmsg.msghSize then (.tooLarge kmsg.msghSize, s)
    else (.success, (s.setQueue o ⟨rest, (s.queues o).imqThreads⟩).deliver r o kmsg)
  | [] =>
    if timeout = some 0 then (.timedOut, s)
    else (.inProgress, s.setQueue o ⟨[], (s.queues o).imqThreads ++ [r]⟩)

/-- A receiver takes itself off the message queue. -/
def unwait (o : Owner) (r : Receiver) : MqState :=
  s.setQueue o ⟨(s.queues o).imqMessages, (s.queues o).imqThreads.erase r⟩

def receiveTimedOut (o : Owner) (r : Receiver) : ReceiveResult × MqState :=
  (s.unwait o r).receiveLoop o r (some 0)

def receiveInterrupted (o : Owner) (r : Receiver) : ReceiveResult × MqState :=
  (.interrupted, s.unwait o r)

/-- The first blocked sender is woken with `MACH_MSG_SUCCESS`. -/
def wakeSender (p : PortId) : MqState :=
  match (s.ports p).ipBlocked with
  | [] => s
  | sd :: rest =>
    { s.modifyPort p (fun port => { port with ipBlocked := rest }) with
      woken := update s.woken p (s.woken p ++ [sd]) }

/-- The end of `ipc_mqueue_receive`, under the lock of the port. -/
def receiveFinish (d : Delivery) : MqState :=
  let p := d.kmsg.msghRemotePort
  let s1 := { s with held := update s.held p ((s.held p).erase d) }
  if (s.ports p).ipActive then
    let s2 := s1.modifyPort p fun port =>
      { port with ipMsgcount := (port.ipMsgcount + (2 ^ 16 - 1)) % 2 ^ 16 }
    if (s2.ports p).ipMsgcount < (s2.ports p).ipQlimit then s2.wakeSender p else s2
  else s1

def ipcPsetAdd (ps : PsetId) (p : PortId) : MqState :=
  ((s.modifyPort p fun port => { port with ipPset := some ps }).ipcMqueueMove (.pset ps) (.port p)
    p).ipcMqueueChanged (.port p)

def ipcPsetRemove (ps : PsetId) (p : PortId) : MqState :=
  (s.modifyPort p fun port => { port with ipPset := none }).ipcMqueueMove (.port p) (.pset ps) p

/-- `ipc_pset_move`; `false` for `KERN_NOT_IN_SET`. -/
def ipcPsetMove (p : PortId) (nset : Option PsetId) : Bool × MqState :=
  match (s.ports p).ipPset, nset with
  | none, none => (false, s)
  | none, some ns => (true, s.ipcPsetAdd ns p)
  | some os, none => (s.ipsActive os, s.ipcPsetRemove os p)
  | some os, some ns =>
    if os = ns then (true, s) else (true, (s.ipcPsetRemove os p).ipcPsetAdd ns p)

/-- `ipc_pset_destroy`; the ports stay in the set. -/
def ipcPsetDestroy (ps : PsetId) : MqState :=
  { s with ipsActive := update s.ipsActive ps false }.ipcMqueueChanged (.pset ps)

/-- `ipc_mqueue_copyin` and `ipc_mqueue_receive`, which keep the queue locked in between. -/
def ipcMqueueReceive (o : Owner) (r : Receiver) (timeout : Option ℕ) : ReceiveResult × MqState :=
  match o with
  | .port p =>
    if (s.ports p).ipActive = false then (.invalidName, s)
    else
      match (s.ports p).ipPset with
      | none => s.receiveLoop o r timeout
      | some ps =>
        if s.ipsActive ps then (.inSet, s) else (s.ipcPsetRemove ps p).receiveLoop o r timeout
  | .pset ps => if s.ipsActive ps = false then (.invalidName, s) else s.receiveLoop o r timeout

def ipcPortSetQlimit (p : PortId) (qlimit : ℕ) : MqState :=
  ((fun t => t.wakeSender p)^[qlimit - (s.ports p).ipQlimit] s).modifyPort p
    fun port => { port with ipQlimit := qlimit }

def ipcPortClearReceiver (p : PortId) : MqState :=
  let s' := match (s.ports p).ipPset with
    | some ps => s.ipcPsetRemove ps p
    | none => s.ipcMqueueChanged (.port p)
  s'.modifyPort p fun port => { port with ipSeqno := 0 }

/-- `ipc_port_destroy` without a backup port: all blocked senders are woken, the messages destroyed. -/
def ipcPortDestroy (p : PortId) : MqState :=
  let s1 := (fun t => t.wakeSender p)^[(s.ports p).ipBlocked.length] s
  let s2 := s1.modifyPort p fun port => { port with ipActive := false }
  s2.setQueue (.port p) ⟨[], (s2.queues (.port p)).imqThreads⟩

end MqState

/-- What a thread does while it holds the locks. -/
inductive MqAction
  | send (sd : Sender)
  | sendWoken (sd : Sender)
  | sendTimedOut (sd : Sender)
  | sendInterrupted (sd : Sender)
  | receive (o : Owner) (r : Receiver) (timeout : Option ℕ)
  | receiveTimedOut (o : Owner) (r : Receiver)
  | receiveInterrupted (o : Owner) (r : Receiver)
  | receiveFinish (d : Delivery)
  | psetAdd (ps : PsetId) (p : PortId)
  | psetRemove (ps : PsetId) (p : PortId)
  | psetMove (p : PortId) (nset : Option PsetId)
  | psetDestroy (ps : PsetId)
  | setQlimit (p : PortId) (qlimit : ℕ)
  | destroy (p : PortId)

namespace MqState
variable (s : MqState)

def perform : MqAction → MqState
  | .send sd => (s.ipcMqueueSend sd).2
  | .sendWoken sd => (s.sendWoken sd).2
  | .sendTimedOut sd => (s.sendTimedOut sd).2
  | .sendInterrupted sd => (s.sendInterrupted sd).2
  | .receive o r timeout => (s.ipcMqueueReceive o r timeout).2
  | .receiveTimedOut o r => (s.receiveTimedOut o r).2
  | .receiveInterrupted o r => (s.receiveInterrupted o r).2
  | .receiveFinish d => s.receiveFinish d
  | .psetAdd ps p => s.ipcPsetAdd ps p
  | .psetRemove ps p => s.ipcPsetRemove ps p
  | .psetMove p nset => (s.ipcPsetMove p nset).2
  | .psetDestroy ps => s.ipcPsetDestroy ps
  | .setQlimit p qlimit => s.ipcPortSetQlimit p qlimit
  | .destroy p => (s.ipcPortClearReceiver p).ipcPortDestroy p

/-- What the code asserts of its callers, and for a thread that runs again, that it was blocked. -/
def Enabled : MqAction → Prop
  | .send _ => True
  | .sendWoken sd => sd ∈ s.woken sd.kmsg.msghRemotePort
  | .sendTimedOut sd => sd ∈ (s.ports sd.kmsg.msghRemotePort).ipBlocked ∧ sd.timeout ≠ none
  | .sendInterrupted sd => sd ∈ (s.ports sd.kmsg.msghRemotePort).ipBlocked
  | .receive _ _ _ => True
  | .receiveTimedOut o r => r ∈ (s.queues o).imqThreads
  | .receiveInterrupted o r => r ∈ (s.queues o).imqThreads
  | .receiveFinish d => d ∈ s.held d.kmsg.msghRemotePort
  | .psetAdd ps p => s.ipsActive ps = true ∧ (s.ports p).ipActive = true ∧ (s.ports p).ipPset = none
  | .psetRemove ps p => (s.ports p).ipActive = true ∧ (s.ports p).ipPset = some ps
  | .psetMove p nset => (s.ports p).ipActive = true ∧ ∀ ns, nset = some ns → s.ipsActive ns = true
  | .psetDestroy ps => s.ipsActive ps = true
  | .setQlimit p qlimit => (s.ports p).ipActive = true ∧ qlimit ≤ machPortQlimitMax
  | .destroy p => (s.ports p).ipActive = true

/-- The action accepts a message for the port. -/
def Accepts : MqAction → PortId → Prop
  | .send sd, p =>
    p = sd.kmsg.msghRemotePort ∧ (s.ports p).ipKernel = false ∧ s.Takes sd
  | .sendWoken sd, p | .sendTimedOut sd, p => p = sd.kmsg.msghRemotePort ∧ s.Takes sd
  | _, _ => False

/-- The action ends the receive of a message of the port. -/
def Finishes : MqAction → PortId → Prop
  | .receiveFinish d, p => p = d.kmsg.msghRemotePort ∧ (s.ports p).ipActive = true
  | _, _ => False

end MqState

/-- One thread does something. -/
def MqStep (s s' : MqState) : Prop := ∃ a, s.Enabled a ∧ s' = s.perform a

/-- No port has been used yet, as after `ipc_port_init`. -/
structure MqState.Fresh (s : MqState) : Prop where
  ports : ∀ p, (s.ports p).ipPset = none ∧ (s.ports p).ipSeqno = 0 ∧ (s.ports p).ipMsgcount = 0 ∧
    (s.ports p).ipQlimit = machPortQlimitDefault ∧ (s.ports p).ipBlocked = []
  queues : ∀ o, s.queues o = ⟨[], []⟩
  woken : ∀ p, s.woken p = []
  held : ∀ p, s.held p = []
  accepted : ∀ p, s.accepted p = []
  delivered : ∀ p, s.delivered p = []

end MachKernel.Ipc
