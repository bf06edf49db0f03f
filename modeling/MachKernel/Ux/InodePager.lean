import MachKernel.Lib.Linked
import MachKernel.Lib.Runs

/-! The life of an inode pager (`inode_pager.c`): its port, its entry in the hash table and its
reference to the inode, against the threads that set it up and the kernel that maps it. -/

namespace MachKernel.Ux.InodePager
open Function List Option

/-- `inode_pager_max_urefs`. -/
def maxUrefs : ℕ := 10000

/-- The messages to the port of a memory object: those of a mapping, by its request port, and the
notification. -/
inductive Msg
  | init (request : ℕ)
  -- `memory_object_data_request` and the others that carry the request port
  | data (request : ℕ)
  | terminate (request : ℕ)
  | noSenders (mscount : ℕ)
  deriving DecidableEq

open Msg

/-- The kernel's side of the port of a memory object. -/
structure Port where
  alive : Bool
  -- `ip_mscount`
  mscount : ℕ
  -- the user references of the server for its send right
  urefs : ℕ
  -- send rights of other tasks, and in other messages
  copies : ℕ
  -- the mappings that the kernel has not terminated, each with a send right, and how many it made
  mapped : List ℕ
  made : ℕ
  queue : List Msg
  -- `ip_nsrequest`
  registered : Bool
  -- a notification that is to be sent
  notice : Option ℕ
  -- the references of the server for the request ports
  held : ℕ → ℕ
  -- how often the port was destroyed
  destroyed : ℕ

open Port

/-- Whether a message is of a mapping: then it holds a send right. -/
def Msg.mapping : Msg → Bool
  | .noSenders _ => false
  | _ => true

namespace Port
variable (o : Port)

/-- `ip_srights`. -/
def srights : ℕ :=
  (if o.urefs = 0 then 0 else 1) + o.copies + o.mapped.length + o.queue.countP mapping

/-- What follows when a send right is gone. -/
def settle : Port :=
  if o.registered ∧ o.srights = 0 then { o with registered := false, notice := some o.mscount }
  else o

/-- `ipc_port_nsrequest`. -/
def nsrequest (sync : ℕ) : Port :=
  if o.srights = 0 ∧ sync ≤ o.mscount then
    { o with registered := false, notice := some o.mscount }
  else { o with registered := true }

/-- `mach_port_insert_right` with `MACH_MSG_TYPE_MAKE_SEND`. -/
def insertRight : Port := { o with mscount := o.mscount + 1, urefs := o.urefs + 1 }

/-- `mach_port_deallocate` for a send right. -/
def deallocate : Port := if 0 < o.urefs then { o with urefs := o.urefs - 1 }.settle else o

/-- `mach_port_mod_refs` for send rights to a request port. -/
def modRefs (request refs : ℕ) : Port :=
  if refs ≤ o.held request then
    { o with held := update o.held request (o.held request - refs) }
  else o

/-- A message is received, with the send right to the request port that is in it. -/
def receive : Msg → Port
  | .init r | .data r =>
    { o with queue := o.queue.tail, held := update o.held r (o.held r + 1) }.settle
  | .terminate _ | .noSenders _ => { o with queue := o.queue.tail }.settle

/-- The receive right is given up. -/
def destroy : Port := { o with alive := false, queue := [], destroyed := o.destroyed + 1 }

/-- Before it is allocated. -/
def unused : Port := ⟨false, 0, 0, 0, [], 0, [], false, none, fun _ => 0, 0⟩

end Port

/-- `struct inode_pager`. -/
structure Pager (I : Type) where
  clientCount : ℕ
  pager : ℕ
  pagerRequest : Option ℕ
  mscount : ℕ
  urefs : ℕ
  ip : I

/-- What the inode pager thread does for a port. -/
inductive Stage
  -- with a message that it has received
  | handling (m : Msg)
  -- `memory_object_terminate`, after the master lock is released
  | releasing (request urefs : ℕ)
  -- `inode_pager_no_senders`, about to ask for another notification
  | requesting (ourcount : ℕ)
  -- about to remove the entry and destroy the port, once `irele` is done
  | deleting
  | destroying
  deriving DecidableEq

structure System (I : Type) where
  -- `inode_port_hashtable`
  bucket : ℕ → List (Pager I)
  -- `ip->pager`, and the pagers' references to an inode
  pager : I → ℕ
  refs : I → ℕ
  port : ℕ → Port
  fresh : ℕ
  -- the inode pager thread
  thread : Option (ℕ × Stage)
  panicked : Bool

open InodePager.System

/-- What can happen next. -/
inductive Event (I : Type)
  | setup (ip : I)
  | release (pager : ℕ)
  -- a task copies a send right or gives one up
  | copy (pager : ℕ)
  | drop (pager : ℕ)
  -- the kernel makes an object for a mapping, uses it and ends it
  | map (pager : ℕ)
  | request (pager request : ℕ)
  | unmap (pager request : ℕ)
  -- a notification is put on the queue
  | notify (pager : ℕ)
  -- the inode pager thread receives a message; its next step
  | receive (pager : ℕ)
  | turn
  deriving DecidableEq

/-- `inode_port_hash`. -/
def hash (port : ℕ) : ℕ := ((port &&& 0xff) + (port >>> 8)) &&& 255

namespace System
variable {I : Type} (s : System I)

/-- `inode_pager_lookup`. -/
def lookup (port : ℕ) : Option (Pager I) := (s.bucket (hash port)).find? fun e => e.pager = port

/-- `inode_port_hash_insert`. -/
def hashInsert (e : Pager I) : System I :=
  { s with bucket := update s.bucket (hash e.pager) (s.bucket (hash e.pager) ++ [e]) }

/-- `inode_port_hash_delete`. -/
def hashDelete (port : ℕ) : System I :=
  { s with
    bucket := update s.bucket (hash port) ((s.bucket (hash port)).filter fun e => e.pager ≠ port) }

def modify (port : ℕ) (f : Pager I → Pager I) : System I :=
  { s with
    bucket := update s.bucket (hash port)
      (Linked.update Pager.pager port f (s.bucket (hash port))) }

def onPort (port : ℕ) (f : Port → Port) : System I :=
  { s with port := update s.port port (f (s.port port)) }

def go (thread : Option (ℕ × Stage)) : System I := { s with thread }

def panic : System I := { s with panicked := true }

section Setup
variable [DecidableEq I]

/-- `inode_pager_create`, and the port that `inode_pager_setup` allocates for it. -/
def create (ip : I) : System I :=
  let port := s.fresh
  { s.hashInsert ⟨0, port, none, 0, 0, ip⟩ with
    pager := update s.pager ip port
    refs := update s.refs ip (s.refs ip + 1)
    port := update s.port port ({ unused with alive := true }.nsrequest 1)
    fresh := port + 1 }

/-- `inode_pager_setup`, from where it has the pager. -/
def grant (port : ℕ) : System I :=
  match s.lookup port with
  | none => s.panic
  | some _ =>
    if (s.port port).alive then
      (s.onPort port insertRight).modify port fun e => { e with mscount := e.mscount + 1 }
    else s.panic

def setup (ip : I) : System I :=
  if s.pager ip = 0 then (s.create ip).grant s.fresh else s.grant (s.pager ip)

end Setup

/-- `memory_object_init`. -/
def init (port request : ℕ) : System I :=
  match s.lookup port with
  | none => s.panic
  | some e =>
    if e.clientCount > 0 then s.panic
    else if e.pagerRequest ≠ none ∨ e.urefs ≠ 0 then s.panic
    else (s.modify port fun e =>
      { e with clientCount := e.clientCount + 1, pagerRequest := some request, urefs := 1 }).go none

/-- `inode_pager_check_request`. -/
def checkRequest (port request : ℕ) : System I :=
  match s.lookup port with
  | none => s.panic
  | some e =>
    if e.clientCount > 0 ∧ e.pagerRequest = some request ∧ e.urefs > 0 then
      let urefs := e.urefs + 1
      if urefs > maxUrefs then
        ((s.onPort port (·.modRefs request (urefs - 1))).modify port fun e =>
          { e with urefs := 1 }).go none
      else (s.modify port fun e => { e with urefs }).go none
    else s.panic

/-- `memory_object_terminate`. -/
def terminate (port request : ℕ) : System I :=
  match s.lookup port with
  | none => s.panic
  | some e =>
    if e.clientCount = 1 ∧ e.pagerRequest = some request ∧ e.urefs > 0 then
      (s.modify port fun e =>
        { e with clientCount := e.clientCount - 1, pagerRequest := none, urefs := 0 }).go
        (some (port, .releasing request e.urefs))
    else s.panic

/-- `inode_pager_no_senders`. -/
def noSenders [DecidableEq I] (port mscount : ℕ) : System I :=
  match s.lookup port with
  | none => s.panic
  | some e =>
    if e.clientCount ≠ 0 then s.panic
    else if mscount < e.mscount then s.go (some (port, .requesting e.mscount))
    else if mscount > e.mscount then s.panic
    else if e.pagerRequest = none ∧ e.urefs = 0 then
      { s with
        pager := update s.pager e.ip 0
        refs := update s.refs e.ip (s.refs e.ip - 1)
        thread := some (port, .deleting) }
    else s.panic

/-- A step of the inode pager thread. -/
def turn [DecidableEq I] : System I :=
  match s.thread with
  | none => s
  | some (port, stage) => match stage with
    | .handling (.init r) => s.init port r
    | .handling (.data r) => s.checkRequest port r
    | .handling (.terminate r) => s.terminate port r
    | .handling (.noSenders m) => s.noSenders port m
    | .releasing r urefs => (s.onPort port (·.modRefs r urefs)).go none
    | .requesting ourcount =>
      if (s.port port).alive ∧ !(s.port port).registered then
        (s.onPort port (·.nsrequest ourcount)).go none
      else s.panic
    | .deleting => (s.hashDelete port).go (some (port, .destroying))
    | .destroying => (s.onPort port destroy).go none

def event [DecidableEq I] : Event I → System I
  | .setup ip => s.setup ip
  | .release p => s.onPort p deallocate
  | .copy p => if 0 < (s.port p).srights then s.onPort p fun o => { o with copies := o.copies + 1 }
    else s
  | .drop p => if 0 < (s.port p).copies then
      s.onPort p fun o => { o with copies := o.copies - 1 }.settle
    else s
  | .map p => if 0 < (s.port p).srights then
      s.onPort p fun o => { o with
        mapped := o.made :: o.mapped
        made := o.made + 1
        queue := o.queue ++ [.init o.made] }
    else s
  | .request p r => if r ∈ (s.port p).mapped then
      s.onPort p fun o => { o with queue := o.queue ++ [.data r] }
    else s
  | .unmap p r => if r ∈ (s.port p).mapped then
      s.onPort p fun o => { o with mapped := o.mapped.erase r, queue := o.queue ++ [.terminate r] }
    else s
  | .notify p => match (s.port p).notice with
    | none => s
    | some m => s.onPort p fun o => { o with notice := none, queue := o.queue ++ [.noSenders m] }
  | .receive p => match s.thread, (s.port p).queue with
    | none, m :: _ => (s.onPort p (·.receive m)).go (some (p, .handling m))
    | _, _ => s
  | .turn => s.turn

def step [DecidableEq I] (e : Event I) : Option (Unit × System I) := some ((), s.event e)

/-- No inode has a pager. -/
def start : System I := ⟨fun _ => [], fun _ => 0, fun _ => 0, fun _ => .unused, 1, none, false⟩

def run [DecidableEq I] (es : List (Event I)) : System I := es.foldl (fun s e => s.event e) start

/-- What the inode pager thread does for a port. -/
def stage (port : ℕ) : Option Stage :=
  s.thread.bind fun t => if t.1 = port then some t.2 else none

end System

/-! What should hold in every state. -/

/-- The notifications for a port that are on their way, with the one in the hands of the thread. -/
def Stage.inHand : Stage → List Msg
  | .handling m => [m]
  | _ => []

/-- The messages that the thread has still to handle. -/
def Port.ahead (o : Port) (stage : Option Stage) : List Msg :=
  (stage.elim [] Stage.inHand) ++ o.queue

def Msg.notice : Msg → Option ℕ
  | .noSenders m => some m
  | _ => none

/-- The no-senders notifications that are on their way. -/
def Port.notices (o : Port) (stage : Option Stage) : List ℕ :=
  o.notice.toList ++ (o.ahead stage).filterMap Msg.notice

section Spec
variable {I : Type}

structure Safe (s : System I) : Prop where
  calm : s.panicked = false
  mscount : ∀ p e, s.lookup p = some e → e.mscount = (s.port p).mscount
  -- when the thread waits for a message, it has the references that it counts and no others
  urefs : s.thread = none → ∀ p r, (s.port p).held r =
    (s.lookup p).elim 0 fun e => if e.pagerRequest = some r then e.urefs else 0
  -- an inode has a pager, and the pager a reference to it, or neither
  refs : ∀ ip, s.refs ip = if s.pager ip = 0 then 0 else 1
  found : ∀ ip, s.pager ip ≠ 0 → ∃ e, s.lookup (s.pager ip) = some e ∧ e.ip = ip
  back : ∀ p e, s.lookup p = some e → s.stage p ≠ some .deleting → s.pager e.ip = p
  -- the rights that setup handed out are to a port that the inode has
  owned : ∀ p, 0 < (s.port p).urefs → (s.port p).alive = true ∧
    ∃ e, s.lookup p = some e ∧ s.pager e.ip = p
  once : ∀ p, (s.port p).destroyed ≤ 1
  -- a port is destroyed only when nobody has a right to it
  only : ∀ p, s.stage p = some .deleting ∨ s.stage p = some .destroying ∨
    0 < (s.port p).destroyed → (s.port p).srights = 0 ∧ ∀ e ∈ s.lookup p, e.clientCount = 0
  -- and the pager will hear of it when nobody has
  hears : ∀ p e, s.lookup p = some e → (s.port p).srights = 0 →
    (s.port p).notices (s.stage p) ≠ [] ∨ (∃ n, s.stage p = some (.requesting n)) ∨
      s.stage p = some .deleting

/-- Neither a mapping is initialised nor a no-senders notification handled while another mapping is
initialised. -/
def Fits (s : System I) : Event I → Prop
  | .turn => match s.thread with
    | some (p, .handling (.init _)) | some (p, .handling (.noSenders _)) =>
      ∀ e ∈ s.lookup p, e.clientCount = 0
    | _ => True
  | _ => True

instance (s : System I) : DecidablePred (Fits s)
  | .turn => by
    unfold Fits
    dsimp only
    split
    · infer_instance
    · infer_instance
    · infer_instance
  | .setup _ | .release _ | .copy _ | .drop _ | .map _ | .request _ _ | .unmap _ _ | .notify _
  | .receive _ => isTrue trivial

end Spec

/-! The invariant of a port and its pager. -/

def Msg.about (r : ℕ) : Msg → Bool
  | .init q | .data q | .terminate q => q = r
  | .noSenders _ => false

/-- The messages of a mapping after the first. -/
def Tail (live : Bool) (r : ℕ) (l : List Msg) : Prop :=
  ∃ n, l = List.replicate n (.data r) ++ if live then [] else [.terminate r]

/-- The messages of a mapping that are still to be handled. -/
inductive Script (current live : Bool) (r : ℕ) : List Msg → Prop
  | waiting (t : List Msg) (no : current = false) (tail : Tail live r t) :
    Script current live r (.init r :: t)
  | current (l : List Msg) (yes : current = true) (tail : Tail live r l) : Script current live r l
  | done (no : current = false) (ended : live = false) : Script current live r []

/-- The references to a request port that the thread has besides those that are counted. -/
def Stage.extra (r : ℕ) : Stage → ℕ
  | .handling (.init q) | .handling (.data q) => if q = r then 1 else 0
  | .releasing q urefs => if q = r then urefs else 0
  | _ => 0

def Stage.plain : Stage → Bool
  | .handling _ | .releasing _ _ => true
  | _ => false

/-- Where the next no-senders notification is. -/
inductive Noticed (o : Port) (stage : Option Stage) : Prop
  | registered (reg : o.registered = true) (none : o.notices stage = []) (rights : 0 < o.srights)
      (plain : ∀ st ∈ stage, st.plain = true)
  | pending (m : ℕ) (reg : o.registered = false) (one : o.notices stage = [m])
      (le : m ≤ o.mscount) (last : m = o.mscount → o.srights = 0)
      (plain : ∀ st ∈ stage, st.plain = true)
  | requesting (n : ℕ) (reg : o.registered = false) (none : o.notices stage = [])
      (le : n ≤ o.mscount) (requesting : stage = some (.requesting n))
  | deleting (reg : o.registered = false) (none : o.notices stage = []) (rights : o.srights = 0)
      (deleting : stage = some .deleting)

/-- A port that is in use. -/
structure Life {I : Type} (o : Port) (e : Pager I) (stage : Option Stage) : Prop where
  alive : o.alive = true
  destroyed : o.destroyed = 0
  mscount : e.mscount = o.mscount
  client : e.clientCount = if e.pagerRequest = none then 0 else 1
  count : e.urefs = 0 ↔ e.pagerRequest = none
  held : ∀ r, o.held r =
    (if e.pagerRequest = some r then e.urefs else 0) + stage.elim 0 (Stage.extra r)
  nodup : o.mapped.Nodup
  script : ∀ r, Script (e.pagerRequest = some r) (r ∈ o.mapped) r
    ((o.ahead stage).filter (about r))
  made : ∀ r, o.made ≤ r → e.pagerRequest ≠ some r ∧ r ∉ o.mapped ∧
    (o.ahead stage).filter (about r) = []
  noticed : Noticed o stage
  busy : stage ≠ some .destroying

/-- A port that is not in use, or about to be destroyed. -/
structure Gone (o : Port) (stage : Option Stage) : Prop where
  rights : o.srights = 0
  registered : o.registered = false
  queue : o.queue = []
  notice : o.notice = none
  held : ∀ r, o.held r = 0
  alive : if o.alive then stage = some .destroying ∧ o.destroyed = 0 else
    stage = none ∧ o.destroyed ≤ 1

section Local
variable {I : Type} {o o' : Port} {e : Pager I} {stage : Option Stage} {live current : Bool}
  {r : ℕ} {l : List Msg}

theorem Tail.data (h : Tail true r l) : Tail true r (l ++ [.data r]) := by
  obtain ⟨n, rfl⟩ := h
  refine ⟨n + 1, ?_⟩
  simp only [if_true, append_nil]
  exact (replicate_succ' ..).symm

theorem Tail.terminate (h : Tail true r l) : Tail false r (l ++ [.terminate r]) := by
  obtain ⟨n, rfl⟩ := h
  exact ⟨n, by simp⟩

theorem Script.data (h : Script current true r l) : Script current true r (l ++ [.data r]) := by
  cases h with
  | waiting t no tail => exact .waiting _ no tail.data
  | current l yes tail => exact .current _ yes tail.data
  | done no ended => cases ended

theorem Script.terminate (h : Script current true r l) :
    Script current false r (l ++ [.terminate r]) := by
  cases h with
  | waiting t no tail => exact .waiting _ no tail.terminate
  | current l yes tail => exact .current _ yes tail.terminate
  | done no ended => cases ended

theorem Script.of_init (h : Script current live r (.init r :: l)) :
    current = false ∧ Script true live r l := by
  cases h with
  | waiting t no tail => exact ⟨no, .current l rfl tail⟩
  | current l yes tail =>
    obtain ⟨n, heq⟩ := tail
    cases n <;> cases live <;> simp [replicate_succ] at heq

theorem Script.of_data (h : Script current live r (.data r :: l)) :
    current = true ∧ Script true live r l := by
  cases h with
  | current l yes tail =>
    obtain ⟨n, heq⟩ := tail
    refine ⟨yes, .current l rfl ?_⟩
    cases n with
    | zero => cases live <;> simp at heq
    | succ n =>
      rw [replicate_succ, cons_append] at heq
      exact ⟨n, (List.cons.inj heq).2⟩

theorem Script.of_terminate (h : Script current live r (.terminate r :: l)) :
    current = true ∧ Script false live r l := by
  cases h with
  | current l yes tail =>
    obtain ⟨n, heq⟩ := tail
    cases n with
    | zero =>
      cases live with
      | true => simp at heq
      | false =>
        obtain rfl : l = [] := by simpa using heq
        exact ⟨yes, .done rfl rfl⟩
    | succ n =>
      rw [replicate_succ, cons_append] at heq
      cases (List.cons.inj heq).1

theorem Port.settle_fields (o : Port) : o.settle.alive = o.alive ∧ o.settle.mscount = o.mscount ∧
    o.settle.urefs = o.urefs ∧ o.settle.mapped = o.mapped ∧ o.settle.made = o.made ∧
    o.settle.queue = o.queue ∧ o.settle.held = o.held ∧ o.settle.destroyed = o.destroyed := by
  unfold Port.settle
  split <;> exact ⟨rfl, rfl, rfl, rfl, rfl, rfl, rfl, rfl⟩

theorem Port.notices_eq_nil : o.notices stage = [] ↔
    o.notice = none ∧ (o.ahead stage).filterMap Msg.notice = [] := by
  unfold notices
  rw [append_eq_nil_iff, Option.toList_eq_nil_iff]

variable {stage' : Option Stage} {m : Msg} {rest : List Msg}

theorem Noticed.settle (h : Noticed o stage)
    (hstage : stage' = stage ∨ stage = none ∧ ∀ st ∈ stage', st.plain = true)
    (hreg : o'.registered = o.registered) (hnotices : o'.notices stage' = o.notices stage)
    (hmscount : o'.mscount = o.mscount) (hle : o'.srights ≤ o.srights) :
    Noticed o'.settle stage' := by
  have hkeep : o.registered = false → o'.settle = o' := fun hfalse => if_neg fun h => by
    rw [hreg, hfalse] at h
    cases h.1
  have hplain : (∀ st ∈ stage, st.plain = true) → ∀ st ∈ stage', st.plain = true := by
    rcases hstage with rfl | ⟨-, hplain⟩
    · exact id
    · exact fun _ => hplain
  cases h with
  | registered reg none rights plain =>
    by_cases hzero : o'.srights = 0
    · have hsettle : o'.settle = { o' with registered := false, notice := some o'.mscount } :=
        if_pos ⟨hreg.trans reg, hzero⟩
      rw [← hnotices, notices_eq_nil] at none
      rw [hsettle]
      refine .pending o'.mscount rfl ?_ le_rfl (fun _ => hzero) (hplain plain)
      have hahead : (o'.ahead stage').filterMap Msg.notice = [] := none.2
      unfold notices
      exact congrArg (o'.mscount :: ·) hahead
    · have hsettle : o'.settle = o' := if_neg fun h => hzero h.2
      rw [hsettle]
      exact .registered (hreg.trans reg) (hnotices.trans none) (Nat.pos_of_ne_zero hzero)
        (hplain plain)
  | pending m reg one le last plain =>
    rw [hkeep reg]
    exact .pending m (hreg.trans reg) (hnotices.trans one) (hmscount ▸ le)
      (fun heq => Nat.le_zero.1 (last (heq.trans hmscount) ▸ hle)) (hplain plain)
  | requesting n reg none le requesting =>
    rw [hkeep reg]
    exact .requesting n (hreg.trans reg) (hnotices.trans none) (hmscount ▸ le)
      ((hstage.resolve_right fun h => by rw [h.1] at requesting; cases requesting).trans requesting)
  | deleting reg none rights deleting =>
    rw [hkeep reg]
    exact .deleting (hreg.trans reg) (hnotices.trans none) (Nat.le_zero.1 (rights ▸ hle))
      ((hstage.resolve_right fun h => by rw [h.1] at deleting; cases deleting).trans deleting)

theorem Noticed.congr (h : Noticed o stage)
    (hstage : stage' = stage ∨ (∀ st ∈ stage, st.plain = true) ∧ ∀ st ∈ stage', st.plain = true)
    (hreg : o'.registered = o.registered) (hnotices : o'.notices stage' = o.notices stage)
    (hmscount : o'.mscount = o.mscount) (hrights : o'.srights = o.srights) : Noticed o' stage' := by
  have hplain : (∀ st ∈ stage, st.plain = true) → ∀ st ∈ stage', st.plain = true := by
    rcases hstage with rfl | ⟨-, hplain⟩
    · exact id
    · exact fun _ => hplain
  cases h with
  | registered reg none rights plain =>
    exact .registered (hreg.trans reg) (hnotices.trans none) (hrights ▸ rights) (hplain plain)
  | pending m reg one le last plain =>
    exact .pending m (hreg.trans reg) (hnotices.trans one) (hmscount ▸ le)
      (fun heq => hrights.trans (last (heq.trans hmscount))) (hplain plain)
  | requesting n reg none le requesting =>
    exact .requesting n (hreg.trans reg) (hnotices.trans none) (hmscount ▸ le)
      ((hstage.resolve_right fun h => by cases h.1 _ requesting).trans requesting)
  | deleting reg none rights deleting =>
    exact .deleting (hreg.trans reg) (hnotices.trans none) (hrights.trans rights)
      ((hstage.resolve_right fun h => by cases h.1 _ deleting).trans deleting)

theorem Noticed.grow (h : Noticed o stage) (hreg : o'.registered = o.registered)
    (hnotices : o'.notices stage = o.notices stage) (hle : o.mscount ≤ o'.mscount)
    (hmore : 0 < o.srights ∨ o.mscount < o'.mscount ∧ stage ≠ some .deleting)
    (hpos : 0 < o'.srights) : Noticed o' stage := by
  cases h with
  | registered reg none rights plain =>
    exact .registered (hreg.trans reg) (hnotices.trans none) hpos plain
  | pending m reg one le last plain =>
    refine .pending m (hreg.trans reg) (hnotices.trans one) (le.trans hle) (fun heq => ?_) plain
    rcases hmore with hmore | ⟨hlt, -⟩
    · have hm : m = o.mscount := le_antisymm le (heq ▸ hle)
      exact absurd (last hm) hmore.ne'
    · omega
  | requesting n reg none le requesting =>
    exact .requesting n (hreg.trans reg) (hnotices.trans none) (le.trans hle) requesting
  | deleting reg none rights deleting =>
    rcases hmore with hmore | ⟨-, hne⟩
    · exact absurd rights hmore.ne'
    · exact absurd deleting hne

theorem Life.rights (h : Life o e stage) {e' : Pager I}
    (hport : o'.alive = o.alive ∧ o'.destroyed = o.destroyed ∧ o'.held = o.held ∧
      o'.mapped = o.mapped ∧ o'.made = o.made ∧ o'.queue = o.queue)
    (hpager : e'.clientCount = e.clientCount ∧ e'.pagerRequest = e.pagerRequest ∧
      e'.urefs = e.urefs) (hmscount : e'.mscount = o'.mscount) (hnoticed : Noticed o' stage) :
    Life o' e' stage := by
  obtain ⟨halive, hdestroyed, hheld, hmapped, hmade, hqueue⟩ := hport
  obtain ⟨hclient, hrequest, hurefs⟩ := hpager
  have hahead : o'.ahead stage = o.ahead stage := by
    unfold Port.ahead
    rw [hqueue]
  exact
    { alive := halive.trans h.alive
      destroyed := hdestroyed.trans h.destroyed
      mscount := hmscount
      client := by rw [hclient, hrequest, h.client]
      count := by rw [hurefs, hrequest, h.count]
      held := fun r => by rw [hheld, hrequest, hurefs, h.held]
      nodup := hmapped ▸ h.nodup
      script := fun r => by rw [hrequest, hmapped, hahead]; exact h.script r
      made := fun r hr => by rw [hrequest, hmapped, hahead]; exact h.made r (hmade ▸ hr)
      noticed := hnoticed
      busy := h.busy }

theorem Life.insertRight (h : Life o e stage) (hstage : stage ≠ some .deleting) :
    Life o.insertRight { e with mscount := e.mscount + 1 } stage := by
  refine h.rights ⟨rfl, rfl, rfl, rfl, rfl, rfl⟩ ⟨rfl, rfl, rfl⟩ (congrArg (· + 1) h.mscount) ?_
  exact h.noticed.grow rfl rfl (Nat.le_succ _) (.inr ⟨Nat.lt_succ_self _, hstage⟩) (by
    simp only [Port.srights, Port.insertRight, Nat.succ_ne_zero, if_false]
    omega)

theorem Life.settle (h : Life o e stage)
    (hport : o'.alive = o.alive ∧ o'.destroyed = o.destroyed ∧ o'.held = o.held ∧
      o'.mapped = o.mapped ∧ o'.made = o.made ∧ o'.queue = o.queue)
    (hnotice : o'.notice = o.notice ∧ o'.registered = o.registered ∧ o'.mscount = o.mscount)
    (hle : o'.srights ≤ o.srights) : Life o'.settle e stage := by
  obtain ⟨halive, hdestroyed, hheld, hmapped, hmade, hqueue⟩ := hport
  obtain ⟨hnotice, hreg, hmscount⟩ := hnotice
  obtain ⟨salive, smscount, -, smapped, smade, squeue, sheld, sdestroyed⟩ := o'.settle_fields
  have hnotices : o'.notices stage = o.notices stage := by
    unfold notices Port.ahead
    rw [hnotice, hqueue]
  exact h.rights ⟨salive.trans halive, sdestroyed.trans hdestroyed, sheld.trans hheld,
    smapped.trans hmapped, smade.trans hmade, squeue.trans hqueue⟩ ⟨rfl, rfl, rfl⟩
    (h.mscount.trans (smscount.trans hmscount).symm)
    (h.noticed.settle (.inl rfl) hreg hnotices hmscount hle)

theorem Life.deallocate (h : Life o e stage) : Life o.deallocate e stage := by
  unfold Port.deallocate
  split
  · refine h.settle ⟨rfl, rfl, rfl, rfl, rfl, rfl⟩ ⟨rfl, rfl, rfl⟩ ?_
    unfold Port.srights
    dsimp only
    split <;> split <;> omega
  · exact h

theorem Life.copy (h : Life o e stage) (hpos : 0 < o.srights) :
    Life { o with copies := o.copies + 1 } e stage :=
  h.rights ⟨rfl, rfl, rfl, rfl, rfl, rfl⟩ ⟨rfl, rfl, rfl⟩ h.mscount
    (h.noticed.grow rfl rfl le_rfl (.inl hpos) (by unfold srights; dsimp only; omega))

theorem Life.drop (h : Life o e stage) : Life { o with copies := o.copies - 1 }.settle e stage :=
  h.settle ⟨rfl, rfl, rfl, rfl, rfl, rfl⟩ ⟨rfl, rfl, rfl⟩
    (by unfold srights; dsimp only; omega)

theorem Port.ahead_append (hqueue : o'.queue = o.queue ++ [m]) :
    o'.ahead stage = o.ahead stage ++ [m] := by
  unfold Port.ahead
  rw [hqueue, append_assoc]

theorem Port.filter_append (hqueue : o'.queue = o.queue ++ [m]) :
    (o'.ahead stage).filter (about r) =
      (o.ahead stage).filter (about r) ++ if m.about r then [m] else [] := by
  rw [ahead_append hqueue, List.filter_append, List.filter_singleton, Bool.cond_eq_ite]

theorem Port.notices_append (hqueue : o'.queue = o.queue ++ [m])
    (hnotice : o'.notice = o.notice) (hm : m.notice = none) :
    o'.notices stage = o.notices stage := by
  unfold notices
  rw [ahead_append hqueue, hnotice, filterMap_append, filterMap_cons_none hm,
    filterMap_nil, append_nil]

theorem Life.map (h : Life o e stage) (hpos : 0 < o.srights) :
    Life { o with
      mapped := o.made :: o.mapped
      made := o.made + 1
      queue := o.queue ++ [.init o.made] } e stage := by
  generalize ho' : { o with
    mapped := o.made :: o.mapped
    made := o.made + 1
    queue := o.queue ++ [Msg.init o.made] } = o'
  have hqueue : o'.queue = o.queue ++ [Msg.init o.made] := by rw [← ho']
  have hmapped : o'.mapped = o.made :: o.mapped := by rw [← ho']
  have hmade : o'.made = o.made + 1 := by rw [← ho']
  obtain ⟨hcurrent, hnew, hempty⟩ := h.made o.made le_rfl
  have hother : ∀ q, q ≠ o.made → (o'.ahead stage).filter (about q) =
      (o.ahead stage).filter (about q) ∧ (q ∈ o'.mapped ↔ q ∈ o.mapped) := by
    intro q hq
    rw [filter_append hqueue, hmapped, mem_cons, or_iff_right hq]
    simp [about, Ne.symm hq]
  have hnoticed : Noticed o' stage := by
    refine h.noticed.grow (by rw [← ho']) (notices_append hqueue (by rw [← ho']) rfl)
      (by rw [← ho']) (.inl hpos) ?_
    unfold srights
    rw [hmapped, length_cons]
    omega
  refine ⟨by rw [← ho']; exact h.alive, by rw [← ho']; exact h.destroyed,
    by rw [← ho']; exact h.mscount, h.client, h.count, by rw [← ho']; exact h.held,
    by rw [hmapped]; exact nodup_cons.2 ⟨hnew, h.nodup⟩, fun q => ?script, fun q hq => ?made,
    hnoticed, h.busy⟩
  case script =>
    by_cases hq : q = o.made
    · subst hq
      have hlist : (o'.ahead stage).filter (about o.made) = [.init o.made] := by
        rw [filter_append hqueue, hempty]
        simp [about]
      rw [hlist]
      exact .waiting [] (decide_eq_false hcurrent) ⟨0, by simp [hmapped]⟩
    · obtain ⟨hfilter, hmem⟩ := hother q hq
      rw [hfilter, decide_eq_decide.2 hmem]
      exact h.script q
  case made =>
    have hne : q ≠ o.made := by omega
    obtain ⟨hfilter, hmem⟩ := hother q hne
    rw [hfilter, hmem]
    exact h.made q (by omega)

theorem Life.send (h : Life o e stage) {mapped : List ℕ} (hr : r ∈ o.mapped)
    (habout : ∀ q, m.about q = (decide (r = q))) (hm : m.notice = none)
    (hmapping : m.mapping = true)
    (hnodup : mapped.Nodup) (hmapped : ∀ q, q ≠ r → (q ∈ mapped ↔ q ∈ o.mapped))
    (hscript : ∀ current l, Script current true r l → Script current (r ∈ mapped) r (l ++ [m])) :
    Life { o with mapped, queue := o.queue ++ [m] } e stage := by
  generalize ho' : { o with mapped, queue := o.queue ++ [m] } = o'
  have hqueue : o'.queue = o.queue ++ [m] := by rw [← ho']
  have hmapped' : o'.mapped = mapped := by rw [← ho']
  have hpos : 0 < o.srights := by
    have := length_pos_of_mem hr
    unfold srights
    omega
  have hother : ∀ q, q ≠ r → (o'.ahead stage).filter (about q) =
      (o.ahead stage).filter (about q) ∧ (q ∈ o'.mapped ↔ q ∈ o.mapped) := by
    intro q hq
    rw [filter_append hqueue, habout, hmapped']
    simp [hmapped q hq, Ne.symm hq]
  have hnoticed : Noticed o' stage := by
    refine h.noticed.grow (by rw [← ho']) (notices_append hqueue (by rw [← ho']) hm)
      (by rw [← ho']) (.inl hpos) ?_
    unfold srights
    rw [hqueue, countP_append, countP_singleton, if_pos hmapping]
    omega
  have hlow : r < o.made := by
    by_contra hge
    exact (h.made r (not_lt.1 hge)).2.1 hr
  refine ⟨by rw [← ho']; exact h.alive, by rw [← ho']; exact h.destroyed,
    by rw [← ho']; exact h.mscount, h.client, h.count, by rw [← ho']; exact h.held,
    by rw [hmapped']; exact hnodup, fun q => ?script, fun q hq => ?made, hnoticed, h.busy⟩
  case script =>
    by_cases hq : q = r
    · subst hq
      rw [filter_append hqueue, habout, hmapped']
      have hold := h.script q
      rw [decide_eq_true hr] at hold
      simpa using hscript _ _ hold
    · obtain ⟨hfilter, hmem⟩ := hother q hq
      rw [hfilter, decide_eq_decide.2 hmem]
      exact h.script q
  case made =>
    have hmade : o'.made = o.made := by rw [← ho']
    have hne : q ≠ r := by omega
    obtain ⟨hfilter, hmem⟩ := hother q hne
    rw [hfilter, hmem]
    exact h.made q (hmade ▸ hq)

theorem Life.request (h : Life o e stage) (hr : r ∈ o.mapped) :
    Life { o with queue := o.queue ++ [.data r] } e stage :=
  h.send hr (fun _ => rfl) rfl rfl h.nodup (fun _ _ => .rfl) fun _ _ hs => by
    rw [decide_eq_true hr]
    exact hs.data

theorem Life.unmap (h : Life o e stage) (hr : r ∈ o.mapped) :
    Life { o with mapped := o.mapped.erase r, queue := o.queue ++ [.terminate r] } e stage :=
  h.send hr (fun _ => rfl) rfl rfl (h.nodup.erase r)
    (fun _ hq => mem_erase_of_ne hq) fun _ _ hs => by
      rw [decide_eq_false h.nodup.not_mem_erase]
      exact hs.terminate

theorem Life.notify (h : Life o e stage) {m : ℕ} (hm : o.notice = some m) :
    Life { o with notice := none, queue := o.queue ++ [.noSenders m] } e stage := by
  generalize ho' : { o with notice := none, queue := o.queue ++ [Msg.noSenders m] } = o'
  have hqueue : o'.queue = o.queue ++ [Msg.noSenders m] := by rw [← ho']
  have hfilter : ∀ q, (o'.ahead stage).filter (Msg.about q) =
      (o.ahead stage).filter (Msg.about q) := fun q => by
    rw [filter_append hqueue]
    exact append_nil _
  have hrights : o'.srights = o.srights := by
    unfold srights
    rw [hqueue, countP_append, ← ho']
    rfl
  have hnotices : o'.notices stage = o.notices stage := by
    have hempty : (o.ahead stage).filterMap Msg.notice = [] := by
      have hcase := h.noticed
      cases hcase with
      | registered reg none => exact (notices_eq_nil.1 none).2
      | pending m' reg one =>
        unfold notices at one
        rw [hm] at one
        exact (List.cons.inj one).2
      | requesting n reg none => exact (notices_eq_nil.1 none).2
      | deleting reg none => exact (notices_eq_nil.1 none).2
    unfold notices
    rw [ahead_append hqueue, filterMap_append, hempty, hm, ← ho']
    rfl
  refine ⟨by rw [← ho']; exact h.alive, by rw [← ho']; exact h.destroyed,
    by rw [← ho']; exact h.mscount, h.client, h.count, by rw [← ho']; exact h.held,
    by rw [← ho']; exact h.nodup, fun q => ?script, fun q hq => ?made,
    h.noticed.congr (.inl rfl) (by rw [← ho']) hnotices (by rw [← ho']) hrights, h.busy⟩
  case script =>
    rw [hfilter, ← ho']
    exact h.script q
  case made =>
    rw [hfilter, ← ho']
    exact h.made q (by rw [← ho'] at hq; exact hq)

theorem Life.take (h : Life o e none) {held : ℕ → ℕ}
    (hqueue : o.queue = m :: rest)
    (hheld : ∀ q, held q = o.held q + (Stage.handling m).extra q) :
    Life { o with queue := o.queue.tail, held }.settle e (some (.handling m)) := by
  generalize ho' : { o with queue := o.queue.tail, held } = o'
  obtain ⟨salive, smscount, -, smapped, smade, squeue, sheld, sdestroyed⟩ := o'.settle_fields
  have hahead : o'.ahead (some (.handling m)) = o.ahead none := by
    rw [← ho']
    unfold Port.ahead
    rw [hqueue]
    rfl
  have hahead' : o'.settle.ahead (some (.handling m)) = o.ahead none := by
    rw [← hahead]
    unfold Port.ahead
    rw [squeue]
  have hnoticed : Noticed o'.settle (some (.handling m)) := by
    refine h.noticed.settle (.inr ⟨rfl, ?_⟩) (by rw [← ho']) ?_ (by rw [← ho']) ?_
    · rintro st hst
      cases hst
      rfl
    · unfold notices
      rw [hahead, ← ho']
    · rw [← ho']
      unfold srights
      dsimp only
      rw [hqueue, tail_cons, countP_cons]
      omega
  refine ⟨by rw [salive, ← ho']; exact h.alive, by rw [sdestroyed, ← ho']; exact h.destroyed,
    by rw [smscount, ← ho']; exact h.mscount, h.client, h.count, fun q => ?held,
    by rw [smapped, ← ho']; exact h.nodup, fun q => ?script, fun q hq => ?made, hnoticed, nofun⟩
  case held =>
    rw [sheld, ← ho']
    exact (hheld q).trans (congrArg (· + _) (h.held q))
  case script =>
    rw [smapped, hahead', ← ho']
    exact h.script q
  case made =>
    rw [smapped, hahead', ← ho']
    exact h.made q (by rw [smade, ← ho'] at hq; exact hq)

theorem Life.receive (h : Life o e none)
    (hqueue : o.queue = m :: rest) : Life (o.receive m) e (some (.handling m)) := by
  have hadd : ∀ q r, update o.held r (o.held r + 1) q =
      o.held q + if r = q then 1 else 0 := fun q r => by
    rw [update_apply]
    split
    · next heq => rw [heq, if_pos rfl]
    · next hne => rw [if_neg (Ne.symm hne), Nat.add_zero]
  cases m with
  | init r => exact h.take hqueue fun q => hadd q r
  | data r => exact h.take hqueue fun q => hadd q r
  | terminate r => exact h.take hqueue fun _ => rfl
  | noSenders m => exact h.take hqueue fun _ => rfl

theorem Noticed.done (h : Noticed o stage) (hstage : stage = some (.handling m))
    (hm : m.notice = none) (hplain : ∀ st ∈ stage', st.plain = true)
    (hhand : stage'.elim [] Stage.inHand = []) : Noticed o stage' := by
  refine h.congr (.inr ⟨?_, hplain⟩) rfl ?_ rfl rfl
  · rintro st hst
    rw [hstage] at hst
    cases hst
    rfl
  · unfold notices Port.ahead
    rw [hstage, hhand]
    exact congrArg (o.notice.toList ++ ·) (filterMap_cons_none hm).symm

theorem Port.ahead_handling : o.ahead (some (.handling m)) = m :: o.ahead none := rfl

theorem Life.init (h : Life o e (some (.handling (.init r)))) (hclient : e.clientCount = 0) :
    e.pagerRequest = none ∧ e.urefs = 0 ∧
      Life o { e with clientCount := e.clientCount + 1, pagerRequest := some r, urefs := 1 }
        none := by
  have hrequest : e.pagerRequest = none := by
    by_contra hne
    rw [h.client, if_neg hne] at hclient
    cases hclient
  have hscript := h.script r
  rw [ahead_handling, filter_cons_of_pos (by simp [about])] at hscript
  have hlow : r < o.made := by
    by_contra hge
    have hempty := (h.made r (not_lt.1 hge)).2.2
    rw [ahead_handling, filter_cons_of_pos (by simp [about])] at hempty
    cases hempty
  have hother : ∀ q, q ≠ r → (o.ahead none).filter (about q) =
      (o.ahead (some (.handling (.init r)))).filter (about q) := fun q hq => by
    rw [ahead_handling, filter_cons_of_neg (by simp [about, Ne.symm hq])]
  refine ⟨hrequest, h.count.2 hrequest, h.alive, h.destroyed, h.mscount, ?client, ?count,
    fun q => ?held, h.nodup, fun q => ?script, fun q hq => ?made,
    h.noticed.done rfl rfl nofun rfl, nofun⟩
  case client => rw [hclient]; rfl
  case count => simp
  case held =>
    rw [h.held, hrequest]
    by_cases hq : r = q <;> simp [Stage.extra, hq]
  case script =>
    by_cases hq : q = r
    · subst hq
      simpa using hscript.of_init.2
    · rw [hother q hq]
      have hold := h.script q
      rw [hrequest] at hold
      simpa [Ne.symm hq] using hold
  case made =>
    have hne : q ≠ r := by omega
    obtain ⟨-, hmapped, hempty⟩ := h.made q hq
    exact ⟨by simpa using Ne.symm hne, hmapped, (hother q hne).trans hempty⟩

theorem Life.data (h : Life o e (some (.handling (.data r)))) :
    e.clientCount > 0 ∧ e.pagerRequest = some r ∧ e.urefs > 0 ∧
      Life o { e with urefs := e.urefs + 1 } none ∧
      Life (o.modRefs r e.urefs) { e with urefs := 1 } none := by
  have hscript := h.script r
  rw [ahead_handling, filter_cons_of_pos (by simp [about])] at hscript
  obtain ⟨hcurrent, hrest⟩ := hscript.of_data
  have hrequest : e.pagerRequest = some r := of_decide_eq_true hcurrent
  have hurefs : e.urefs ≠ 0 := fun hzero => by
    rw [h.count.1 hzero] at hrequest
    cases hrequest
  have hclient : e.clientCount > 0 := by rw [h.client, hrequest]; exact Nat.one_pos
  have hother : ∀ q, q ≠ r → (o.ahead none).filter (about q) =
      (o.ahead (some (.handling (.data r)))).filter (about q) := fun q hq => by
    rw [ahead_handling, filter_cons_of_neg (by simp [about, Ne.symm hq])]
  have hscript' : ∀ q, Script (e.pagerRequest = some q) (q ∈ o.mapped) q
      ((o.ahead none).filter (about q)) := by
    intro q
    by_cases hq : q = r
    · subst hq
      rw [decide_eq_true hrequest]
      exact hrest
    · rw [hother q hq]
      exact h.script q
  have hmade : ∀ q, o.made ≤ q → e.pagerRequest ≠ some q ∧ q ∉ o.mapped ∧
      (o.ahead none).filter (about q) = [] := by
    intro q hq
    obtain ⟨hne, hmapped, hempty⟩ := h.made q hq
    have hqr : q ≠ r := by
      rintro rfl
      exact hne hrequest
    exact ⟨hne, hmapped, (hother q hqr).trans hempty⟩
  have hnoticed : Noticed o none := h.noticed.done rfl rfl nofun rfl
  have hheld : ∀ q, o.held q = if r = q then e.urefs + 1 else 0 := fun q => by
    rw [h.held, hrequest]
    by_cases hq : r = q <;> simp [Stage.extra, hq]
  refine ⟨hclient, hrequest, Nat.pos_of_ne_zero hurefs, ?more, ?excess⟩
  case more =>
    refine ⟨h.alive, h.destroyed, h.mscount, h.client, ?_, fun q => ?_, h.nodup, hscript', hmade,
      hnoticed, nofun⟩
    · simp [hrequest]
    · rw [hheld, hrequest]
      by_cases hq : r = q <;> simp [hq]
  case excess =>
    have hmod : o.modRefs r e.urefs = { o with
        held := update o.held r (o.held r - e.urefs) } :=
      if_pos (by rw [hheld, if_pos rfl]; exact Nat.le_succ _)
    rw [hmod]
    refine ⟨h.alive, h.destroyed, h.mscount, h.client, ?_, fun q => ?_, h.nodup, hscript', hmade,
      hnoticed.congr (.inl rfl) rfl rfl rfl rfl, nofun⟩
    · simp [hrequest]
    · dsimp only
      rw [update_apply, hheld, hheld, if_pos rfl, hrequest]
      by_cases hq : q = r
      · simp [hq]
      · simp [hq, Ne.symm hq]

theorem Life.terminate (h : Life o e (some (.handling (.terminate r)))) :
    e.clientCount = 1 ∧ e.pagerRequest = some r ∧ e.urefs > 0 ∧
      Life o { e with clientCount := e.clientCount - 1, pagerRequest := none, urefs := 0 }
        (some (.releasing r e.urefs)) := by
  have hscript := h.script r
  rw [ahead_handling, filter_cons_of_pos (by simp [about])] at hscript
  obtain ⟨hcurrent, hrest⟩ := hscript.of_terminate
  have hrequest : e.pagerRequest = some r := of_decide_eq_true hcurrent
  have hurefs : e.urefs ≠ 0 := fun hzero => by
    rw [h.count.1 hzero] at hrequest
    cases hrequest
  have hclient : e.clientCount = 1 := by rw [h.client, hrequest]; rfl
  have hahead : o.ahead (some (.releasing r e.urefs)) = o.ahead none := rfl
  have hother : ∀ q, q ≠ r → (o.ahead none).filter (about q) =
      (o.ahead (some (.handling (.terminate r)))).filter (about q) := fun q hq => by
    rw [ahead_handling, filter_cons_of_neg (by simp [about, Ne.symm hq])]
  refine ⟨hclient, hrequest, Nat.pos_of_ne_zero hurefs, h.alive, h.destroyed, h.mscount, ?client,
    by simp, fun q => ?held, h.nodup, fun q => ?script, fun q hq => ?made, ?noticed, nofun⟩
  case client => rw [hclient]; rfl
  case held =>
    rw [h.held, hrequest]
    by_cases hq : r = q <;> simp [Stage.extra, hq]
  case script =>
    rw [hahead]
    by_cases hq : q = r
    · subst hq
      simpa using hrest
    · rw [hother q hq]
      have hold := h.script q
      rw [hrequest] at hold
      simpa [Ne.symm hq] using hold
  case made =>
    obtain ⟨hne, hmapped, hempty⟩ := h.made q hq
    have hqr : q ≠ r := by
      rintro rfl
      exact hne hrequest
    exact ⟨nofun, hmapped, (hother q hqr).trans hempty⟩
  case noticed =>
    refine h.noticed.done rfl rfl ?_ rfl
    rintro st hst
    cases hst
    rfl

theorem Life.released {n : ℕ} (h : Life o e (some (.releasing r n))) :
    Life (o.modRefs r n) e none := by
  have hheld : ∀ q, o.held q =
      (if e.pagerRequest = some q then e.urefs else 0) + if r = q then n else 0 := h.held
  have hmod : o.modRefs r n = { o with held := update o.held r (o.held r - n) } :=
    if_pos (by rw [hheld, if_pos (rfl : r = r)]; exact Nat.le_add_left _ _)
  rw [hmod]
  refine ⟨h.alive, h.destroyed, h.mscount, h.client, h.count, fun q => ?held, h.nodup, h.script,
    h.made, h.noticed.congr (.inr ⟨?plain, nofun⟩) rfl rfl rfl rfl, nofun⟩
  case held =>
    dsimp only
    rw [update_apply]
    split
    · next heq => rw [heq, hheld, if_pos (rfl : r = r)]; exact Nat.add_sub_cancel _ _
    · next hne => rw [hheld, if_neg (Ne.symm hne)]; rfl
  case plain =>
    rintro st hst
    cases hst
    rfl

theorem Msg.mapping_of_about (h : m.about r = true) : m.mapping = true := by
  cases m with
  | noSenders m => cases h
  | _ => rfl

theorem Port.queue_of_rights (hrights : o.srights = 0) :
    o.mapped = [] ∧ ∀ m ∈ o.queue, m.mapping = false := by
  unfold srights at hrights
  have hmapped : o.mapped.length = 0 := by omega
  have hqueue : o.queue.countP mapping = 0 := by omega
  exact ⟨length_eq_zero_iff.1 hmapped, fun m hm =>
    Bool.eq_false_iff.2 (countP_eq_zero.1 hqueue m hm)⟩

theorem Life.quiet (h : Life o e stage) (hrights : o.srights = 0)
    (hhand : ∀ m ∈ stage.elim [] Stage.inHand, m.mapping = false) : e.pagerRequest = none := by
  by_contra hne
  obtain ⟨r, hr⟩ := ne_none_iff_exists'.1 hne
  obtain ⟨hmapped, hqueue⟩ := queue_of_rights hrights
  have hempty : (o.ahead stage).filter (about r) = [] := by
    rw [filter_eq_nil_iff]
    intro m hm habout
    have hmapping := mapping_of_about habout
    rcases mem_append.1 hm with hm | hm
    · rw [hhand m hm] at hmapping
      cases hmapping
    · rw [hqueue m hm] at hmapping
      cases hmapping
  have hscript := h.script r
  rw [hempty, hmapped, decide_eq_true hr] at hscript
  cases hscript with
  | current l yes tail =>
    obtain ⟨n, heq⟩ := tail
    simp at heq
  | done no => cases no

theorem Life.notified (h : Life o e (some (.handling (.noSenders r)))) :
    o.registered = false ∧ r ≤ o.mscount ∧ (r = o.mscount → o.srights = 0) ∧
      o.notices none = [] := by
  have hnotices : o.notices (some (.handling (.noSenders r))) =
      o.notice.toList ++ r :: (o.ahead none).filterMap Msg.notice := rfl
  have hcase := h.noticed
  cases hcase with
  | registered reg none =>
    rw [hnotices] at none
    simp at none
  | pending m reg one le last plain =>
    rw [hnotices] at one
    cases hnotice : o.notice with
    | none =>
      rw [hnotice] at one
      obtain ⟨rfl, hrest⟩ := List.cons.inj one
      exact ⟨reg, le, last, notices_eq_nil.2 ⟨hnotice, hrest⟩⟩
    | some m' =>
      rw [hnotice] at one
      simp at one
  | requesting n reg none le requesting => cases requesting
  | deleting reg none rights deleting => cases deleting

theorem Life.rehear (h : Life o e (some (.handling (.noSenders r)))) :
    Life o e (some (.requesting e.mscount)) := by
  obtain ⟨hreg, -, -, hnotices⟩ := h.notified
  exact ⟨h.alive, h.destroyed, h.mscount, h.client, h.count, h.held, h.nodup, h.script, h.made,
    .requesting e.mscount hreg hnotices h.mscount.le rfl, nofun⟩

theorem Life.deleting (h : Life o e (some (.handling (.noSenders r)))) (hr : r = o.mscount) :
    e.pagerRequest = none ∧ e.urefs = 0 ∧ Life o e (some .deleting) := by
  obtain ⟨hreg, -, hlast, hnotices⟩ := h.notified
  have hrequest := h.quiet (hlast hr) fun m hm => by
    rw [mem_singleton.1 hm]
    rfl
  exact ⟨hrequest, h.count.2 hrequest, h.alive, h.destroyed, h.mscount, h.client, h.count, h.held,
    h.nodup, h.script, h.made, .deleting hreg hnotices (hlast hr) rfl, nofun⟩

theorem Life.nsrequest {n : ℕ} (h : Life o e (some (.requesting n))) :
    o.registered = false ∧ Life (o.nsrequest n) e none := by
  have hcase := h.noticed
  cases hcase with
  | registered _ _ _ plain => cases plain _ rfl
  | pending _ _ _ _ _ plain => cases plain _ rfl
  | deleting _ _ _ deleting => cases deleting
  | requesting n' reg none le requesting =>
    cases requesting
    refine ⟨reg, ?_⟩
    obtain ⟨hnotice, hahead⟩ := Port.notices_eq_nil.1 none
    unfold Port.nsrequest
    split
    · next hzero =>
      refine ⟨h.alive, h.destroyed, h.mscount, h.client, h.count, h.held, h.nodup, h.script, h.made,
        .pending o.mscount rfl ?_ le_rfl (fun _ => hzero.1) nofun, nofun⟩
      unfold Port.notices
      exact congrArg (o.mscount :: ·) hahead
    · next hrights =>
      refine ⟨h.alive, h.destroyed, h.mscount, h.client, h.count, h.held, h.nodup, h.script, h.made,
        .registered rfl (Port.notices_eq_nil.2 ⟨hnotice, hahead⟩) ?_ nofun, nofun⟩
      exact Nat.pos_of_ne_zero fun hzero => hrights ⟨hzero, le⟩

theorem Life.gone (h : Life o e (some .deleting)) : Gone o (some .destroying) := by
  have hcase := h.noticed
  cases hcase with
  | registered _ _ _ plain => cases plain _ rfl
  | pending _ _ _ _ _ plain => cases plain _ rfl
  | requesting _ _ _ _ requesting => cases requesting
  | deleting reg none rights deleting =>
    obtain ⟨hnotice, hahead⟩ := notices_eq_nil.1 none
    have hrequest := h.quiet rights nofun
    obtain ⟨-, hqueue⟩ := queue_of_rights rights
    refine ⟨rights, reg, ?queue, hnotice, fun r => ?held, ?alive⟩
    case queue =>
      refine eq_nil_iff_forall_not_mem.2 fun m hm => ?_
      cases m with
      | noSenders n =>
        have hmem : n ∈ (o.ahead (some .deleting)).filterMap Msg.notice :=
          mem_filterMap.2 ⟨_, hm, rfl⟩
        rw [hahead] at hmem
        cases hmem
      | init r | data r | terminate r => cases hqueue _ hm
    case held =>
      rw [h.held, hrequest]
      rfl
    case alive =>
      rw [if_pos h.alive]
      exact ⟨rfl, h.destroyed⟩

theorem Gone.destroy (h : Gone o (some .destroying)) : Gone o.destroy none := by
  have halive := h.alive
  split at halive
  · have hqueue : o.destroy.queue = o.queue := h.queue.symm
    refine ⟨?_, h.registered, rfl, h.notice, h.held, ?_⟩
    · have hrights := h.rights
      unfold srights at hrights ⊢
      rw [hqueue]
      exact hrights
    · exact ⟨rfl, (congrArg (· + 1) halive.2).le⟩
  · cases halive.1

end Local

/-! The hash table. -/

section Table
variable {I : Type} {s : System I} {p q : ℕ}

theorem System.lookup_hashInsert {e : Pager I} (hnone : s.lookup e.pager = none) :
    (s.hashInsert e).lookup q = if q = e.pager then some e else s.lookup q := by
  unfold System.lookup hashInsert at *
  dsimp only
  rw [update_apply]
  by_cases hq : q = e.pager
  · rw [hq, if_pos rfl, if_pos rfl, find?_append, hnone]
    simp
  · rw [if_neg hq]
    split
    · next hhash => rw [find?_append, ← hhash]; simp [Ne.symm hq]
    · rfl

theorem System.lookup_modify {f : Pager I → Pager I} (hf : ∀ e, (f e).pager = e.pager) :
    (s.modify p f).lookup q = if q = p then (s.lookup p).map f else s.lookup q := by
  unfold System.lookup modify
  dsimp only
  rw [update_apply]
  split
  · next hhash =>
    rw [Linked.find_update hf, hhash]
    by_cases hq : q = p
    · simp [hq]
    · simp [hq]
  · next hhash =>
    rw [if_neg fun hq => hhash (congrArg hash hq)]

theorem System.lookup_hashDelete :
    (s.hashDelete p).lookup q = if q = p then none else s.lookup q := by
  unfold System.lookup hashDelete
  dsimp only
  rw [update_apply]
  by_cases hq : q = p
  · rw [if_pos (congrArg hash hq), if_pos hq, find?_eq_none]
    intro e he
    have hne := (mem_filter.1 he).2
    simpa [hq] using hne
  · rw [if_neg hq]
    split
    · next hhash =>
      rw [← hhash, find?_filter]
      congr 1
      funext e
      by_cases he : e.pager = q
      · simp [he, hq]
      · simp [he]
    · rfl

end Table

/-! The invariant of the system. -/

structure Inv {I : Type} (s : System I) : Prop where
  calm : s.panicked = false
  life : ∀ p e, s.lookup p = some e → Life (s.port p) e (s.stage p)
  gone : ∀ p, s.lookup p = none → Gone (s.port p) (s.stage p)
  low : ∀ p e, s.lookup p = some e → p ≠ 0 ∧ p < s.fresh
  unused : ∀ p, s.fresh ≤ p → s.port p = .unused
  fresh : s.fresh ≠ 0
  refs : ∀ ip, s.refs ip = if s.pager ip = 0 then 0 else 1
  found : ∀ ip, s.pager ip ≠ 0 → ∃ e, s.lookup (s.pager ip) = some e ∧ e.ip = ip ∧
    s.stage (s.pager ip) ≠ some .deleting
  back : ∀ p e, s.lookup p = some e → s.stage p ≠ some .deleting → s.pager e.ip = p

section Inv
variable {I : Type} {s : System I} {p : ℕ} {e : Pager I} {st : Stage}

theorem System.stage_thread (h : s.thread = some (p, st)) (q : ℕ) :
    s.stage q = if q = p then some st else none := by
  unfold stage
  rw [h, bind_some]
  by_cases hq : q = p
  · rw [if_pos hq, if_pos hq.symm]
  · rw [if_neg hq, if_neg (Ne.symm hq)]

theorem System.stage_none (h : s.thread = none) (q : ℕ) : s.stage q = none := by
  unfold stage
  rw [h, Option.bind_none]

variable {o : Port} {stage : Option Stage} {r : ℕ}

theorem Life.owned (h : Life o e stage) (hpos : 0 < o.urefs) :
    o.alive = true ∧ stage ≠ some .deleting := by
  refine ⟨h.alive, fun hstage => ?_⟩
  have hcase := h.noticed
  cases hcase with
  | registered _ _ _ plain => cases plain _ hstage
  | pending _ _ _ _ _ plain => cases plain _ hstage
  | requesting _ _ _ _ requesting => rw [hstage] at requesting; cases requesting
  | deleting _ _ rights =>
    unfold srights at rights
    rw [if_neg hpos.ne'] at rights
    omega

theorem Gone.urefs (h : Gone o stage) : o.urefs = 0 := by
  by_contra hne
  have hrights := h.rights
  unfold srights at hrights
  rw [if_neg hne] at hrights
  omega

theorem Gone.destroyed (h : Gone o stage) : o.destroyed ≤ 1 := by
  have halive := h.alive
  split at halive
  · exact halive.2 ▸ Nat.zero_le 1
  · exact halive.2

theorem Life.hears (h : Life o e stage) (hrights : o.srights = 0) :
    o.notices stage ≠ [] ∨ (∃ n, stage = some (.requesting n)) ∨ stage = some .deleting := by
  have hcase := h.noticed
  cases hcase with
  | registered _ _ rights => exact absurd hrights rights.ne'
  | pending m _ one => exact .inl (by rw [one]; exact cons_ne_nil _ _)
  | requesting n _ _ _ requesting => exact .inr (.inl ⟨n, requesting⟩)
  | deleting _ _ _ deleting => exact .inr (.inr deleting)

theorem Life.only (h : Life o e (some .deleting)) : o.srights = 0 ∧ e.clientCount = 0 := by
  have hcase := h.noticed
  cases hcase with
  | registered _ _ _ plain => cases plain _ rfl
  | pending _ _ _ _ _ plain => cases plain _ rfl
  | requesting _ _ _ _ requesting => cases requesting
  | deleting _ _ rights =>
    refine ⟨rights, ?_⟩
    rw [h.client, h.quiet rights nofun]
    rfl

theorem Inv.safe (h : Inv s) : Safe s where
  calm := h.calm
  mscount p e he := (h.life p e he).mscount
  urefs hthread p r := by
    cases he : s.lookup p with
    | none => exact (h.gone p he).held r
    | some e =>
      have hheld := (h.life p e he).held r
      rw [stage_none hthread] at hheld
      exact hheld
  refs := h.refs
  found ip hne := by
    obtain ⟨e, he, hip, -⟩ := h.found ip hne
    exact ⟨e, he, hip⟩
  back := h.back
  owned p hpos := by
    cases he : s.lookup p with
    | none => exact absurd (h.gone p he).urefs hpos.ne'
    | some e =>
      obtain ⟨halive, hstage⟩ := (h.life p e he).owned hpos
      exact ⟨halive, e, rfl, h.back p e he hstage⟩
  once p := by
    cases he : s.lookup p with
    | none => exact (h.gone p he).destroyed
    | some e => exact (h.life p e he).destroyed ▸ Nat.zero_le 1
  only p hp := by
    cases he : s.lookup p with
    | none => exact ⟨(h.gone p he).rights, nofun⟩
    | some e =>
      have hlife := h.life p e he
      have hdeleting : s.stage p = some .deleting := by
        rcases hp with hp | hp | hp
        · exact hp
        · exact absurd hp hlife.busy
        · exact absurd hlife.destroyed hp.ne'
      rw [hdeleting] at hlife
      refine ⟨hlife.only.1, ?_⟩
      intro e' he'
      rw [← some.inj he']
      exact hlife.only.2
  hears p e he := (h.life p e he).hears

theorem Inv.change (h : Inv s) {s' : System I} {e' : Pager I} (he : s.lookup p = some e)
    (hlookup : ∀ q, s'.lookup q = if q = p then some e' else s.lookup q)
    (hother : ∀ q, q ≠ p → s'.port q = s.port q ∧ s'.stage q = s.stage q)
    (hsame : s'.pager = s.pager ∧ s'.refs = s.refs ∧ s'.fresh = s.fresh ∧
      s'.panicked = s.panicked) (hip : e'.ip = e.ip)
    (hstage : s'.stage p = some .deleting ↔ s.stage p = some .deleting)
    (hlife : Life (s'.port p) e' (s'.stage p)) : Inv s' := by
  obtain ⟨hpager, hrefs, hfresh, hcalm⟩ := hsame
  have hself : s'.lookup p = some e' := by rw [hlookup, if_pos rfl]
  have hkeep : ∀ q, q ≠ p → s'.lookup q = s.lookup q := fun q hq => by rw [hlookup, if_neg hq]
  have hdel : ∀ q, s'.stage q = some .deleting ↔ s.stage q = some .deleting := by
    intro q
    by_cases hq : q = p
    · exact hq ▸ hstage
    · rw [(hother q hq).2]
  refine ⟨hcalm.trans h.calm, fun q e₀ he₀ => ?life, fun q hq => ?gone, fun q e₀ he₀ => ?low,
    fun q hq => ?unused, hfresh ▸ h.fresh, fun ip => ?refs, fun ip hne => ?found,
    fun q e₀ he₀ hne => ?back⟩
  case life =>
    by_cases hq : q = p
    · subst hq
      obtain rfl : e' = e₀ := some.inj (hself.symm.trans he₀)
      exact hlife
    · rw [(hother q hq).1, (hother q hq).2]
      exact h.life q e₀ (hkeep q hq ▸ he₀)
  case gone =>
    have hqp : q ≠ p := by
      rintro rfl
      rw [hself] at hq
      cases hq
    rw [(hother q hqp).1, (hother q hqp).2]
    exact h.gone q (hkeep q hqp ▸ hq)
  case low =>
    rw [hfresh]
    by_cases hq : q = p
    · exact hq ▸ h.low p e he
    · exact h.low q e₀ (hkeep q hq ▸ he₀)
  case unused =>
    rw [hfresh] at hq
    have hqp : q ≠ p := by
      rintro rfl
      exact absurd (h.low q e he).2 (not_lt.2 hq)
    rw [(hother q hqp).1]
    exact h.unused q hq
  case refs =>
    rw [hrefs, hpager]
    exact h.refs ip
  case found =>
    rw [hpager] at hne ⊢
    obtain ⟨e₀, he₀, hip₀, hdel₀⟩ := h.found ip hne
    by_cases hq : s.pager ip = p
    · obtain rfl : e = e₀ := some.inj (he.symm.trans (hq ▸ he₀))
      exact ⟨e', by rw [hq, hself], hip.trans hip₀, mt (hdel _).1 hdel₀⟩
    · exact ⟨e₀, by rw [hkeep _ hq, he₀], hip₀, mt (hdel _).1 hdel₀⟩
  case back =>
    rw [hpager]
    have hne' : s.stage q ≠ some .deleting := mt (hdel q).2 hne
    by_cases hq : q = p
    · subst hq
      obtain rfl : e' = e₀ := some.inj (hself.symm.trans he₀)
      rw [hip]
      exact h.back q e he hne'
    · exact h.back q e₀ (hkeep q hq ▸ he₀) hne'

theorem Inv.onPort (h : Inv s) {f : Port → Port}
    (hlife : ∀ e : Pager I, Life (s.port p) e (s.stage p) → Life (f (s.port p)) e (s.stage p))
    (hgone : s.lookup p = none → f (s.port p) = s.port p) : Inv (s.onPort p f) := by
  cases he : s.lookup p with
  | none =>
    have hsame : s.onPort p f = s := by
      unfold System.onPort
      rw [hgone he, update_eq_self]
    rw [hsame]
    exact h
  | some e =>
    refine h.change he (fun q => ?_) (fun q hq => ⟨update_of_ne hq .., rfl⟩)
      ⟨rfl, rfl, rfl, rfl⟩ rfl .rfl ?_
    · split
      · next hq => rw [hq]; exact he
      · rfl
    · have hport : (s.onPort p f).port p = f (s.port p) := update_self ..
      rw [hport]
      exact hlife e (h.life p e he)

theorem Inv.handle (h : Inv s) (hthread : s.thread = some (p, st)) (he : s.lookup p = some e)
    (f : Port → Port) (g : Pager I → Pager I) (stage : Option Stage)
    (hname : ∀ e, (g e).pager = e.pager) (hip : (g e).ip = e.ip) (hst : st ≠ .deleting)
    (hstage : stage ≠ some .deleting) (hlife : Life (f (s.port p)) (g e) stage) :
    Inv (((s.onPort p f).modify p g).go (stage.map (p, ·))) := by
  have hnew : ∀ q, (((s.onPort p f).modify p g).go (stage.map (p, ·))).stage q =
      if q = p then stage else none := by
    intro q
    cases stage with
    | none => rw [stage_none rfl]; exact (ite_self _).symm
    | some st' => exact stage_thread rfl q
  refine h.change he (fun q => ?_) (fun q hq => ⟨update_of_ne hq .., ?_⟩)
    ⟨rfl, rfl, rfl, rfl⟩ hip ?_ ?_
  · have hlookup : (s.onPort p f).lookup p = some e := he
    refine (lookup_modify hname).trans ?_
    rw [hlookup]
    rfl
  · rw [hnew, if_neg hq, stage_thread hthread, if_neg hq]
  · rw [hnew, if_pos rfl, stage_thread hthread, if_pos rfl]
    exact iff_of_false hstage fun heq => hst (some.inj heq)
  · rw [hnew, if_pos rfl]
    have hport : (((s.onPort p f).modify p g).go (stage.map (p, ·))).port p = f (s.port p) :=
      update_self ..
    rw [hport]
    exact hlife

theorem System.onPort_id : s.onPort p id = s := by
  unfold onPort
  rw [id, update_eq_self]

theorem System.modify_id : s.modify p id = s := by
  unfold modify Linked.update
  simp

theorem Inv.entry (h : Inv s) {m : Msg} (hthread : s.thread = some (p, .handling m)) :
    ∃ e, s.lookup p = some e ∧ Life (s.port p) e (some (.handling m)) := by
  have hstage : s.stage p = some (.handling m) := by rw [stage_thread hthread, if_pos rfl]
  cases he : s.lookup p with
  | none =>
    have halive := (h.gone p he).alive
    rw [hstage] at halive
    split at halive
    · cases halive.1
    · cases halive.1
  | some e => exact ⟨e, rfl, hstage ▸ h.life p e he⟩

theorem Inv.init (h : Inv s) (hthread : s.thread = some (p, .handling (.init r)))
    (hfits : ∀ e ∈ s.lookup p, e.clientCount = 0) : Inv (s.init p r) := by
  obtain ⟨e, he, hlife⟩ := h.entry hthread
  obtain ⟨hrequest, hurefs, hnew⟩ := hlife.init (hfits e he)
  have hhandle := h.handle hthread he id (fun e =>
    { e with clientCount := e.clientCount + 1, pagerRequest := some r, urefs := 1 }) none
    (fun _ => rfl) rfl nofun nofun hnew
  rw [onPort_id] at hhandle
  unfold System.init
  simp only [he]
  rw [if_neg (by rw [hfits e he]; exact lt_irrefl 0), if_neg (by simp [hrequest, hurefs])]
  exact hhandle

theorem Inv.checkRequest (h : Inv s) (hthread : s.thread = some (p, .handling (.data r))) :
    Inv (s.checkRequest p r) := by
  obtain ⟨e, he, hlife⟩ := h.entry hthread
  obtain ⟨hclient, hrequest, hurefs, hmore, hexcess⟩ := hlife.data
  unfold System.checkRequest
  simp only [he, hclient, hrequest, hurefs, true_and, if_true]
  split
  · exact h.handle hthread he (·.modRefs r (e.urefs + 1 - 1)) (fun e => { e with urefs := 1 }) none
      (fun _ => rfl) rfl nofun nofun hexcess
  · have hhandle := h.handle hthread he id (fun e' => { e' with urefs := e.urefs + 1 }) none
      (fun _ => rfl) rfl nofun nofun hmore
    rwa [System.onPort_id] at hhandle

theorem Inv.terminate (h : Inv s)
    (hthread : s.thread = some (p, .handling (.terminate r))) : Inv (s.terminate p r) := by
  obtain ⟨e, he, hlife⟩ := h.entry hthread
  obtain ⟨hclient, hrequest, hurefs, hnew⟩ := hlife.terminate
  have hhandle := h.handle hthread he id (fun e =>
    { e with clientCount := e.clientCount - 1, pagerRequest := none, urefs := 0 })
    (some (.releasing r e.urefs)) (fun _ => rfl) rfl nofun nofun hnew
  rw [System.onPort_id] at hhandle
  unfold System.terminate
  simp only [he]
  rw [if_pos ⟨hclient, hrequest, hurefs⟩]
  exact hhandle

theorem Inv.forget [DecidableEq I] {m : ℕ} (h : Inv s)
    (hthread : s.thread = some (p, .handling (.noSenders m))) (he : s.lookup p = some e)
    (hnew : Life (s.port p) e (some .deleting)) :
    Inv { s with
      pager := update s.pager e.ip 0
      refs := update s.refs e.ip (s.refs e.ip - 1)
      thread := some (p, .deleting) } := by
  have hstage := stage_thread hthread
  generalize hs' : ({ s with
    pager := update s.pager e.ip 0
    refs := update s.refs e.ip (s.refs e.ip - 1)
    thread := some (p, .deleting) } : System I) = s'
  have hstage' : ∀ q, s'.stage q = if q = p then some .deleting else none :=
    stage_thread (by rw [← hs'])
  have hpager' : s'.pager = update s.pager e.ip 0 := by rw [← hs']
  have hpager : s.pager e.ip = p := h.back p e he (by rw [hstage, if_pos rfl]; exact nofun)
  have hsame : s'.lookup = s.lookup ∧ s'.port = s.port ∧ s'.fresh = s.fresh := by
    rw [← hs']
    exact ⟨rfl, rfl, rfl⟩
  obtain ⟨hlookup, hport, hfresh⟩ := hsame
  have hkeep : ∀ q, q ≠ p → s'.stage q = s.stage q := fun q hq => by
    rw [hstage', hstage, if_neg hq, if_neg hq]
  refine ⟨by rw [← hs']; exact h.calm, fun q e₀ he₀ => ?life, fun q hq => ?gone,
    by rw [hlookup, hfresh]; exact h.low, by rw [hport, hfresh]; exact h.unused,
    hfresh ▸ h.fresh, fun ip => ?refs, fun ip hne => ?found, fun q e₀ he₀ hne => ?back⟩
  case life =>
    rw [hport]
    rw [hlookup] at he₀
    by_cases hq : q = p
    · subst hq
      obtain rfl : e = e₀ := some.inj (he.symm.trans he₀)
      rw [hstage', if_pos rfl]
      exact hnew
    · rw [hkeep q hq]
      exact h.life q e₀ he₀
  case gone =>
    rw [hlookup] at hq
    have hqp : q ≠ p := by
      rintro rfl
      rw [he] at hq
      cases hq
    rw [hport, hkeep q hqp]
    exact h.gone q hq
  case refs =>
    have hrefs' : s'.refs = update s.refs e.ip (s.refs e.ip - 1) := by rw [← hs']
    rw [hrefs', hpager']
    by_cases hip : ip = e.ip
    · rw [hip, update_self, update_self, h.refs, hpager, if_neg (h.low p e he).1]
      rfl
    · rw [update_of_ne hip, update_of_ne hip]
      exact h.refs ip
  case found =>
    have hip : ip ≠ e.ip := by
      rintro rfl
      rw [hpager', update_self] at hne
      exact hne rfl
    rw [hpager', update_of_ne hip] at hne ⊢
    obtain ⟨e₀, he₀, hip₀, hdel₀⟩ := h.found ip hne
    have hq : s.pager ip ≠ p := by
      intro heq
      rw [heq, he] at he₀
      exact hip (hip₀.symm.trans (congrArg Pager.ip (some.inj he₀).symm))
    exact ⟨e₀, by rw [hlookup, he₀], hip₀, by rw [hkeep _ hq]; exact hdel₀⟩
  case back =>
    rw [hlookup] at he₀
    have hq : q ≠ p := by
      rintro rfl
      rw [hstage', if_pos rfl] at hne
      exact hne rfl
    rw [hkeep q hq] at hne
    have hback := h.back q e₀ he₀ hne
    have hip : e₀.ip ≠ e.ip := by
      intro heq
      rw [heq, hpager] at hback
      exact hq hback.symm
    rw [hpager', update_of_ne hip]
    exact hback

theorem Inv.noSenders [DecidableEq I] {m : ℕ} (h : Inv s)
    (hthread : s.thread = some (p, .handling (.noSenders m)))
    (hfits : ∀ e ∈ s.lookup p, e.clientCount = 0) : Inv (s.noSenders p m) := by
  obtain ⟨e, he, hlife⟩ := h.entry hthread
  have hle := hlife.notified.2.1
  unfold System.noSenders
  simp only [he]
  rw [if_neg (not_not.2 (hfits e he))]
  split
  · have hhandle := h.handle hthread he id id (some (.requesting e.mscount)) (fun _ => rfl) rfl
      nofun nofun hlife.rehear
    rwa [System.onPort_id, System.modify_id] at hhandle
  · next hge =>
    rw [hlife.mscount] at hge
    have heq : m = (s.port p).mscount := le_antisymm hle (not_lt.1 hge)
    obtain ⟨hrequest, hurefs, hnew⟩ := hlife.deleting heq
    rw [if_neg (by rw [hlife.mscount]; omega), if_pos ⟨hrequest, hurefs⟩]
    exact h.forget hthread he hnew

theorem Inv.delete (h : Inv s) (hthread : s.thread = some (p, .deleting)) :
    Inv ((s.hashDelete p).go (some (p, .destroying))) := by
  have hstage := stage_thread hthread
  generalize hs' : (s.hashDelete p).go (some (p, .destroying)) = s'
  have hstage' : ∀ q, s'.stage q = if q = p then some .destroying else none :=
    stage_thread (by rw [← hs']; rfl)
  have hlookup : ∀ q, s'.lookup q = if q = p then none else s.lookup q := fun q => by
    rw [← hs']
    exact lookup_hashDelete
  have hsame : s'.pager = s.pager ∧ s'.port = s.port ∧ s'.fresh = s.fresh ∧ s'.refs = s.refs := by
    rw [← hs']
    exact ⟨rfl, rfl, rfl, rfl⟩
  obtain ⟨hpager, hport, hfresh, hrefs⟩ := hsame
  have hkeep : ∀ q, q ≠ p → s'.lookup q = s.lookup q ∧ s'.stage q = s.stage q := fun q hq =>
    ⟨by rw [hlookup, if_neg hq], by rw [hstage', hstage, if_neg hq, if_neg hq]⟩
  have hmem : ∀ q e₀, s'.lookup q = some e₀ → q ≠ p := by
    rintro q e₀ he₀ rfl
    rw [hlookup, if_pos rfl] at he₀
    cases he₀
  refine ⟨by rw [← hs']; exact h.calm, fun q e₀ he₀ => ?life, fun q hq => ?gone,
    fun q e₀ he₀ => ?low, by rw [hport, hfresh]; exact h.unused, hfresh ▸ h.fresh,
    by rw [hrefs, hpager]; exact h.refs, fun ip hne => ?found, fun q e₀ he₀ hne => ?back⟩
  case life =>
    obtain ⟨hl, hst⟩ := hkeep q (hmem q e₀ he₀)
    rw [hport, hst]
    exact h.life q e₀ (hl ▸ he₀)
  case gone =>
    by_cases hqp : q = p
    · subst hqp
      rw [hport, hstage', if_pos rfl]
      cases he : s.lookup q with
      | none =>
        have halive := (h.gone q he).alive
        rw [hstage, if_pos rfl] at halive
        split at halive
        · cases halive.1
        · cases halive.1
      | some e =>
        have hlife := h.life q e he
        rw [hstage, if_pos rfl] at hlife
        exact hlife.gone
    · obtain ⟨hl, hst⟩ := hkeep q hqp
      rw [hport, hst]
      exact h.gone q (hl ▸ hq)
  case low =>
    rw [hfresh]
    exact h.low q e₀ ((hkeep q (hmem q e₀ he₀)).1 ▸ he₀)
  case found =>
    rw [hpager] at hne ⊢
    obtain ⟨e₀, he₀, hip₀, hdel₀⟩ := h.found ip hne
    have hq : s.pager ip ≠ p := by
      intro heq
      rw [heq, hstage, if_pos rfl] at hdel₀
      exact hdel₀ rfl
    obtain ⟨hl, hst⟩ := hkeep _ hq
    exact ⟨e₀, by rw [hl, he₀], hip₀, by rw [hst]; exact hdel₀⟩
  case back =>
    obtain ⟨hl, hst⟩ := hkeep q (hmem q e₀ he₀)
    rw [hpager]
    exact h.back q e₀ (hl ▸ he₀) (hst ▸ hne)

theorem Inv.destroy (h : Inv s) (hthread : s.thread = some (p, .destroying)) :
    Inv ((s.onPort p Port.destroy).go none) := by
  have hstage := stage_thread hthread
  have hp : s.stage p = some .destroying := by rw [hstage, if_pos rfl]
  have hnone : s.lookup p = none := by
    cases he : s.lookup p with
    | none => rfl
    | some e => exact absurd hp (h.life p e he).busy
  have hgone := h.gone p hnone
  rw [hp] at hgone
  have hkeep : ∀ q, q ≠ p → ((s.onPort p Port.destroy).go none).port q = s.port q ∧
      s.stage q = none := fun q hq =>
    ⟨update_of_ne hq .., by rw [hstage, if_neg hq]⟩
  have hmem : ∀ q e₀, s.lookup q = some e₀ → q ≠ p := by
    rintro q e₀ he₀ rfl
    rw [hnone] at he₀
    cases he₀
  refine ⟨h.calm, fun q e₀ he₀ => ?life, fun q hq => ?gone, h.low, fun q hq => ?unused, h.fresh,
    h.refs, fun ip hne => ?found, fun q e₀ he₀ _ => ?back⟩
  case life =>
    obtain ⟨hport, hst⟩ := hkeep q (hmem q e₀ he₀)
    rw [hport]
    have hlife := h.life q e₀ he₀
    rwa [hst] at hlife
  case gone =>
    by_cases hqp : q = p
    · subst hqp
      have hport : ((s.onPort q Port.destroy).go none).port q = (s.port q).destroy :=
        update_self ..
      rw [hport]
      exact hgone.destroy
    · obtain ⟨hport, hst⟩ := hkeep q hqp
      rw [hport]
      have hgone' := h.gone q hq
      rwa [hst] at hgone'
  case unused =>
    have hqp : q ≠ p := by
      rintro rfl
      have halive := hgone.alive
      rw [h.unused q hq] at halive
      cases halive.1
    rw [(hkeep q hqp).1]
    exact h.unused q hq
  case found =>
    obtain ⟨e₀, he₀, hip₀, -⟩ := h.found ip hne
    exact ⟨e₀, he₀, hip₀, nofun⟩
  case back =>
    have hst := (hkeep q (hmem q e₀ he₀)).2
    exact h.back q e₀ he₀ (by rw [hst]; exact nofun)

theorem Inv.create [DecidableEq I] (h : Inv s) {ip : I} (hip : s.pager ip = 0) :
    Inv ((s.create ip).grant s.fresh) := by
  have hnone : s.lookup s.fresh = none := by
    cases he : s.lookup s.fresh with
    | none => rfl
    | some e => exact absurd (h.low _ e he).2 (lt_irrefl _)
  have hcreated : ∀ q, (s.create ip).lookup q =
      if q = s.fresh then some ⟨0, s.fresh, none, 0, 0, ip⟩ else s.lookup q := fun q =>
    lookup_hashInsert (e := ⟨0, s.fresh, none, 0, 0, ip⟩) hnone
  have hself : (s.create ip).lookup s.fresh = some ⟨0, s.fresh, none, 0, 0, ip⟩ := by
    rw [hcreated, if_pos rfl]
  have hport : (s.create ip).port s.fresh = { Port.unused with alive := true }.nsrequest 1 :=
    update_self ..
  have hgrant : (s.create ip).grant s.fresh = ((s.create ip).onPort s.fresh
      Port.insertRight).modify s.fresh fun e => { e with mscount := e.mscount + 1 } := by
    unfold grant
    rw [hself]
    exact if_pos (by rw [hport]; rfl)
  rw [hgrant]
  generalize hs' : ((s.create ip).onPort s.fresh Port.insertRight).modify s.fresh
    (fun e => { e with mscount := e.mscount + 1 }) = s'
  have hlookup : ∀ q, s'.lookup q =
      if q = s.fresh then some ⟨0, s.fresh, none, 1, 0, ip⟩ else s.lookup q := fun q => by
    have hl : ∀ q, ((s.create ip).onPort s.fresh Port.insertRight).lookup q =
      (s.create ip).lookup q := fun _ => rfl
    have hmod := lookup_modify (s := (s.create ip).onPort s.fresh Port.insertRight)
      (p := s.fresh) (q := q) (f := fun e => { e with mscount := e.mscount + 1 }) fun _ => rfl
    rw [← hs', hmod, hl, hl, hself, hcreated]
    split <;> rfl
  have hfresh' : s'.port s.fresh =
      ({ Port.unused with alive := true }.nsrequest 1).insertRight := by
    rw [← hs', ← hport]
    exact update_self ..
  have hkeep : ∀ q, q ≠ s.fresh → s'.port q = s.port q := fun q hq => by
    rw [← hs']
    exact (update_of_ne hq ..).trans (update_of_ne hq ..)
  have hstage : s'.stage = s.stage := by rw [← hs']; rfl
  have hpager : s'.pager = update s.pager ip s.fresh := by rw [← hs']; rfl
  have hunused := h.unused s.fresh le_rfl
  have hidle : s.stage s.fresh = none := by
    have halive := (h.gone _ hnone).alive
    rw [hunused] at halive
    exact halive.1
  have hne : ∀ q e, s.lookup q = some e → q ≠ s.fresh := fun q e he => (h.low q e he).2.ne
  refine ⟨by rw [← hs']; exact h.calm, fun q e he => ?life, fun q hq => ?gone,
    fun q e he => ?low, fun q hq => ?unused, by rw [← hs']; exact Nat.succ_ne_zero _,
    fun i => ?refs, fun i hi => ?found, fun q e he hq => ?back⟩
  case life =>
    rw [hlookup] at he
    rw [hstage]
    split at he
    · next hq =>
      cases he
      rw [hq, hfresh', hidle]
      exact
        { alive := rfl, destroyed := rfl, mscount := rfl, client := rfl, count := by simp,
          held := fun _ => rfl, nodup := nodup_nil,
          script := fun _ => .done rfl rfl, made := fun _ _ => ⟨nofun, nofun, rfl⟩,
          noticed := .registered rfl rfl Nat.one_pos nofun, busy := nofun }
    · next hq =>
      rw [hkeep q hq]
      exact h.life q e he
  case gone =>
    rw [hlookup] at hq
    split at hq
    · cases hq
    · next hqf =>
      rw [hkeep q hqf, hstage]
      exact h.gone q hq
  case low =>
    have hf : s'.fresh = s.fresh + 1 := by rw [← hs']; rfl
    rw [hlookup] at he
    rw [hf]
    split at he
    · next hq => rw [hq]; exact ⟨h.fresh, Nat.lt_succ_self _⟩
    · exact ⟨(h.low q e he).1, Nat.lt_succ_of_lt (h.low q e he).2⟩
  case unused =>
    have hf : s'.fresh = s.fresh + 1 := by rw [← hs']; rfl
    rw [hf] at hq
    rw [hkeep q (by omega)]
    exact h.unused q (by omega)
  case refs =>
    have hrefs : s'.refs = update s.refs ip (s.refs ip + 1) := by rw [← hs']; rfl
    rw [hrefs, hpager]
    by_cases heq : i = ip
    · rw [heq, update_self, update_self, h.refs, hip, if_neg h.fresh]
      rfl
    · rw [update_of_ne heq, update_of_ne heq]
      exact h.refs i
  case found =>
    rw [hpager] at hi ⊢
    by_cases heq : i = ip
    · rw [heq, update_self]
      exact ⟨_, by rw [hlookup, if_pos rfl], rfl, by rw [hstage, hidle]; exact nofun⟩
    · rw [update_of_ne heq] at hi ⊢
      obtain ⟨e, he, hei, hdel⟩ := h.found i hi
      exact ⟨e, by rw [hlookup, if_neg (hne _ e he), he], hei, by rw [hstage]; exact hdel⟩
  case back =>
    rw [hlookup] at he
    rw [hpager]
    split at he
    · next hqf =>
      cases he
      rw [update_self, hqf]
    · rw [hstage] at hq
      have hback := h.back q e he hq
      have hei : e.ip ≠ ip := by
        rintro rfl
        rw [hip] at hback
        exact (h.low q e he).1 hback.symm
      rw [update_of_ne hei]
      exact hback

theorem Inv.setup [DecidableEq I] (h : Inv s) (ip : I) : Inv (s.setup ip) := by
  unfold System.setup
  split
  · next hip => exact h.create hip
  · next hip =>
    obtain ⟨e, he, -, hdel⟩ := h.found ip hip
    have hlife := h.life _ e he
    unfold System.grant
    rw [he]
    dsimp only
    rw [if_pos hlife.alive]
    have hnew : ∀ q, ((s.onPort (s.pager ip) insertRight).modify (s.pager ip)
        fun e => { e with mscount := e.mscount + 1 }).lookup q =
        if q = s.pager ip then some { e with mscount := e.mscount + 1 } else s.lookup q := by
      intro q
      have hlookup : (s.onPort (s.pager ip) insertRight).lookup (s.pager ip) = some e := he
      have hmod := System.lookup_modify (s := s.onPort (s.pager ip) insertRight)
        (p := s.pager ip) (q := q) (f := fun e => { e with mscount := e.mscount + 1 }) fun _ => rfl
      rw [hmod, hlookup]
      rfl
    refine h.change he hnew (fun q hq => ⟨update_of_ne hq .., rfl⟩) ⟨rfl, rfl, rfl, rfl⟩ rfl .rfl ?_
    have hport : ((s.onPort (s.pager ip) insertRight).modify (s.pager ip)
        fun e => { e with mscount := e.mscount + 1 }).port (s.pager ip) =
        (s.port (s.pager ip)).insertRight := update_self ..
    rw [hport]
    exact hlife.insertRight hdel

theorem Inv.turn [DecidableEq I] (h : Inv s) (hfits : Fits s .turn) : Inv s.turn := by
  unfold System.turn
  split
  · exact h
  · next p stage hthread =>
    have hstage : s.stage p = some stage := by rw [System.stage_thread hthread, if_pos rfl]
    have hlife : stage ≠ .destroying →
        ∃ e, s.lookup p = some e ∧ Life (s.port p) e (some stage) := by
      intro hne
      cases he : s.lookup p with
      | none =>
        have halive := (h.gone p he).alive
        rw [hstage] at halive
        split at halive
        · exact absurd (some.inj halive.1) hne
        · cases halive.1
      | some e => exact ⟨e, rfl, hstage ▸ h.life p e he⟩
    unfold Fits at hfits
    rw [hthread] at hfits
    rcases stage with ⟨r | r | r | m⟩ | ⟨r, n⟩ | n | _ | _
    · exact h.init hthread hfits
    · exact h.checkRequest hthread
    · exact h.terminate hthread
    · exact h.noSenders hthread hfits
    · obtain ⟨e, he, hlife⟩ := hlife nofun
      have hhandle := h.handle hthread he (·.modRefs r n) id none (fun _ => rfl) rfl nofun nofun
        hlife.released
      rwa [System.modify_id] at hhandle
    · obtain ⟨e, he, hlife⟩ := hlife nofun
      obtain ⟨hreg, hnew⟩ := hlife.nsrequest
      have hhandle :=
        h.handle hthread he (·.nsrequest n) id none (fun _ => rfl) rfl nofun nofun hnew
      rw [System.modify_id] at hhandle
      dsimp only
      rw [if_pos ⟨hlife.alive, by rw [hreg]; rfl⟩]
      exact hhandle
    · exact h.delete hthread
    · exact h.destroy hthread

theorem Inv.receive (h : Inv s) {m : Msg} {rest : List Msg} (hthread : s.thread = none)
    (hqueue : (s.port p).queue = m :: rest) :
    Inv ((s.onPort p (·.receive m)).go (some (p, .handling m))) := by
  have hstage := stage_none hthread
  cases he : s.lookup p with
  | none =>
    have hempty := (h.gone p he).queue
    rw [hqueue] at hempty
    cases hempty
  | some e =>
    have hlife := h.life p e he
    rw [hstage] at hlife
    have hnew : ∀ q, ((s.onPort p (·.receive m)).go (some (p, .handling m))).stage q =
        if q = p then some (.handling m) else none := stage_thread rfl
    refine h.change he (fun q => ?_) (fun q hq => ⟨update_of_ne hq .., ?_⟩)
      ⟨rfl, rfl, rfl, rfl⟩ rfl ?_ ?_
    · split
      · next hq => rw [hq]; exact he
      · rfl
    · rw [hnew, if_neg hq, hstage]
    · rw [hnew, if_pos rfl, hstage]
      exact iff_of_false nofun nofun
    · have hport : ((s.onPort p (·.receive m)).go (some (p, .handling m))).port p =
          (s.port p).receive m := update_self ..
      rw [hnew, if_pos rfl, hport]
      exact hlife.receive hqueue

theorem Inv.event [DecidableEq I] (h : Inv s) {ev : Event I} (hfits : Fits s ev) :
    Inv (s.event ev) := by
  have hrights : ∀ {p}, 0 < (s.port p).srights → s.lookup p ≠ none := fun hpos hnone =>
    absurd (h.gone _ hnone).rights hpos.ne'
  have hmapped : ∀ {p r}, r ∈ (s.port p).mapped → s.lookup p ≠ none := fun hr => hrights (by
    have := length_pos_of_mem hr
    unfold srights
    omega)
  cases ev with
  | setup ip => exact h.setup ip
  | release p =>
    exact h.onPort (fun e => Life.deallocate) fun hnone =>
      if_neg (by rw [(h.gone p hnone).urefs]; exact lt_irrefl 0)
  | copy p =>
    unfold System.event
    dsimp only
    split
    · next hpos =>
      exact h.onPort (fun e hlife => hlife.copy hpos) fun hnone => (hrights hpos hnone).elim
    · exact h
  | drop p =>
    unfold System.event
    dsimp only
    split
    · next hpos =>
      have hsome : s.lookup p ≠ none := hrights (by unfold srights; omega)
      exact h.onPort (fun e hlife => hlife.drop) fun hnone => (hsome hnone).elim
    · exact h
  | map p =>
    unfold System.event
    dsimp only
    split
    · next hpos =>
      exact h.onPort (fun e hlife => hlife.map hpos) fun hnone => (hrights hpos hnone).elim
    · exact h
  | request p r =>
    unfold System.event
    dsimp only
    split
    · next hr =>
      exact h.onPort (fun e hlife => hlife.request hr) fun hnone => (hmapped hr hnone).elim
    · exact h
  | unmap p r =>
    unfold System.event
    dsimp only
    split
    · next hr =>
      exact h.onPort (fun e hlife => hlife.unmap hr) fun hnone => (hmapped hr hnone).elim
    · exact h
  | notify p =>
    unfold System.event
    dsimp only
    split
    · exact h
    · next m hm =>
      refine h.onPort (fun e hlife => hlife.notify hm) fun hnone => ?_
      rw [(h.gone p hnone).notice] at hm
      cases hm
  | receive p =>
    unfold System.event
    dsimp only
    split
    · next m rest hthread hqueue => exact h.receive hthread hqueue
    · exact h
  | turn => exact h.turn hfits

theorem Inv.start : Inv (System.start : System I) where
  calm := rfl
  life := nofun
  gone _ _ := ⟨rfl, rfl, rfl, rfl, fun _ => rfl, rfl, Nat.zero_le 1⟩
  low := nofun
  unused _ _ := rfl
  fresh := Nat.one_ne_zero
  refs _ := rfl
  found _ hne := absurd rfl hne
  back := nofun

end Inv

/-- The inode is set up again when a notification is on its way, and its port is destroyed at the
next one. -/
def setupAgain : List (Event ℕ) :=
  [.setup 7, .map 1, .release 1, .receive 1, .turn, .request 1 0, .receive 1, .turn,
    .unmap 1 0, .receive 1, .turn, .turn, .setup 7, .notify 1, .receive 1, .turn, .turn,
    .release 1, .notify 1, .receive 1, .turn, .turn, .turn]

/-- The inode is mapped again when a notification is on its way, and the new mapping is initialised
before the notification is handled. -/
def mappedAgain : List (Event ℕ) :=
  [.setup 7, .map 1, .release 1, .receive 1, .turn, .unmap 1 0, .receive 1, .turn, .turn,
    .setup 7, .map 1, .notify 1, .receive 1, .turn, .receive 1, .turn]

end MachKernel.Ux.InodePager
