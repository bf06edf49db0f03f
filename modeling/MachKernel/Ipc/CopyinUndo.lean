import MachKernel.Ipc.RightOk

/-! Copyins that were checked before and copyins that are undone (`ipc/ipc_right.c`). -/

namespace MachKernel.Ipc
open Assoc IpcSpace Function Option

/-- What the assertions of `ipc/ipc_right.c` say of the bits of an entry. -/
inductive Capability.Valid (c : Capability) : Prop
  | none (type : c.type = .none)
  | send (type : c.type = .onlySend ∨ c.type = .sendReceive) (pos : 0 < c.urefs)
      (room : (c.urefs : ℤ) < urefsMax)
  | receive (type : c.type = .onlyReceive) (zero : c.urefs = 0)
  | sendOnce (type : c.type = .onlySendOnce) (one : c.urefs = 1) (marequest : c.marequest = false)
  | portSet (type : c.type = .onlyPortSet) (zero : c.urefs = 0) (marequest : c.marequest = false)
      (request : c.request = 0)
  | deadName (type : c.type = .onlyDeadName) (pos : 0 < c.urefs) (max : (c.urefs : ℤ) ≤ urefsMax)
      (marequest : c.marequest = false) (compat : c.compat = false) (request : c.request = 0)
      (object : c.object = .none)

namespace Capability.Valid
variable {c : Capability}

theorem urefs_send (h : c.Valid) (hsend : c.type.send = true) :
    0 < c.urefs ∧ (c.urefs : ℤ) < urefsMax := by
  cases h with
  | send _ hpos hroom => exact ⟨hpos, hroom⟩
  | none h | receive h | sendOnce h | portSet h | deadName h =>
    rw [h] at hsend
    cases hsend

theorem urefs_sendOnce (h : c.Valid) (htype : c.type = .onlySendOnce) :
    c.urefs = 1 ∧ c.marequest = false := by
  cases h with
  | sendOnce _ hone hm => exact ⟨hone, hm⟩
  | send h =>
    rw [htype] at h
    rcases h with h | h <;> cases h
  | none h | receive h | portSet h | deadName h =>
    rw [htype] at h
    cases h

theorem deadName_fields (h : c.Valid) (htype : c.type = .onlyDeadName) :
    0 < c.urefs ∧ c.marequest = false ∧ c.compat = false ∧ c.request = 0 ∧ c.object = .none := by
  cases h with
  | deadName _ hpos _ hm hcompat hrequest hobject => exact ⟨hpos, hm, hcompat, hrequest, hobject⟩
  | send h =>
    rw [htype] at h
    rcases h with h | h <;> cases h
  | none h | receive h | sendOnce h | portSet h =>
    rw [htype] at h
    cases h

end Capability.Valid

/-! ## Writes to one entry -/

namespace IpcSpace
variable {s : IpcSpace} {f g : Capability → Capability} {r : EntryRef} {c : Capability}

@[simp] theorem write_write : (s.write f r).write g r = s.write (g ∘ f) r := by
  cases r with
  | table i => simp [write, modifySlot]
  | tree name => simp [write, SplayTree.modify_modify]

@[simp] theorem entry_write : (s.write f r).entry r = (s.entry r).map f := by
  cases r with
  | table i => simp [write, modifySlot, entry]
  | tree name => simp [write, entry, SplayTree.toList_modify, get_modifyList]

variable [TableSizes] {tm : MachPort → Option Capability} {l : List ℕ} {n : MachPort}

theorem Rep.write_congr (h : s.Rep tm l) (hr : s.RefOf tm l n r) (hc : s.entry r = some c)
    (hfg : f c = g c) : s.write f r = s.write g r := by
  cases r with
  | table i =>
    obtain rfl := some.inj hc
    simp only [IpcSpace.write, IpcSpace.modifySlot]
    rw [hfg]
  | tree name =>
    have hget : get s.tree.toList name = some c := hc
    have hmem : ∀ e, (name, e) ∈ s.tree.toList → f e = g e := fun e he => by
      rw [h.tree.ok.increasing.get_eq_some.mpr he] at hget
      rw [some.inj hget, hfg]
    have hn : s.tree.root.isNull = false := by
      by_contra hn
      rw [SplayTree.toList_of_null (by simpa using hn)] at hget
      cases hget
    change ({ s with tree := _ } : IpcSpace) = { s with tree := _ }
    rw [SplayTree.modify_congr hn hmem]

omit [TableSizes] in
theorem write_id : s.write id r = s := by
  cases r with
  | table i => simp [write, modifySlot]
  | tree name => simp [write]

theorem Rep.write_self (h : s.Rep tm l) (hr : s.RefOf tm l n r) (hc : s.entry r = some c)
    (hf : f c = c) : s.write f r = s :=
  (h.write_congr hr hc hf).trans write_id

end IpcSpace

namespace RightState

def ipcRightCopyinCheck (s : RightState) (name : MachPort) (entry : EntryRef)
    (msgtName : MsgTypeName) : Bool :=
  let (bits, s) := s.useEntry name entry
  match msgtName with
  | .makeSend | .makeSendOnce | .moveReceive => bits.type.receive
  | .copySend | .moveSend | .moveSendOnce =>
    if bits.type.deadName = true then true
    else if bits.type.sendRights = false then false
    else
      let active := (s.ports (bits.object.getD 0)).active
      if active = false then !bits.compat
      else if msgtName = .moveSendOnce then bits.type.sendOnce
      else bits.type.send

variable [TableSizes]

def ipcRightCopyinUndo (s : RightState) (name : MachPort) (entry : EntryRef)
    (msgtName : MsgTypeName) (object soright : Option ℕ) : RightState :=
  let (bits, s) := s.useEntry name entry
  let s :=
    -- the copyin took the last reference and a dead-name request with it
    if soright ≠ none then
      s.writeEntry name entry fun c => ⟨.onlyDeadName, 2, false, false, c.object, c.request⟩
    else if bits.type = .none then
      s.writeEntry name entry fun c => ⟨.onlyDeadName, 1, false, false, c.object, c.request⟩
    else if bits.type = .onlyDeadName then
      if msgtName ≠ .copySend then
        s.writeEntry name entry fun c => { c with urefs := bits.urefs + 1 }
      else s
    else
      let s :=
        if msgtName ≠ .copySend then
          s.writeEntry name entry fun c => { c with urefs := bits.urefs + 1 }
        else s
      (s.ipcRightCheck (object.getD 0) name entry).2
  match object with
  | some port => s.portRelease port
  | none => s

/-- What `ipc_port_destroy` does to a port: it is dead, and all dead-name requests are answered. -/
def die (s : RightState) (port : ℕ) : RightState :=
  s.modifyPort port fun p => { p with active := false, dnrequests := fun _ => none }

/-- When the port dies. `ipc_right_copyin` looks at it once, with the port locked from then on. -/
inductive Death
  | beforeCopyin
  | afterCopyin

/-- A copyin that was undone: its result, the state, and the send-once rights that dead-name
notifications were sent to, by the index of the request. -/
structure Undone where
  copyin : Copyin
  state : RightState
  notified : ℕ → Option ℕ

/-- A copyin of a right for a port that dies, and the undo, after which `ipc_kmsg_copyin_header`
sends a dead-name notification to the send-once right from the copyin. -/
def copyinUndone (s : RightState) (port : ℕ) (name : MachPort) (entry : EntryRef)
    (msgtName : MsgTypeName) (deadok : Bool) : Death → Undone
  | .beforeCopyin =>
    let notified := (s.ports port).dnrequests
    let (copyin, s) := (s.die port).ipcRightCopyin name entry msgtName deadok
    ⟨copyin, s.ipcRightCopyinUndo name entry msgtName copyin.object copyin.soright, notified⟩
  | .afterCopyin =>
    let request := (s.useEntry name entry).1.request
    let (copyin, s) := s.ipcRightCopyin name entry msgtName deadok
    let notified := (s.ports port).dnrequests
    let s := s.die port
    ⟨copyin, s.ipcRightCopyinUndo name entry msgtName copyin.object copyin.soright,
      update notified request (copyin.soright.or (notified request))⟩

/-- Without a copyin: the port dies and the entry is checked. -/
def diedChecked (s : RightState) (port : ℕ) (name : MachPort) (entry : EntryRef) : RightState :=
  let (bits, s) := (s.die port).useEntry name entry
  if bits.type.sendRights = true then (s.ipcRightCheck port name entry).2 else s

/-- The copyin made a send right in place of moving the one of the entry. -/
def madeRight (c : Capability) (msgtName : MsgTypeName) : Death → Bool
  | .beforeCopyin => false
  | .afterCopyin =>
    c.type.send && (msgtName = .copySend || (msgtName = .moveSend && decide (1 < c.urefs)))

/-! ## The check -/

section
variable {s : RightState} {port : ℕ} {name : MachPort} {entry : EntryRef}

theorem ipcRightCheck_alive (h : (s.ports port).active = true) :
    s.ipcRightCheck port name entry = (false, s) := if_pos h

theorem ipcRightCheck_dead (h : (s.ports port).active = false) :
    (s.ipcRightCheck port name entry).1 = true := by
  unfold ipcRightCheck
  rw [if_neg (by rw [h]; simp)]
  dsimp only
  split_ifs <;> rfl

section
omit [TableSizes]

theorem copyDead_success : (s.copyDead true).1.kr = .success := rfl

theorem moveDead_success (bits : Capability) :
    (s.moveDead name entry bits true).1.kr = .success := by
  unfold moveDead
  rw [if_neg (by simp)]
  split_ifs <;> rfl

/-- What the check and the copyin do alike: they look for a dead name or a send or send-once right,
and then whether the port is alive. -/
theorem sends_iff {bits : Capability} {alive : Bool} {dead invalid check : Copyin × RightState}
    (hdead : dead.1.kr = .success) (hinvalid : invalid.1.kr ≠ .success)
    (hcheck : bits.type.sendRights = true → (check.1.kr = .success ↔
      if (s.ports port).active = false then bits.compat = false else alive = true)) :
    (if bits.type.deadName = true then true
      else if bits.type.sendRights = false then false
      else if (s.ports port).active = false then !bits.compat else alive) = true ↔
    (if bits.type.deadName = true then dead
      else if bits.type.sendRights = false then invalid else check).1.kr = .success := by
  by_cases hname : bits.type.deadName = true
  · rw [if_pos hname, if_pos hname]
    exact iff_of_true rfl hdead
  · rw [if_neg hname, if_neg hname]
    by_cases hrights : bits.type.sendRights = false
    · rw [if_pos hrights, if_pos hrights]
      exact iff_of_false (by simp) hinvalid
    · rw [if_neg hrights, if_neg hrights, hcheck (by simpa using hrights)]
      split_ifs <;> simp

end

/-- The check predicts the copyin. -/
theorem ipcRightCopyinCheck_iff (s : RightState) (name : MachPort) (entry : EntryRef)
    (msgtName : MsgTypeName) : s.ipcRightCopyinCheck name entry msgtName = true ↔
      (s.ipcRightCopyin name entry msgtName true).1.kr = .success := by
  unfold ipcRightCopyinCheck ipcRightCopyin
  dsimp only
  generalize s.useEntry name entry = used
  obtain ⟨bits, s⟩ := used
  dsimp only
  have hfail : ¬ KernReturn.invalidRight = .success ∧ ¬ KernReturn.invalidName = .success := by simp
  cases msgtName with
  | makeSend | makeSendOnce | moveReceive =>
    dsimp only
    cases bits.type.receive <;> simp
  | copySend =>
    refine sends_iff copyDead_success hfail.1 fun _ => ?_
    cases hactive : (s.ports (bits.object.getD 0)).active with
    | false =>
      rw [if_pos rfl, if_pos (ipcRightCheck_dead hactive)]
      cases bits.compat <;> simp [copyDead_success]
    | true =>
      rw [ipcRightCheck_alive hactive]
      cases bits.type.send <;> simp
  | moveSend =>
    refine sends_iff (moveDead_success _) hfail.1 fun _ => ?_
    cases hactive : (s.ports (bits.object.getD 0)).active with
    | false =>
      rw [if_pos rfl, if_pos (ipcRightCheck_dead hactive)]
      cases bits.compat <;> simp [moveDead_success]
    | true =>
      rw [ipcRightCheck_alive hactive]
      cases bits.type.send with
      | false => simp
      | true => by_cases hone : bits.urefs = 1 <;> simp [hone]
  | moveSendOnce =>
    refine sends_iff (moveDead_success _) hfail.1 fun _ => ?_
    cases hactive : (s.ports (bits.object.getD 0)).active with
    | false =>
      rw [if_pos rfl, if_pos (ipcRightCheck_dead hactive)]
      cases bits.compat <;> simp [moveDead_success]
    | true =>
      rw [ipcRightCheck_alive hactive]
      cases bits.type.sendOnce <;> simp

end

/-! ## The undo -/

section
variable (s : RightState) (port : ℕ) (name : MachPort) (entry : EntryRef)
  (f : Capability → Capability) (g : Port → Port) (b : Bool) (call : RightCall)

omit [TableSizes]

theorem useEntry_fst : (s.useEntry name entry).1 = (s.space.entry entry).getD .zero := rfl
@[simp] theorem useEntry_space : (s.useEntry name entry).2.space = s.space := rfl
@[simp] theorem useEntry_ports : (s.useEntry name entry).2.ports = s.ports := rfl
@[simp] theorem useEntry_calls : (s.useEntry name entry).2.calls = s.calls := rfl
@[simp] theorem writeEntry_space :
    (s.writeEntry name entry f).space = s.space.write f entry := rfl
@[simp] theorem writeEntry_ports : (s.writeEntry name entry f).ports = s.ports := rfl
@[simp] theorem writeEntry_calls : (s.writeEntry name entry f).calls = s.calls := rfl
@[simp] theorem modifyPort_space : (s.modifyPort port g).space = s.space := rfl
@[simp] theorem modifyPort_ports :
    (s.modifyPort port g).ports = update s.ports port (g (s.ports port)) := rfl
@[simp] theorem modifyPort_calls : (s.modifyPort port g).calls = s.calls := rfl
@[simp] theorem call_space : (s.call call).space = s.space := rfl
@[simp] theorem call_ports : (s.call call).ports = s.ports := rfl
@[simp] theorem call_calls : (s.call call).calls = s.calls ++ [call] := rfl

@[simp] theorem portRelease_space : (s.portRelease port).space = s.space := rfl
@[simp] theorem portRelease_calls : (s.portRelease port).calls = s.calls := rfl
@[simp] theorem callIf_space : (s.callIf b call).space = s.space := by
  unfold callIf
  split_ifs <;> rfl

@[simp] theorem callIf_ports : (s.callIf b call).ports = s.ports := by
  unfold callIf
  split_ifs <;> rfl

@[simp] theorem callIf_calls :
    (s.callIf b call).calls = s.calls ++ if b = true then [call] else [] := by
  unfold callIf
  split_ifs <;> simp

end

section
variable (s : RightState) (name : MachPort) (entry : EntryRef)

@[simp] theorem deallocEntry_space :
    (s.deallocEntry name entry).space = s.space.dealloc name entry := rfl
@[simp] theorem deallocEntry_ports : (s.deallocEntry name entry).ports = s.ports := rfl
@[simp] theorem deallocEntry_calls : (s.deallocEntry name entry).calls = s.calls := rfl

end

section
variable {s : RightState} {m tm : MachPort → Option Capability} {l : List ℕ} {port : ℕ}
  {name : MachPort} {entry : EntryRef} {c : Capability}

/-- A valid send or send-once right of a dead port turns into a dead name. -/
def deadNameOf (c : Capability) : Capability :=
  ⟨.onlyDeadName, if c.request ≠ 0 then c.urefs + 1 else c.urefs, false, false, none, 0⟩

/-- The calls of `ipc_right_check` for a right that is not a receive right. -/
def checkCalls (c : Capability) (port : ℕ) (name : MachPort) : List RightCall :=
  (if (c.type.send && c.marequest) = true then [.marequestCancel name] else []) ++
    if c.type.send = true then [.hashDelete (some port) name] else []

theorem ipcRightCheck_ports (h : (s.ports port).active = false) :
    (s.ipcRightCheck port name entry).2.ports = (s.portRelease port).ports := by
  unfold ipcRightCheck
  rw [if_neg (by rw [h]; simp)]
  dsimp only
  split_ifs <;> simp [portRelease]

theorem ipcRightCheck_calls (h : (s.ports port).active = false)
    (hc : s.space.entry entry = some c) :
    (s.ipcRightCheck port name entry).2.calls = s.calls ++ checkCalls c port name := by
  unfold ipcRightCheck
  rw [if_neg (by rw [h]; simp)]
  dsimp only
  split_ifs <;> simp [checkCalls, useEntry_fst, hc]

theorem ipcRightCheck_space (h : (s.ports port).active = false)
    (hc : s.space.entry entry = some c) (hm : (c.marequest && !c.type.send) = false) :
    (s.ipcRightCheck port name entry).2.space =
      if c.compat = true then
        (s.space.write (fun c => { c with request := 0, object := none }) entry).dealloc name entry
      else s.space.write (fun _ => deadNameOf c) entry := by
  unfold ipcRightCheck
  rw [if_neg (by rw [h]; simp)]
  simp only [useEntry_fst, hc, getD_some, useEntry_space, callIf_space, portRelease_space, hm]
  by_cases hcompat : c.compat = true
  · simp [hcompat]
  · simp [hcompat, deadNameOf]

theorem undo_took (name : MachPort) (entry : EntryRef) (port : ℕ) (msgtName : MsgTypeName)
    (soright : ℕ) :
    let t := s.ipcRightCopyinUndo name entry msgtName (some port) (some soright)
    t.space = s.space.write (fun c => ⟨.onlyDeadName, 2, false, false, c.object, c.request⟩) entry ∧
      t.ports = (s.portRelease port).ports ∧ t.calls = s.calls := by
  unfold ipcRightCopyinUndo
  dsimp only
  rw [if_pos (by simp)]
  exact ⟨rfl, rfl, rfl⟩

theorem undo_none (name : MachPort) (hc : s.space.entry entry = some c) (htype : c.type = .none)
    (msgtName : MsgTypeName) (object : Option ℕ) :
    let t := s.ipcRightCopyinUndo name entry msgtName object none
    t.space = s.space.write (fun c => ⟨.onlyDeadName, 1, false, false, c.object, c.request⟩) entry ∧
      t.ports = (object.elim s fun port => s.portRelease port).ports ∧ t.calls = s.calls := by
  unfold ipcRightCopyinUndo
  dsimp only
  rw [if_neg (by simp), useEntry_fst, hc, getD_some, if_pos htype]
  cases object <;> exact ⟨rfl, rfl, rfl⟩

theorem undo_deadName (name : MachPort) (hc : s.space.entry entry = some c)
    (htype : c.type = .onlyDeadName) (msgtName : MsgTypeName) :
    let t := s.ipcRightCopyinUndo name entry msgtName none none
    t.space = (if msgtName ≠ .copySend then
        s.space.write (fun e => { e with urefs := c.urefs + 1 }) entry else s.space) ∧
      t.ports = s.ports ∧ t.calls = s.calls := by
  unfold ipcRightCopyinUndo
  dsimp only
  rw [if_neg (by simp), useEntry_fst, hc, getD_some, htype, if_neg (by decide), if_pos rfl]
  split_ifs <;> exact ⟨rfl, rfl, rfl⟩

theorem undo_send (name : MachPort) (port : ℕ) (hc : s.space.entry entry = some c)
    (htype : c.type = .onlySend) (msgtName : MsgTypeName) :
    ∃ s₁ : RightState, s.ipcRightCopyinUndo name entry msgtName (some port) none =
        (s₁.ipcRightCheck port name entry).2.portRelease port ∧
      s₁.space = (if msgtName = .copySend then s.space
        else s.space.write (fun e => { e with urefs := c.urefs + 1 }) entry) ∧
      s₁.ports = s.ports ∧ s₁.calls = s.calls := by
  unfold ipcRightCopyinUndo
  dsimp only
  rw [if_neg (by simp), useEntry_fst, hc, getD_some, htype, if_neg (by decide),
    if_neg (by decide), getD_some]
  by_cases hcopy : msgtName = .copySend
  · rw [if_neg (by simpa using hcopy), if_pos hcopy]
    exact ⟨_, rfl, rfl, rfl, rfl⟩
  · rw [if_pos hcopy, if_neg hcopy]
    exact ⟨_, rfl, rfl, rfl, rfl⟩

/-- What is done with a right that is found dead. -/
def endDead (s : RightState) (name : MachPort) (entry : EntryRef) (bits : Capability)
    (msgtName : MsgTypeName) (deadok : Bool) : Copyin × RightState :=
  if msgtName = .copySend then s.copyDead deadok else s.moveDead name entry bits deadok

/-- The dispositions that take a send or send-once right. -/
def SendsRight (msgtName : MsgTypeName) : Prop :=
  msgtName = .copySend ∨ msgtName = .moveSend ∨ msgtName = .moveSendOnce

theorem copyin_deadName (name : MachPort) {msgtName : MsgTypeName} (hsend : SendsRight msgtName)
    (hc : s.space.entry entry = some c) (htype : c.type = .onlyDeadName) (deadok : Bool) :
    s.ipcRightCopyin name entry msgtName deadok =
      (s.useEntry name entry).2.endDead name entry c msgtName deadok := by
  have hdn : c.type.deadName = true := by rw [htype]; rfl
  unfold ipcRightCopyin endDead
  rcases hsend with rfl | rfl | rfl
  all_goals
    dsimp only
    rw [useEntry_fst, hc, getD_some, if_pos hdn]
    rfl

theorem copyin_died (name : MachPort) {msgtName : MsgTypeName} (hsend : SendsRight msgtName)
    (hc : s.space.entry entry = some c) (htype : c.type = .onlySend ∨ c.type = .onlySendOnce)
    (hport : c.object = some port) (hdead : (s.ports port).active = false) (deadok : Bool) :
    s.ipcRightCopyin name entry msgtName deadok =
      let s := ((s.useEntry name entry).2.ipcRightCheck port name entry).2
      if c.compat = true then (⟨.invalidName, none, none⟩, s)
      else (s.useEntry name entry).2.endDead name entry (s.useEntry name entry).1 msgtName
        deadok := by
  have hdn : c.type.deadName = false := by rcases htype with h | h <;> rw [h] <;> rfl
  have hrights : c.type.sendRights = true := by rcases htype with h | h <;> rw [h] <;> rfl
  have hdead' : ((s.useEntry name entry).2.ports port).active = false := hdead
  unfold ipcRightCopyin endDead
  rcases hsend with rfl | rfl | rfl
  all_goals
    dsimp only
    rw [useEntry_fst, hc, getD_some, if_neg (by rw [hdn]; simp),
      if_neg (by rw [hrights]; simp), hport, getD_some, if_pos (ipcRightCheck_dead hdead')]
    rfl

theorem undo_endDead (hrep : s.space.Rep tm l) (href : s.space.RefOf tm l name entry)
    (hc : s.space.entry entry = some c) (hvalid : c.Valid) (htype : c.type = .onlyDeadName)
    {msgtName : MsgTypeName} {deadok : Bool}
    (hsuccess : (s.endDead name entry c msgtName deadok).1.kr = .success) (s' : RightState)
    (hs' : s'.space = (s.endDead name entry c msgtName deadok).2.space) :
    let t := s'.ipcRightCopyinUndo name entry msgtName none none
    t.space = s.space ∧ t.ports = s'.ports ∧ t.calls = s'.calls := by
  obtain ⟨hpos, hm, hcompat, -⟩ := hvalid.deadName_fields htype
  by_cases hcopy : msgtName = .copySend
  · have hsame : s'.space = s.space := by
      rw [hs', endDead, if_pos hcopy]
      unfold copyDead
      split_ifs <;> rfl
    obtain ⟨hspace, hrest⟩ := undo_deadName (s := s') name (by rw [hsame, hc]) htype msgtName
    rw [if_neg (by simpa using hcopy)] at hspace
    exact ⟨hspace.trans hsame, hrest⟩
  · unfold endDead moveDead at hs' hsuccess
    rw [if_neg hcopy] at hs' hsuccess
    by_cases hok : deadok = false
    · rw [if_pos hok] at hsuccess
      cases hsuccess
    rw [if_neg hok] at hs'
    by_cases hone : c.urefs = 1
    · rw [if_pos hone, writeEntry_space] at hs'
      have hc' : s'.space.entry entry =
          some { c with type := { c.type with deadName := false } } := by
        rw [hs', IpcSpace.entry_write, hc]
        rfl
      obtain ⟨hspace, hports, hcalls⟩ := undo_none (s := s') name hc'
        (by rw [htype]; rfl) msgtName none
      refine ⟨?_, hports, hcalls⟩
      rw [hspace, hs', IpcSpace.write_write]
      refine hrep.write_self href hc ?_
      calc
        _ = (⟨c.type, c.urefs, c.marequest, c.compat, c.object, c.request⟩ : Capability) := by
          rw [htype, hone, hm, hcompat]
          rfl
        _ = c := rfl
    · rw [if_neg hone, writeEntry_space] at hs'
      have hc' : s'.space.entry entry = some { c with urefs := c.urefs - 1 } := by
        rw [hs', IpcSpace.entry_write, hc]
        rfl
      obtain ⟨hspace, hrest⟩ := undo_deadName (s := s') name hc' htype msgtName
      rw [if_pos hcopy] at hspace
      refine ⟨?_, hrest⟩
      rw [hspace, hs', IpcSpace.write_write]
      refine hrep.write_self href hc ?_
      simp only [comp_apply]
      rw [Nat.sub_add_cancel hpos]

omit [TableSizes] in
theorem endDead_spec (s : RightState) (name : MachPort) (entry : EntryRef) (bits : Capability)
    (msgtName : MsgTypeName) (deadok : Bool) :
    let r := s.endDead name entry bits msgtName deadok
    r.1.object = none ∧ r.1.soright = none ∧ r.2.ports = s.ports ∧ r.2.calls = s.calls := by
  unfold endDead copyDead moveDead
  dsimp only
  split_ifs <;> exact ⟨rfl, rfl, rfl, rfl⟩

omit [TableSizes] in
theorem dncancel_spec (s : RightState) (port : ℕ) (name : MachPort)
    (hc : s.space.entry entry = some c) (hcompat : c.compat = false) :
    let r := s.dncancel port name entry
    r.1 = (if c.request = 0 then none else (s.ports port).dnrequests c.request) ∧
      (∃ f, r.2.space = s.space.write f entry ∧ f c = { c with request := 0 }) ∧
      (∃ table, r.2.ports = update s.ports port { s.ports port with dnrequests := table } ∧
        update table c.request (r.1.or (table c.request)) = (s.ports port).dnrequests) ∧
      r.2.calls = s.calls := by
  unfold dncancel
  dsimp only
  rw [useEntry_fst, hc, getD_some]
  by_cases hzero : c.request = 0
  · rw [if_pos hzero, if_pos hzero]
    refine ⟨rfl, ⟨id, IpcSpace.write_id.symm, by rw [← hzero]; rfl⟩,
      ⟨(s.ports port).dnrequests, ?_, ?_⟩, rfl⟩
    · exact (update_eq_self port s.ports).symm
    · exact update_eq_self _ _
  · rw [if_neg hzero, if_neg hzero, if_neg (by rw [hcompat]; simp)]
    refine ⟨rfl, ⟨fun c => { c with request := 0 }, rfl, rfl⟩, ⟨_, rfl, ?_⟩, rfl⟩
    dsimp only [useEntry_ports]
    rw [update_self, update_idem, or_none, update_eq_self]

theorem copyin_last (name : MachPort) {msgtName : MsgTypeName} (hc : s.space.entry entry = some c)
    (hcompat : c.compat = false) (hone : c.urefs = 1)
    (htype : c.type = .onlySend ∧ msgtName = .moveSend ∨
      c.type = .onlySendOnce ∧ msgtName = .moveSendOnce)
    (hport : c.object = some port) (halive : (s.ports port).active = true) (deadok : Bool) :
    let r := s.ipcRightCopyin name entry msgtName deadok
    r.1.object = some port ∧
      r.1.soright = (if c.request = 0 then none else (s.ports port).dnrequests c.request) ∧
      (∃ f, r.2.space = s.space.write f entry ∧ (f c).type = .none ∧ (f c).object = none ∧
        (f c).request = 0) ∧
      (∃ table, r.2.ports = update s.ports port { s.ports port with dnrequests := table } ∧
        update table c.request (r.1.soright.or (table c.request)) = (s.ports port).dnrequests) ∧
      r.2.calls.Perm (s.calls ++ checkCalls c port name) := by
  have hdn : c.type.deadName = false := by rcases htype with ⟨h, -⟩ | ⟨h, -⟩ <;> rw [h] <;> rfl
  have hrights : c.type.sendRights = true := by rcases htype with ⟨h, -⟩ | ⟨h, -⟩ <;> rw [h] <;> rfl
  obtain ⟨hfst, ⟨f, hspace, hf⟩, ⟨table, hports, htable⟩, hcalls⟩ := dncancel_spec
    (s.useEntry name entry).2 port name hc hcompat
  rcases htype with ⟨htype, rfl⟩ | ⟨htype, rfl⟩
  · have hsend : c.type.send = true := by rw [htype]; rfl
    have hrecv : c.type.receive = false := by rw [htype]; rfl
    unfold ipcRightCopyin
    dsimp only
    rw [useEntry_fst, hc, getD_some, if_neg (by rw [hdn]; simp),
      if_neg (by rw [hrights]; simp), hport, getD_some,
      ipcRightCheck_alive (by exact halive), if_neg (by simp),
      if_neg (by rw [hsend]; simp), if_pos hone, if_neg (by rw [hrecv]; simp)]
    generalize (s.useEntry name entry).2.dncancel port name entry = d at *
    refine ⟨rfl, hfst, ⟨(fun e => { e with type := { e.type with send := false }, urefs := 0 }) ∘
      (fun e => { e with object := none }) ∘ f, ?_, ?_⟩, ⟨table, ?_, htable⟩, ?_⟩
    · simp [hspace]
    · simp [hf, htype, PortType.onlySend, PortType.none]
    · simpa using hports
    · simp only [writeEntry_calls, callIf_calls, call_calls, hcalls, useEntry_calls, checkCalls,
        hsend, Bool.true_and, if_true, List.append_assoc]
      exact List.Perm.append_left _ List.perm_append_comm
  · have hsend : c.type.send = false := by rw [htype]; rfl
    have honce : c.type.sendOnce = true := by rw [htype]; rfl
    unfold ipcRightCopyin
    dsimp only
    rw [useEntry_fst, hc, getD_some, if_neg (by rw [hdn]; simp),
      if_neg (by rw [hrights]; simp), hport, getD_some,
      ipcRightCheck_alive (by exact halive), if_neg (by simp),
      if_neg (by rw [honce]; simp)]
    generalize (s.useEntry name entry).2.dncancel port name entry = d at *
    refine ⟨rfl, hfst, ⟨(fun e => { e with type := { e.type with sendOnce := false } }) ∘
      (fun e => { e with object := none }) ∘ f, ?_, ?_⟩, ⟨table, ?_, htable⟩, ?_⟩
    · simp [hspace]
    · simp [hf, htype, PortType.onlySendOnce, PortType.none]
    · simpa using hports
    · simp [hcalls, checkCalls, hsend]

theorem copyin_made (name : MachPort) {msgtName : MsgTypeName} (hc : s.space.entry entry = some c)
    (htype : c.type = .onlySend)
    (hmade : msgtName = .copySend ∨ msgtName = .moveSend ∧ c.urefs ≠ 1)
    (hport : c.object = some port) (halive : (s.ports port).active = true) (deadok : Bool) :
    let r := s.ipcRightCopyin name entry msgtName deadok
    r.1.object = some port ∧ r.1.soright = none ∧
      r.2.space = (if msgtName = .copySend then s.space
        else s.space.write (fun e => { e with urefs := c.urefs - 1 }) entry) ∧
      r.2.ports = update s.ports port { s.ports port with
        srights := (s.ports port).srights + 1, references := (s.ports port).references + 1 } ∧
      r.2.calls = s.calls := by
  have hdn : c.type.deadName = false := by rw [htype]; rfl
  have hrights : c.type.sendRights = true := by rw [htype]; rfl
  have hsend : c.type.send = true := by rw [htype]; rfl
  unfold ipcRightCopyin
  rcases hmade with rfl | ⟨rfl, hmany⟩
  all_goals
    dsimp only
    rw [useEntry_fst, hc, getD_some, if_neg (by rw [hdn]; simp),
      if_neg (by rw [hrights]; simp), hport, getD_some,
      ipcRightCheck_alive (by exact halive), if_neg (by simp),
      if_neg (by rw [hsend]; simp)]
  · simp [portReference]
  · rw [if_neg hmany]
    simp [portReference]

theorem copyin_wrong (name : MachPort) {msgtName : MsgTypeName} (hc : s.space.entry entry = some c)
    (htype : c.type = .onlySend ∧ msgtName = .moveSendOnce ∨
      c.type = .onlySendOnce ∧ (msgtName = .copySend ∨ msgtName = .moveSend))
    (hport : c.object = some port) (halive : (s.ports port).active = true) (deadok : Bool) :
    (s.ipcRightCopyin name entry msgtName deadok).1.kr = .invalidRight := by
  have hdn : c.type.deadName = false := by rcases htype with ⟨h, -⟩ | ⟨h, -⟩ <;> rw [h] <;> rfl
  have hrights : c.type.sendRights = true := by rcases htype with ⟨h, -⟩ | ⟨h, -⟩ <;> rw [h] <;> rfl
  unfold ipcRightCopyin
  rcases htype with ⟨htype, rfl⟩ | ⟨htype, rfl | rfl⟩
  all_goals
    dsimp only
    rw [useEntry_fst, hc, getD_some, if_neg (by rw [hdn]; simp),
      if_neg (by rw [hrights]; simp), hport, getD_some,
      ipcRightCheck_alive (by exact halive), if_neg (by simp),
      if_pos (by rw [htype]; rfl)]

end

end RightState

/-! ## A port that dies -/

section
variable [TableSizes]

/-- An entry with a send or send-once right for a port that dies, or with a dead name. The receive
right is elsewhere, and a dead-name request of the entry is in the table of the port. -/
structure PortDies (s : RightState) (m : MachPort → Option Capability) (name : MachPort)
    (c : Capability) (port : ℕ) : Prop where
  run : SpaceRun s.space m
  cap : m name = some c
  valid : c.Valid
  receive : c.type.receive = false
  object : c.type.sendRights = true → c.object = some port
  active : (s.ports port).active = true
  request : c.type.sendRights = true → c.request ≠ 0 → (s.ports port).dnrequests c.request ≠ none

/-- After the undo the space, the ports and the notifications are as when the port had died without
a copyin. A send right that the copyin made stays counted in the dead port. -/
structure RightState.Undone.Agrees (undone : RightState.Undone) (s checked : RightState) (port : ℕ)
    (made : Bool) : Prop where
  space : undone.state.space = checked.space
  ports : undone.state.ports = (checked.modifyPort port fun p =>
    { p with srights := p.srights + if made = true then 1 else 0 }).ports
  calls : undone.state.calls.Perm checked.calls
  notified : undone.notified = (s.ports port).dnrequests

end

namespace PortDies
open RightState
variable [TableSizes] {s : RightState} {m : MachPort → Option Capability} {name : MachPort}
  {c : Capability} {port : ℕ} {msgtName : MsgTypeName} {deadok : Bool} {death : Death}

theorem entry (h : PortDies s m name c port) : s.space.entry (s.space.entryRef name) = some c ∧
    ∃ tm l, s.space.Rep tm l ∧ s.space.RefOf tm l name (s.space.entryRef name) := by
  obtain ⟨tm, l, hrep, rfl, -⟩ := h.run.rep
  have href := hrep.refOf_entryRef (n := name) (by rw [h.cap]; simp)
  exact ⟨(hrep.entry_eq href).trans h.cap, tm, l, hrep, href⟩

theorem type (h : PortDies s m name c port) (hsend : SendsRight msgtName)
    (hsuccess : (s.copyinUndone port name (s.space.entryRef name) msgtName deadok death).copyin.kr =
      .success) : c.type = .onlyDeadName ∨ (c.type = .onlySend ∨ c.type = .onlySendOnce) := by
  have hnone : c.type.deadName = false → c.type.sendRights = false → False := by
    intro hdn hrights
    have hfail : ∀ s' : RightState, s'.space = s.space →
        (s'.ipcRightCopyin name (s.space.entryRef name) msgtName deadok).1.kr = .invalidRight := by
      intro s' hs'
      unfold ipcRightCopyin
      rcases hsend with rfl | rfl | rfl
      all_goals
        dsimp only
        rw [useEntry_fst, hs', h.entry.1, getD_some, if_neg (by rw [hdn]; simp), if_pos hrights]
    cases death with
    | beforeCopyin => exact absurd ((hfail (s.die port) rfl).symm.trans hsuccess) (by simp)
    | afterCopyin => exact absurd ((hfail s rfl).symm.trans hsuccess) (by simp)
  cases h.valid with
  | none htype => exact absurd (hnone (by rw [htype]; rfl) (by rw [htype]; rfl)) id
  | send htype =>
    rcases htype with htype | htype
    · exact .inr (.inl htype)
    · have hrecv := h.receive
      rw [htype] at hrecv
      cases hrecv
  | receive htype => exact absurd (hnone (by rw [htype]; rfl) (by rw [htype]; rfl)) id
  | sendOnce htype => exact .inr (.inr htype)
  | portSet htype => exact absurd (hnone (by rw [htype]; rfl) (by rw [htype]; rfl)) id
  | deadName htype => exact .inl htype

theorem deadName (h : PortDies s m name c port) (hsend : SendsRight msgtName)
    (hsuccess : (s.copyinUndone port name (s.space.entryRef name) msgtName deadok death).copyin.kr =
      .success) (htype : c.type = .onlyDeadName) :
    (s.copyinUndone port name (s.space.entryRef name) msgtName deadok death).Agrees s
      (s.diedChecked port name (s.space.entryRef name)) port false := by
  obtain ⟨hc, tm, l, hrep, href⟩ := h.entry
  have hzero := (h.valid.deadName_fields htype).2.2.2.1
  have hchecked : s.diedChecked port name (s.space.entryRef name) =
      ((s.die port).useEntry name (s.space.entryRef name)).2 := by
    unfold RightState.diedChecked
    dsimp only
    rw [useEntry_fst, show (s.die port).space = s.space from rfl, hc, getD_some, htype]
    rfl
  rw [hchecked]
  cases death with
  | beforeCopyin =>
    have hcopyin := copyin_deadName (s := s.die port) name hsend hc htype deadok
    unfold copyinUndone at hsuccess ⊢
    dsimp only at hsuccess ⊢
    rw [hcopyin] at hsuccess ⊢
    obtain ⟨hobject, hsoright, hports, hcalls⟩ := endDead_spec
      ((s.die port).useEntry name (s.space.entryRef name)).2 name (s.space.entryRef name) c msgtName
      deadok
    rw [hobject, hsoright]
    obtain ⟨hspace, hports', hcalls'⟩ := undo_endDead
      (s := ((s.die port).useEntry name (s.space.entryRef name)).2) hrep href hc h.valid htype
      hsuccess _ rfl
    refine ⟨hspace, ?_, ?_, rfl⟩
    · rw [hports', hports]
      simp
    · rw [hcalls', hcalls]
  | afterCopyin =>
    have hcopyin := copyin_deadName name hsend hc htype deadok
    unfold copyinUndone at hsuccess ⊢
    dsimp only at hsuccess ⊢
    rw [hcopyin] at hsuccess ⊢
    obtain ⟨hobject, hsoright, hports, hcalls⟩ := endDead_spec
      (s.useEntry name (s.space.entryRef name)).2 name (s.space.entryRef name) c msgtName deadok
    rw [hobject, hsoright]
    obtain ⟨hspace, hports', hcalls'⟩ := undo_endDead
      (s := (s.useEntry name (s.space.entryRef name)).2) hrep href hc h.valid htype
      hsuccess (RightState.die _ port) rfl
    refine ⟨hspace, ?_, ?_, ?_⟩
    · rw [hports']
      simp [die, hports]
    · rw [hcalls']
      simp [die, hcalls]
    · rw [none_or, update_eq_self, hports]
      rfl

theorem marequest (h : PortDies s m name c port)
    (htype : c.type = .onlySend ∨ c.type = .onlySendOnce) :
    (c.marequest && !c.type.send) = false := by
  rcases htype with htype | htype
  · rw [htype]
    exact Bool.and_false _
  · rw [(h.valid.urefs_sendOnce htype).2]
    rfl

theorem diedChecked_eq (h : PortDies s m name c port)
    (htype : c.type = .onlySend ∨ c.type = .onlySendOnce) :
    s.diedChecked port name (s.space.entryRef name) =
      (((s.die port).useEntry name (s.space.entryRef name)).2.ipcRightCheck port name
        (s.space.entryRef name)).2 := by
  have hrights : c.type.sendRights = true := by rcases htype with h | h <;> rw [h] <;> rfl
  unfold RightState.diedChecked
  dsimp only
  rw [useEntry_fst, show (s.die port).space = s.space from rfl, h.entry.1, getD_some,
    if_pos hrights]

theorem diedChecked (h : PortDies s m name c port)
    (htype : c.type = .onlySend ∨ c.type = .onlySendOnce) :
    let checked := s.diedChecked port name (s.space.entryRef name)
    checked.space = (if c.compat = true then
        (s.space.write (fun c => { c with request := 0, object := none })
          (s.space.entryRef name)).dealloc name (s.space.entryRef name)
      else s.space.write (fun _ => deadNameOf c) (s.space.entryRef name)) ∧
      checked.ports = ((s.die port).portRelease port).ports ∧
      checked.calls = s.calls ++ checkCalls c port name := by
  have hc := h.entry.1
  have hdead :
      (((s.die port).useEntry name (s.space.entryRef name)).2.ports port).active = false := by
    simp [die]
  rw [h.diedChecked_eq htype]
  exact ⟨ipcRightCheck_space hdead hc (h.marequest htype), ipcRightCheck_ports hdead,
    ipcRightCheck_calls hdead hc⟩

theorem valid_deadNameOf (h : PortDies s m name c port)
    (htype : c.type = .onlySend ∨ c.type = .onlySendOnce) : (deadNameOf c).Valid := by
  have hroom : 0 < c.urefs ∧ (c.urefs : ℤ) < urefsMax := by
    rcases htype with htype | htype
    · exact h.valid.urefs_send (by rw [htype]; rfl)
    · rw [(h.valid.urefs_sendOnce htype).1]
      decide
  refine .deadName rfl ?_ ?_ rfl rfl rfl rfl
  · unfold deadNameOf
    dsimp only
    split_ifs <;> omega
  · unfold deadNameOf
    dsimp only
    split_ifs <;> push_cast <;> omega

theorem before (h : PortDies s m name c port) (hsend : SendsRight msgtName)
    (hsuccess : (s.copyinUndone port name (s.space.entryRef name) msgtName deadok
      .beforeCopyin).copyin.kr = .success) (htype : c.type = .onlySend ∨ c.type = .onlySendOnce) :
    (s.copyinUndone port name (s.space.entryRef name) msgtName deadok .beforeCopyin).Agrees s
      (s.diedChecked port name (s.space.entryRef name)) port false := by
  obtain ⟨hc, tm, l, hrep, href⟩ := h.entry
  have hport : c.object = some port := h.object (by rcases htype with h | h <;> rw [h] <;> rfl)
  have hdead : ((s.die port).ports port).active = false := by simp [die]
  have hcopyin := copyin_died (s := s.die port) name hsend hc htype hport hdead deadok
  unfold copyinUndone at hsuccess ⊢
  dsimp only at hsuccess ⊢ hcopyin
  rw [hcopyin] at hsuccess ⊢
  have hcompat : c.compat = false := by
    by_contra hcompat
    rw [if_pos (by simpa using hcompat)] at hsuccess
    cases hsuccess
  rw [if_neg (by rw [hcompat]; simp)] at hsuccess ⊢
  rw [← h.diedChecked_eq htype] at hsuccess ⊢
  have hspace := (h.diedChecked htype).1
  rw [if_neg (by rw [hcompat]; simp)] at hspace
  -- the entry is a dead name when the copyin takes it
  obtain ⟨tm', hrep', -, href'⟩ := hrep.write href fun _ => deadNameOf c
  rw [← hspace] at hrep' href'
  have hc' : (s.diedChecked port name (s.space.entryRef name)).space.entry (s.space.entryRef name) =
      some (deadNameOf c) := by
    rw [hspace, IpcSpace.entry_write, hc]
    rfl
  rw [useEntry_fst, hc', getD_some] at hsuccess ⊢
  obtain ⟨hobject, hsoright, hports, hcalls⟩ := endDead_spec
    ((s.diedChecked port name (s.space.entryRef name)).useEntry name (s.space.entryRef name)).2 name
    (s.space.entryRef name) (deadNameOf c) msgtName deadok
  rw [hobject, hsoright]
  obtain ⟨hspace', hports', hcalls'⟩ := undo_endDead
    (s := ((s.diedChecked port name (s.space.entryRef name)).useEntry name (s.space.entryRef name)).2)
    hrep' (href' name _ href) hc' (h.valid_deadNameOf htype) rfl hsuccess _ rfl
  refine ⟨hspace', ?_, ?_, rfl⟩
  · rw [hports', hports]
    simp
  · rw [hcalls', hcalls]
    rfl

theorem made (h : PortDies s m name c port) (htype : c.type = .onlySend)
    (hmade : msgtName = .copySend ∨ msgtName = .moveSend ∧ c.urefs ≠ 1) :
    (s.copyinUndone port name (s.space.entryRef name) msgtName deadok .afterCopyin).Agrees s
      (s.diedChecked port name (s.space.entryRef name)) port true := by
  obtain ⟨hc, tm, l, hrep, href⟩ := h.entry
  have hport : c.object = some port := h.object (by rw [htype]; rfl)
  have hpos := (h.valid.urefs_send (by rw [htype]; rfl)).1
  obtain ⟨hobject, hsoright, hspace, hports, hcalls⟩ := copyin_made name hc htype hmade hport
    h.active deadok
  obtain ⟨hspace₀, hports₀, hcalls₀⟩ := h.diedChecked (.inl htype)
  generalize s.space.entryRef name = entry at *
  unfold copyinUndone
  dsimp only
  rw [hobject, hsoright]
  generalize s.ipcRightCopyin name entry msgtName deadok = r at *
  -- the check sees the entry that the copyin saw
  obtain ⟨s₁, hundo, hspace₁, hports₁, hcalls₁⟩ : ∃ s₁ : RightState,
      (r.2.die port).ipcRightCopyinUndo name entry msgtName (some port) none =
        (s₁.ipcRightCheck port name entry).2.portRelease port ∧
      s₁.space = s.space ∧ s₁.ports = (r.2.die port).ports ∧ s₁.calls = r.2.calls := by
    by_cases hcopy : msgtName = .copySend
    · rw [if_pos hcopy] at hspace
      obtain ⟨s₁, hundo, hspace₁, hrest⟩ := undo_send (s := r.2.die port) name port
        (hspace ▸ hc) htype msgtName
      rw [if_pos hcopy] at hspace₁
      exact ⟨s₁, hundo, hspace₁.trans hspace, hrest⟩
    · rw [if_neg hcopy] at hspace
      have hc' : (r.2.die port).space.entry entry = some { c with urefs := c.urefs - 1 } := by
        change r.2.space.entry _ = _
        rw [hspace, IpcSpace.entry_write, hc]
        rfl
      obtain ⟨s₁, hundo, hspace₁, hrest⟩ := undo_send (s := r.2.die port) name port
        hc' htype msgtName
      rw [if_neg hcopy, show (r.2.die port).space = r.2.space from rfl, hspace,
        IpcSpace.write_write] at hspace₁
      refine ⟨s₁, hundo, hspace₁.trans (hrep.write_self href hc ?_), hrest⟩
      simp only [comp_apply]
      rw [Nat.sub_add_cancel hpos]
  have hdead : (s₁.ports port).active = false := by rw [hports₁]; simp [die]
  rw [← hspace₁] at hc
  rw [hundo]
  refine ⟨?_, ?_, ?_, ?_⟩
  · rw [portRelease_space, ipcRightCheck_space hdead hc (h.marequest (.inl htype)), hspace₀,
      hspace₁]
  · rw [modifyPort_ports, hports₀]
    unfold portRelease
    rw [modifyPort_ports, ipcRightCheck_ports hdead]
    unfold portRelease
    rw [modifyPort_ports, hports₁]
    simp [die, hports]
  · rw [portRelease_calls, ipcRightCheck_calls hdead hc, hcalls₁, hcalls, hcalls₀]
  · rw [none_or, update_eq_self, hports, update_self]

theorem last (h : PortDies s m name c port) (htype : c.type = .onlySend ∧ msgtName = .moveSend ∨
      c.type = .onlySendOnce ∧ msgtName = .moveSendOnce)
    (hone : c.urefs = 1) (hcompat : c.compat = false) :
    (s.copyinUndone port name (s.space.entryRef name) msgtName deadok .afterCopyin).Agrees s
      (s.diedChecked port name (s.space.entryRef name)) port false := by
  obtain ⟨hc, tm, l, hrep, href⟩ := h.entry
  have hsends : c.type = .onlySend ∨ c.type = .onlySendOnce := by
    rcases htype with ⟨htype, -⟩ | ⟨htype, -⟩
    · exact .inl htype
    · exact .inr htype
  have hrights : c.type.sendRights = true := by rcases hsends with h | h <;> rw [h] <;> rfl
  obtain ⟨hobject, hsoright, ⟨f, hspace, hnone, hfobject, hfrequest⟩, ⟨table, hports, htable⟩,
      hcalls⟩ := copyin_last name hc hcompat hone htype (h.object hrights) h.active deadok
  obtain ⟨hspace₀, hports₀, hcalls₀⟩ := h.diedChecked hsends
  rw [if_neg (by rw [hcompat]; simp)] at hspace₀
  generalize s.space.entryRef name = entry at *
  unfold copyinUndone
  dsimp only
  rw [hobject]
  generalize s.ipcRightCopyin name entry msgtName deadok = r at *
  have hc' : (r.2.die port).space.entry entry = some (f c) := by
    change r.2.space.entry _ = _
    rw [hspace, IpcSpace.entry_write, hc]
    rfl
  -- the undo counts a reference for a dead-name request that the copyin took
  have hundo : ((r.2.die port).ipcRightCopyinUndo name entry msgtName (some port) r.1.soright).space =
        s.space.write (fun _ => deadNameOf c) entry ∧
      ((r.2.die port).ipcRightCopyinUndo name entry msgtName (some port) r.1.soright).ports =
        ((r.2.die port).portRelease port).ports ∧
      ((r.2.die port).ipcRightCopyinUndo name entry msgtName (some port) r.1.soright).calls =
        r.2.calls := by
    have hwrite : (r.2.die port).space = s.space.write f entry := hspace
    by_cases hzero : c.request = 0
    · rw [hsoright, if_pos hzero]
      obtain ⟨hspace', hrest⟩ := undo_none (s := r.2.die port) name hc' hnone msgtName (some port)
      rw [hwrite, IpcSpace.write_write] at hspace'
      refine ⟨hspace'.trans (hrep.write_congr href hc ?_), hrest⟩
      simp [deadNameOf, hone, hzero, hfobject, hfrequest]
    · obtain ⟨soright, hsome⟩ := ne_none_iff_exists'.mp (h.request hrights hzero)
      rw [hsoright, if_neg hzero, hsome]
      obtain ⟨hspace', hrest⟩ := undo_took (s := r.2.die port) name entry port msgtName soright
      rw [hwrite, IpcSpace.write_write] at hspace'
      refine ⟨hspace'.trans (hrep.write_congr href hc ?_), hrest⟩
      simp [deadNameOf, hone, hzero, hfobject, hfrequest]
  obtain ⟨hspace', hports', hcalls'⟩ := hundo
  refine ⟨?_, ?_, ?_, ?_⟩
  · rw [hspace', hspace₀]
  · rw [hports', modifyPort_ports, hports₀]
    simp [portRelease, die, hports]
  · rw [hcalls', hcalls₀]
    exact hcalls
  · dsimp only
    rw [useEntry_fst, hc, getD_some, hports, update_self]
    exact htable

end PortDies

section
open RightState
variable [TableSizes] {s : RightState} {m : MachPort → Option Capability} {name : MachPort}
  {c : Capability} {port : ℕ} {msgtName : MsgTypeName} {deadok : Bool} {death : Death}

/-- A copyin that is undone after the port died leaves the space as the death and a check of the
entry do. -/
theorem ipcRightCopyinUndo_died (h : PortDies s m name c port) (hsend : SendsRight msgtName)
    (hsuccess : (s.copyinUndone port name (s.space.entryRef name) msgtName deadok death).copyin.kr =
      .success) (hcompat : c.compat = true → msgtName = .copySend ∨ 1 < c.urefs) :
    (s.copyinUndone port name (s.space.entryRef name) msgtName deadok death).Agrees s
      (s.diedChecked port name (s.space.entryRef name)) port (madeRight c msgtName death) := by
  rcases h.type hsend hsuccess with htype | htype
  · rw [show madeRight c msgtName death = false by
      cases death <;> simp [madeRight, htype, PortType.onlyDeadName]]
    exact h.deadName hsend hsuccess htype
  cases death with
  | beforeCopyin => exact h.before hsend hsuccess htype
  | afterCopyin =>
    have hport : c.object = some port := h.object (by rcases htype with h | h <;> rw [h] <;> rfl)
    have hright : ¬ (c.type = .onlySend ∧ msgtName = .moveSendOnce ∨
        c.type = .onlySendOnce ∧ (msgtName = .copySend ∨ msgtName = .moveSend)) := by
      intro hwrong
      have hkr := copyin_wrong name h.entry.1 hwrong hport h.active deadok
      rw [show (s.ipcRightCopyin name _ msgtName deadok).1.kr = .success from hsuccess] at hkr
      cases hkr
    rcases htype with htype | htype
    · have hsendbit : c.type.send = true := by rw [htype]; rfl
      obtain ⟨hpos, -⟩ := h.valid.urefs_send hsendbit
      by_cases hmade : msgtName = .copySend ∨ msgtName = .moveSend ∧ c.urefs ≠ 1
      · rw [show madeRight c msgtName .afterCopyin = true by
          rcases hmade with rfl | ⟨rfl, hne⟩
          · simp [madeRight, hsendbit]
          · simp [madeRight, hsendbit, show 1 < c.urefs by omega]]
        exact h.made htype hmade
      · obtain ⟨rfl, hone⟩ : msgtName = .moveSend ∧ c.urefs = 1 := by
          rcases hsend with rfl | rfl | rfl
          · exact absurd (.inl rfl) hmade
          · exact ⟨rfl, by_contra fun hne => hmade (.inr ⟨rfl, hne⟩)⟩
          · exact absurd (.inl ⟨htype, rfl⟩) hright
        rw [show madeRight c .moveSend .afterCopyin = false by simp [madeRight, hone]]
        exact h.last (.inl ⟨htype, rfl⟩) hone (by
          by_contra hc
          rcases hcompat (by simpa using hc) with hcopy | hmore
          · cases hcopy
          · omega)
    · obtain rfl : msgtName = .moveSendOnce := by
        rcases hsend with rfl | rfl | rfl
        · exact absurd (.inr ⟨htype, .inl rfl⟩) hright
        · exact absurd (.inr ⟨htype, .inr rfl⟩) hright
        · rfl
      have hone := (h.valid.urefs_sendOnce htype).1
      rw [show madeRight c .moveSendOnce .afterCopyin = false by simp [madeRight]]
      exact h.last (.inr ⟨htype, rfl⟩) hone (by
        by_contra hc
        rcases hcompat (by simpa using hc) with hcopy | hmore
        · cases hcopy
        · omega)

end

/-- A send right for port 0 with a dead-name request. -/
def requestedSend : Capability := ⟨.onlySend, 1, false, false, some 0, 1⟩

/-- A space in which the first slot has the right, and the port is alive. -/
def requestedState : RightState :=
  { space := ((@create tableInit 0).entryGet.elim (@create tableInit 0) fun e => e.2.2).write
      (fun _ => requestedSend) (.table 1)
    ports := fun _ => ⟨true, 1, ⊥, none, 0, 1, 0, none, fun _ => some 7⟩
    accesses := []
    calls := [] }

theorem requestedState_portDies : @PortDies tableInit requestedState (update
    (update (fun _ => none) (.make 1 0) (some .zero)) (.make 1 0) (some requestedSend))
    (.make 1 0) requestedSend 0 := by
  have hg : entryGet (@create tableInit 0) = some (.make 1 0, .table 1, _) := rfl
  have hget := @SpaceRun.get tableInit _ _ _ _ _ (@SpaceRun.create tableInit 0 (by decide)) hg
  have hrun := @SpaceRun.write tableInit _ _ (.make 1 0) (fun _ => requestedSend) hget (by simp)
  rw [update_self, map_some] at hrun
  exact @PortDies.mk tableInit _ _ _ _ _ hrun (by rw [update_self])
    (.send (.inl rfl) (by decide) (by decide)) rfl (fun _ => rfl) rfl fun _ _ => by
      rw [show (requestedState.ports 0).dnrequests requestedSend.request = some 7 from rfl]
      simp

/-- The send right that a copy-send made is still counted. -/
theorem ipcRightCopyinUndo_counts : ∃ s m name c, @PortDies tableInit s m name c 0 ∧
    (@RightState.copyinUndone tableInit s 0 name (@entryRef tableInit s.space name) .copySend false
      .afterCopyin).copyin.kr = .success ∧
    ((@RightState.copyinUndone tableInit s 0 name (@entryRef tableInit s.space name) .copySend false
      .afterCopyin).state.ports 0).srights = 2 ∧
    ((@RightState.diedChecked tableInit s 0 name (@entryRef tableInit s.space name)).ports 0).srights =
      1 :=
  ⟨requestedState, _, _, _, requestedState_portDies, rfl, rfl, rfl⟩

theorem ipcRightCopyinUndo_died_requested :
    (@RightState.copyinUndone tableInit requestedState 0 (.make 1 0) (.table 1) .moveSend false
      .afterCopyin).state.space.entry (.table 1) = some ⟨.onlyDeadName, 2, false, false, none, 0⟩ := by
  have hagrees := @ipcRightCopyinUndo_died tableInit _ _ _ _ _ .moveSend false .afterCopyin
    requestedState_portDies (.inr (.inl rfl)) rfl (fun h => by cases h)
  exact (congrArg (fun s : IpcSpace => s.entry (.table 1)) hagrees.space).trans rfl

end MachKernel.Ipc
