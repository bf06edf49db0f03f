import MachKernel.Ipc.Grow
import MachKernel.Ipc.Right

/-! How often the callers of `ipc_right_check` free an entry whose port died. -/

namespace MachKernel.Ipc
open IpcSpace Function List Option

section
variable [TableSizes]

/-- The pointer is to the entry of the name. -/
def Access.Sound (a : Access) : Prop :=
  ∃ tm l, a.space.Rep tm l ∧ a.space.RefOf tm l a.name a.entry

/-- How often the entry of the name was deallocated. -/
def RightState.deallocs (s : RightState) (name : MachPort) : ℕ :=
  s.accesses.countP fun a => a.dealloc && decide (a.name = name)

/-- All pointers that were used were to the entries they were for, the entry of the name was
deallocated so many times, and the free list ends, with no slot on it twice. -/
structure RightState.Deallocs (s : RightState) (name : MachPort) (times : ℕ) : Prop where
  sound : ∀ a ∈ s.accesses, a.Sound
  deallocs : s.deallocs name = times
  freeList : ∃ l, FreeList.Chain (fun i => (s.space.table i).next) (s.space.table 0).next l ∧ l.Nodup

/-- The callers of `ipc_right_check`. -/
inductive CheckCaller
  | objectCopyin (msgtName : MsgTypeName)
  | rename (nname : MachPort)
  | dealloc
  | delta (right : PortRight) (delta : ℤ)
  | destroy

namespace CheckCaller

/-- The caller with the pointers that lookups of the names give. -/
def run (caller : CheckCaller) (s : RightState) (name : MachPort) : RightState :=
  let entry := s.space.entryRef name
  match caller with
  | objectCopyin msgtName => (s.ipcObjectCopyin name msgtName).2.2
  | rename nname => (s.ipcRightRename name entry nname (s.space.entryRef nname)).2
  | dealloc => (s.ipcRightDealloc name entry).2
  | delta right d => (s.ipcRightDelta name entry right d).2
  | destroy => (s.ipcRightDestroy name entry).2

/-- The caller gets as far as to find out that the port of an entry is dead. -/
def reaches (c : Capability) : CheckCaller → Bool
  | objectCopyin msgtName =>
    msgtName = .copySend || msgtName = .moveSend || msgtName = .moveSendOnce
  | rename _ => true
  | dealloc => true
  | delta right d =>
    match right with
    | .send => c.type.send && !urefsUnderflow c.urefs d && !urefsOverflow (c.urefs + 1) d
    | .receive => false
    | .sendOnce => c.type.sendOnce && decide (-1 ≤ d) && decide (d ≤ 0)
    | .portSet => false
    | .deadName => true
  | destroy => true

end CheckCaller

/-- The tree entry that `ipc_entry_dealloc` moves into the slot of the name. -/
def IpcSpace.migrated (s : IpcSpace) (name : MachPort) : Option MachPort :=
  let index := name.index
  if s.entryRef name = .table index ∧ (s.table index).collision = true then
    let collisions := (s.tree.split (.make (index + 1) 0) scratchTree).2
    (collisions.split (.make index 0) scratchTree).1.pick.map Prod.fst
  else none

/-- An entry in compat mode whose port died without the space having been told, in a space that
was just locked. A new name for it has an entry without a right. -/
structure PortDied (s : RightState) (m : MachPort → Option Capability) (name : MachPort)
    (c : Capability) (caller : CheckCaller) : Prop where
  run : SpaceRun s.space m
  isActive : s.space.isActive = true
  fresh : s.accesses = []
  cap : m name = some c
  found : (s.space.lookup name).1 = some (s.space.entryRef name)
  compat : c.compat = true
  type : c.type = .onlySend ∨ c.type = .onlySendOnce
  request : c.request ≠ 0
  died : ∃ port, c.object = some port ∧ (s.ports port).active = false
  newName : ∀ nname, caller = .rename nname → nname ≠ name ∧
    ∃ c', m nname = some c' ∧ c'.type = .none ∧ c'.object = none

/-- The callers that leave the entry alone after `ipc_right_check`. -/
def CheckCaller.Careful (s : IpcSpace) (name : MachPort) : CheckCaller → Prop
  | objectCopyin msgtName =>
    msgtName ≠ .copySend ∧ msgtName ≠ .moveSend ∧ msgtName ≠ .moveSendOnce
  | rename nname => s.migrated name ≠ some nname
  | _ => True

end


/-! ## What the accesses leave -/

namespace IpcSpace
variable [TableSizes] {s s' : IpcSpace} {tm tm' : MachPort → Option Capability} {l l' : List ℕ}
  {name k : MachPort}

theorem Rep.unique (h : s.Rep tm l) (h' : s.Rep tm' l') : tm = tm' ∧ l = l' :=
  ⟨funext fun n => (h.tree.get_eq n).symm.trans (h'.tree.get_eq n), h.chain.unique h'.chain⟩

omit [TableSizes] in
theorem gen_modifySlot {i j : ℕ} (f : IpcEntry → IpcEntry) (h : i = j → (f (s.table j)).gen =
    (s.table j).gen) : ((s.modifySlot j f).table i).gen = (s.table i).gen := by
  change (update s.table j (f (s.table j)) i).gen = _
  rcases eq_or_ne i j with rfl | hne
  · rw [update_self]
    exact h rfl
  · rw [update_of_ne hne]

theorem gen_dealloc {entry : EntryRef} {i : ℕ} (h : i = name.index → entry = .table name.index →
    (s.table name.index).collision = false) :
    ((s.dealloc name entry).table i).gen = (s.table i).gen := by
  unfold IpcSpace.dealloc
  dsimp only
  split_ifs with hentry hcol hsize hcollision hnext hcollision
  · have hi : i ≠ name.index := by
      intro hi
      rw [h hi hentry.2] at hcol
      cases hcol
    split
    · rfl
    · change (update s.table name.index _ i).gen = _
      rw [update_of_ne hi]
  · exact (gen_modifySlot _ fun _ => rfl).trans (gen_modifySlot _ fun _ => rfl)
  · exact gen_modifySlot _ fun _ => rfl
  all_goals rfl

theorem entryRef_dealloc (h : s.Rep tm l) (hr : s.RefOf tm l name (s.entryRef name)) (hk : k ≠ name) :
    (s.dealloc name (s.entryRef name)).entryRef k = s.entryRef k ↔ s.migrated name ≠ some k := by
  have hlevel : (s.dealloc name (s.entryRef name)).level = s.level := dealloc_locked.level
  have hsame : ((s.dealloc name (s.entryRef name)).table k.index).gen = (s.table k.index).gen →
      (s.dealloc name (s.entryRef name)).entryRef k = s.entryRef k := by
    intro hgen
    generalize s.dealloc name (s.entryRef name) = s' at hlevel hgen ⊢
    unfold entryRef tableSize
    rw [hlevel, hgen]
  by_cases hmove : s.entryRef name = .table name.index ∧ (s.table name.index).collision = true
  · obtain ⟨hentry, hcol⟩ := hmove
    rw [hentry] at hr hsame hlevel ⊢
    obtain ⟨tname, hti, htm, hpick, hdone, -, hin⟩ := h.deallocMove hr.2 hcol
    have hmig : s.migrated name = some tname := (if_pos ⟨hentry, hcol⟩).trans hpick
    rw [hmig]
    constructor
    · rintro heq hsome
      obtain rfl := some.inj hsome
      have hafter : (s.dealloc name (.table name.index)).entryRef tname = .table tname.index :=
        if_pos ⟨hin.1, hin.2.1, hin.2.2.2⟩
      have hbefore : s.entryRef tname = .tree tname := by
        refine if_neg fun hc => ?_
        exact hk (MachPort.ext hti ((hc.2.2.symm.trans (by rw [hti])).trans hr.2.2.2.2))
      rw [hafter, hbefore] at heq
      cases heq
    · intro hne
      rcases eq_or_ne k.index name.index with hki | hki
      · have hbefore : s.entryRef k = .tree k := by
          refine if_neg fun hc => ?_
          exact hk (MachPort.ext hki ((hc.2.2.symm.trans (by rw [hki])).trans hr.2.2.2.2))
        rw [hbefore]
        refine if_neg fun hc => hne ?_
        have hgen := hin.2.2.2
        rw [hti.trans hki.symm, hc.2.2] at hgen
        exact congrArg some (MachPort.ext (hti.trans hki.symm) hgen.symm)
      · exact hsame (gen_dealloc fun hi => absurd hi hki)
  · refine iff_of_true (hsame (gen_dealloc fun _ hentry => ?_)) ?_
    · rw [Bool.eq_false_iff]
      exact fun hcol => hmove ⟨hentry, hcol⟩
    · rw [show s.migrated name = none from if_neg hmove]
      simp

end IpcSpace

namespace RightState
variable [TableSizes] {s s' : RightState} {m : MachPort → Option Capability} {name : MachPort}
  {entry : EntryRef} {c : Capability}

/-- All accesses so far were sound, none freed the entry of the name, and the pointer is to it. -/
structure Held (s : RightState) (m : MachPort → Option Capability) (name : MachPort)
    (entry : EntryRef) (c : Capability) : Prop where
  sound : ∀ a ∈ s.accesses, a.Sound
  deallocs : s.deallocs name = 0
  rep : ∃ tm l, s.space.Rep tm l ∧ s.space.contents tm l = update m name (some c) ∧
    s.space.RefOf tm l name entry

/-- The entry of the name was freed once. -/
structure Gone (s : RightState) (m : MachPort → Option Capability) (name : MachPort) : Prop where
  sound : ∀ a ∈ s.accesses, a.Sound
  deallocs : s.deallocs name = 1
  rep : ∃ tm l, s.space.Rep tm l ∧ s.space.contents tm l = update m name none

theorem Held.congr (h : s.Held m name entry c) (s' : RightState) (hspace : s'.space = s.space)
    (haccesses : s'.accesses = s.accesses) : s'.Held m name entry c := by
  refine ⟨?_, ?_, ?_⟩
  · rw [haccesses]
    exact h.sound
  · unfold RightState.deallocs
    rw [haccesses]
    exact h.deallocs
  · rw [hspace]
    exact h.rep

theorem Held.here (h : s.Held m name entry c) (dealloc : Bool) :
    ∀ a ∈ s.accesses ++ [⟨s.space, name, entry, dealloc⟩], a.Sound := by
  intro a ha
  rcases mem_append.mp ha with ha | ha
  · exact h.sound a ha
  · obtain rfl := mem_singleton.mp ha
    obtain ⟨tm, l, hrep, -, href⟩ := h.rep
    exact ⟨tm, l, hrep, href⟩

theorem Held.useEntry (h : s.Held m name entry c) :
    (s.useEntry name entry).1 = c ∧ (s.useEntry name entry).2.Held m name entry c := by
  obtain ⟨tm, l, hrep, hcont, href⟩ := h.rep
  refine ⟨?_, h.here false, ?_, h.rep⟩
  · unfold RightState.useEntry
    dsimp only
    rw [hrep.entry_eq href, hcont, update_self]
    rfl
  · have hd := h.deallocs
    unfold RightState.deallocs at hd ⊢
    rw [RightState.useEntry, countP_append, hd]
    rfl

theorem Held.writeEntry (h : s.Held m name entry c) (f : Capability → Capability) :
    (s.writeEntry name entry f).Held m name entry (f c) := by
  obtain ⟨tm, l, hrep, hcont, href⟩ := h.rep
  obtain ⟨tm', hrep', hcont', href'⟩ := hrep.write href f
  refine ⟨h.here false, ?_, tm', l, hrep', ?_, href' name entry href⟩
  · have hd := h.deallocs
    unfold RightState.deallocs at hd ⊢
    rw [RightState.writeEntry, countP_append, hd]
    rfl
  · refine hcont'.trans ?_
    rw [hcont, update_self, update_idem]
    rfl

theorem Held.deallocEntry (h : s.Held m name entry c) (hobject : c.object = none) :
    (s.deallocEntry name entry).Gone m name := by
  obtain ⟨tm, l, hrep, hcont, href⟩ := h.rep
  have hc : s.space.contents tm l name = some c := by rw [hcont, update_self]
  obtain ⟨tm', l', hdone⟩ := hrep.dealloc href hc hobject
  refine ⟨h.here true, ?_, tm', l', hdone.rep, ?_⟩
  · have hd := h.deallocs
    unfold RightState.deallocs at hd ⊢
    rw [RightState.deallocEntry, countP_append, hd]
    simp
  · refine hdone.contents.trans ?_
    rw [hcont, update_idem]

theorem Held.callIf (h : s.Held m name entry c) (b : Bool) (call : RightCall) :
    (s.callIf b call).Held m name entry c := by
  unfold RightState.callIf
  split_ifs
  · exact h.congr _ rfl rfl
  · exact h

theorem Held.ipcRightCheck (h : s.Held m name entry c) (port : ℕ)
    (hdead : (s.ports port).active = false) (hcompat : c.compat = true) :
    (s.ipcRightCheck port name entry).1 = true ∧ (s.ipcRightCheck port name entry).2.Gone m name ∧
      ∃ f, (s.ipcRightCheck port name entry).2.space = (s.space.write f entry).dealloc name entry ∧
        (∀ c, (f c).object = none) := by
  obtain ⟨hc, h₁⟩ := h.useEntry
  have h₂ := ((h₁.callIf (c.type.send && c.marequest) (.marequestCancel name)).callIf c.type.send
    (.hashDelete (some port) name)).congr (RightState.portRelease _ port) rfl rfl
  have h₃ := h₂.writeEntry fun c => { c with request := 0, object := none }
  have hrun : ∃ s', s.ipcRightCheck port name entry = (true, s') ∧ s'.Gone m name ∧
      ∃ f, s'.space = (s.space.write f entry).dealloc name entry ∧ ∀ c, (f c).object = none := by
    refine ⟨_, ?_, h₃.deallocEntry rfl, fun c => { c with request := 0, object := none }, ?_,
      fun _ => rfl⟩
    · unfold RightState.ipcRightCheck
      rw [if_neg (by rw [hdead]; simp)]
      dsimp only
      rw [hc, if_pos hcompat]
    · unfold RightState.callIf
      split_ifs <;> rfl
  obtain ⟨s', hs', hgone⟩ := hrun
  rw [hs']
  exact ⟨rfl, hgone⟩


theorem Gone.not_sound (h : s.Gone m name) (entry : EntryRef) (dealloc : Bool) :
    ¬ Access.Sound ⟨s.space, name, entry, dealloc⟩ := by
  rintro ⟨tm, l, hrep, href⟩
  obtain ⟨tm', l', hrep', hcont⟩ := h.rep
  obtain ⟨rfl, rfl⟩ := hrep.unique hrep'
  refine hrep.contents_ne_none href ?_
  rw [hcont, update_self]

theorem Held.times (h : s.Held m name entry c) : s.Deallocs name 0 := by
  obtain ⟨tm, l, hrep, -, -⟩ := h.rep
  exact ⟨h.sound, h.deallocs, l, hrep.chain, hrep.chain.nodup⟩

theorem Gone.times (h : s.Gone m name) : s.Deallocs name 1 := by
  obtain ⟨tm, l, hrep, -⟩ := h.rep
  exact ⟨h.sound, h.deallocs, l, hrep.chain, hrep.chain.nodup⟩

end RightState


/-! ## The callers -/

namespace RightState
variable [TableSizes] {s s' : RightState} {m : MachPort → Option Capability} {name : MachPort}
  {entry : EntryRef} {c : Capability} {port : ℕ}

theorem Held.ipcRightDealloc (h : s.Held m name entry c) (hport : c.object = some port)
    (hdead : (s.ports port).active = false) (hcompat : c.compat = true)
    (htype : c.type = .onlySend ∨ c.type = .onlySendOnce) :
    (s.ipcRightDealloc name entry).2.Gone m name := by
  obtain ⟨hc, h₁⟩ := h.useEntry
  obtain ⟨hchk, hgone, -⟩ := h₁.ipcRightCheck port hdead hcompat
  unfold RightState.ipcRightDealloc
  dsimp only
  rw [hc, hport, getD_some]
  rcases htype with ht | ht
  · rw [ht, if_neg (by decide), if_neg (by decide), if_pos rfl, if_pos hchk, if_pos hcompat]
    exact hgone
  · rw [ht, if_neg (by decide), if_pos rfl, if_pos hchk, if_pos hcompat]
    exact hgone

theorem Held.ipcRightDestroy (h : s.Held m name entry c) (hport : c.object = some port)
    (hdead : (s.ports port).active = false) (htype : c.type = .onlySend ∨ c.type = .onlySendOnce) :
    (s.ipcRightDestroy name entry).2.Gone m name := by
  obtain ⟨hc, h₁⟩ := h.useEntry
  have h₂ := ((h₁.callIf c.marequest (.marequestCancel name)).callIf (c.type = .onlySend)
    (.hashDelete c.object name)).congr (RightState.portRelease _ port) rfl rfl
  have h₃ := (h₂.writeEntry fun c => { c with request := 0, object := none }).deallocEntry rfl
  have hne : c.type ≠ .onlyDeadName ∧ c.type ≠ .onlyPortSet := by
    rcases htype with ht | ht <;> rw [ht] <;> decide
  have hports : ((((s.useEntry name entry).2.callIf c.marequest (.marequestCancel name)).callIf
      (c.type = .onlySend) (.hashDelete c.object name)).ports port).active = false := by
    unfold RightState.callIf
    split_ifs <;> exact hdead
  unfold RightState.ipcRightDestroy
  dsimp only
  rw [hport] at h₃ hports
  rw [hc, if_neg hne.1, if_neg hne.2, hport, getD_some, if_pos hports]
  exact h₃

theorem Held.ipcRightDelta (h : s.Held m name entry c) (hport : c.object = some port)
    (hdead : (s.ports port).active = false) (hcompat : c.compat = true)
    (htype : c.type = .onlySend ∨ c.type = .onlySendOnce) (right : PortRight) (d : ℤ) :
    if (CheckCaller.delta right d).reaches c = true then
      (s.ipcRightDelta name entry right d).2.Gone m name
    else (s.ipcRightDelta name entry right d).2.Held m name entry c := by
  obtain ⟨hc, h₁⟩ := h.useEntry
  obtain ⟨hchk, hgone, -⟩ := h₁.ipcRightCheck port hdead hcompat
  unfold RightState.ipcRightDelta
  dsimp only
  rw [hc, hport, getD_some]
  cases right with
  | portSet =>
    have hset : c.type.portSet = false := by rcases htype with ht | ht <;> rw [ht] <;> rfl
    rw [if_neg (by simp [CheckCaller.reaches])]
    dsimp only
    rw [if_pos hset]
    exact h₁
  | receive =>
    have hrecv : c.type.receive = false := by rcases htype with ht | ht <;> rw [ht] <;> rfl
    rw [if_neg (by simp [CheckCaller.reaches])]
    dsimp only
    rw [if_pos hrecv]
    exact h₁
  | sendOnce =>
    by_cases hreach : (CheckCaller.delta .sendOnce d).reaches c = true
    · obtain ⟨⟨hso, hlow⟩, hhigh⟩ : (c.type.sendOnce = true ∧ -1 ≤ d) ∧ d ≤ 0 := by
        simpa [CheckCaller.reaches] using hreach
      rw [if_pos hreach]
      dsimp only
      rw [if_neg (by rw [hso]; simp), if_neg (by omega), if_pos hchk, if_pos hcompat]
      exact hgone
    · rw [if_neg hreach]
      dsimp only
      by_cases hso : c.type.sendOnce = false
      · rw [if_pos hso]
        exact h₁
      · rw [if_neg hso, if_pos]
        · exact h₁
        · by_contra hd
          refine hreach ?_
          simp only [CheckCaller.reaches, Bool.and_eq_true, decide_eq_true_eq]
          exact ⟨⟨by simpa using hso, by omega⟩, by omega⟩
  | deadName =>
    have hrights : c.type.sendRights = true := by rcases htype with ht | ht <;> rw [ht] <;> rfl
    rw [if_pos (by simp [CheckCaller.reaches])]
    dsimp only
    rw [if_pos hrights, if_neg (by rw [hchk]; simp), if_pos hcompat]
    exact hgone
  | send =>
    by_cases hreach : (CheckCaller.delta .send d).reaches c = true
    · obtain ⟨⟨hsend, hunder⟩, hover⟩ : (c.type.send = true ∧ urefsUnderflow c.urefs d = false) ∧
          urefsOverflow (c.urefs + 1) d = false := by
        simpa [CheckCaller.reaches] using hreach
      rw [if_pos hreach]
      dsimp only
      rw [if_neg (by rw [hsend]; simp), if_neg (by rw [hunder]; simp), if_neg (by rw [hover]; simp),
        if_pos hchk, if_pos hcompat]
      exact hgone
    · rw [if_neg hreach]
      dsimp only
      by_cases hsend : c.type.send = false
      · rw [if_pos hsend]
        exact h₁
      · by_cases hunder : urefsUnderflow c.urefs d = true
        · rw [if_neg hsend, if_pos hunder]
          exact h₁
        · rw [if_neg hsend, if_neg hunder, if_pos]
          · exact h₁
          · by_contra hover
            exact hreach (by simp_all [CheckCaller.reaches])

end RightState


namespace RightState
variable [TableSizes] {s s' : RightState} {m : MachPort → Option Capability} {name : MachPort}
  {entry : EntryRef} {c : Capability} {port : ℕ}

theorem Held.lookupEntry (h : s.Held m name entry c) : (s.lookupEntry name).2.Held m name entry c := by
  obtain ⟨tm, l, hrep, hcont, href⟩ := h.rep
  obtain ⟨tree, hs, htree⟩ := hrep.lookup_state name
  refine ⟨h.sound, h.deallocs, tm, l, ?_⟩
  rw [show (s.lookupEntry name).2.space = (s.space.lookup name).2 from rfl, hs]
  exact ⟨hrep.reshape htree, hcont, href⟩

theorem Held.ipcRightCopyin (h : s.Held m name entry c) (hport : c.object = some port)
    (hdead : (s.ports port).active = false) (hcompat : c.compat = true)
    (htype : c.type = .onlySend ∨ c.type = .onlySendOnce) (msgtName : MsgTypeName) (deadok : Bool) :
    if (CheckCaller.objectCopyin msgtName).reaches c = true then
      (s.ipcRightCopyin name entry msgtName deadok).1.kr = .invalidName ∧
        (s.ipcRightCopyin name entry msgtName deadok).2.Gone m name
    else
      (s.ipcRightCopyin name entry msgtName deadok).1.kr = .invalidRight ∧
        (s.ipcRightCopyin name entry msgtName deadok).2.Held m name entry c := by
  obtain ⟨hc, h₁⟩ := h.useEntry
  obtain ⟨hchk, hgone, -⟩ := h₁.ipcRightCheck port hdead hcompat
  have hrecv : c.type.receive = false := by rcases htype with ht | ht <;> rw [ht] <;> rfl
  have hdn : ¬ c.type.deadName = true := by rcases htype with ht | ht <;> rw [ht] <;> decide
  have hrights : ¬ c.type.sendRights = false := by rcases htype with ht | ht <;> rw [ht] <;> decide
  unfold RightState.ipcRightCopyin
  dsimp only
  rw [hc, hport, getD_some]
  cases msgtName with
  | makeSend | makeSendOnce | moveReceive =>
    rw [if_neg (by simp [CheckCaller.reaches])]
    dsimp only
    rw [if_pos hrecv]
    exact ⟨rfl, h₁⟩
  | copySend | moveSend | moveSendOnce =>
    rw [if_pos (by simp [CheckCaller.reaches])]
    dsimp only
    rw [if_neg hdn, if_neg hrights, if_pos hchk, if_pos hcompat]
    exact ⟨rfl, hgone⟩

/-- `ipc_object_copyin` looks at the entry again, also when it is gone. -/
theorem Held.ipcObjectCopyin (h : s.Held m name entry c) (hport : c.object = some port)
    (hdead : (s.ports port).active = false) (hcompat : c.compat = true)
    (htype : c.type = .onlySend ∨ c.type = .onlySendOnce) (msgtName : MsgTypeName)
    (hactive : s.space.isActive = true) (hfound : (s.space.lookup name).1 = some entry) (times : ℕ) :
    (s.ipcObjectCopyin name msgtName).2.2.Deallocs name times ↔
      (CheckCaller.objectCopyin msgtName).reaches c = false ∧ times = 0 := by
  have hlookup : s.ipcRightLookupWrite name = (.ok entry, (s.lookupEntry name).2) := by
    unfold RightState.ipcRightLookupWrite
    rw [if_neg (by rw [hactive]; simp)]
    have hpair : s.lookupEntry name = (some entry, (s.lookupEntry name).2) := Prod.ext hfound rfl
    rw [hpair]
  have hcopyin := h.lookupEntry.ipcRightCopyin hport hdead hcompat htype msgtName true
  unfold RightState.ipcObjectCopyin
  rw [hlookup]
  dsimp only
  by_cases hreach : (CheckCaller.objectCopyin msgtName).reaches c = true
  · rw [if_pos hreach] at hcopyin
    obtain ⟨hkr, hgone⟩ := hcopyin
    rw [if_neg (by rw [hkr]; simp)]
    refine iff_of_false (fun hall => ?_) fun hc => by rw [hreach] at hc; cases hc.1
    refine hgone.not_sound entry false (hall.sound _ ?_)
    split_ifs
    · exact mem_append_left _ (mem_append_right _ (mem_singleton.mpr rfl))
    · exact mem_append_right _ (mem_singleton.mpr rfl)
  · rw [if_neg hreach] at hcopyin
    obtain ⟨hkr, hheld⟩ := hcopyin
    obtain ⟨hc, hheld'⟩ := hheld.useEntry
    have hnone : c.type ≠ .none := by rcases htype with ht | ht <;> rw [ht] <;> decide
    rw [if_neg (by rw [hkr]; simp), hc, if_neg hnone]
    refine ⟨fun hall => ⟨by simpa using hreach, ?_⟩, ?_⟩
    · rw [← hall.deallocs, hheld'.deallocs]
    · rintro ⟨-, rfl⟩
      exact hheld'.times

end RightState

namespace IpcSpace
variable [TableSizes] {s : IpcSpace} {name k : MachPort} {entry : EntryRef}

omit [TableSizes] in
theorem slot_write (entry : EntryRef) (f : Capability → Capability) (i : ℕ) :
    ((s.write f entry).table i).gen = (s.table i).gen ∧
      ((s.write f entry).table i).collision = (s.table i).collision := by
  cases entry with
  | tree => exact ⟨rfl, rfl⟩
  | table j =>
    change (update s.table j _ i).gen = _ ∧ (update s.table j _ i).collision = _
    rcases eq_or_ne i j with rfl | hne
    · rw [update_self]
      exact ⟨rfl, rfl⟩
    · rw [update_of_ne hne]
      exact ⟨rfl, rfl⟩

theorem entryRef_write (f : Capability → Capability) : (s.write f entry).entryRef k = s.entryRef k := by
  have hlevel : (s.write f entry).level = s.level := (write_locked f).level
  have hgen := (slot_write (s := s) entry f k.index).1
  unfold entryRef tableSize
  rw [hlevel, hgen]

theorem migrated_write (f : Capability → Capability) :
    (s.write f (s.entryRef name)).migrated name = s.migrated name := by
  have hcol := (slot_write (s := s) (s.entryRef name) f name.index).2
  unfold IpcSpace.migrated
  dsimp only
  rw [entryRef_write, hcol]
  by_cases hentry : s.entryRef name = .table name.index
  · rw [hentry]
    rfl
  · rw [if_neg fun hc => hentry hc.1, if_neg fun hc => hentry hc.1]

end IpcSpace

namespace RightState
variable [TableSizes] {s : RightState} {m : MachPort → Option Capability} {name nname : MachPort}
  {c c' : Capability} {port : ℕ}

theorem Held.ipcRightRename (h : s.Held m name (s.space.entryRef name) c) (hport : c.object = some port)
    (hdead : (s.ports port).active = false) (hcompat : c.compat = true) (hrequest : c.request ≠ 0)
    (hne : nname ≠ name) (hnew : m nname = some c') (hobject : c'.object = none) :
    (s.ipcRightRename name (s.space.entryRef name) nname (s.space.entryRef nname)).2.Deallocs name 1 ↔
      s.space.migrated name ≠ some nname := by
  obtain ⟨hc, h₁⟩ := h.useEntry
  obtain ⟨hchk, hgone, f, hspace, hf⟩ := h₁.ipcRightCheck port hdead hcompat
  have hrun : (s.ipcRightRename name (s.space.entryRef name) nname (s.space.entryRef nname)).2 =
      ((s.useEntry name (s.space.entryRef name)).2.ipcRightCheck port name
        (s.space.entryRef name)).2.deallocEntry nname (s.space.entryRef nname) := by
    unfold RightState.ipcRightRename
    dsimp only
    rw [hc, if_pos hrequest, hport, getD_some, if_pos ⟨hchk, hcompat⟩]
  rw [hrun]
  generalize ((s.useEntry name (s.space.entryRef name)).2.ipcRightCheck port name
    (s.space.entryRef name)).2 = s' at hgone hspace ⊢
  obtain ⟨tm', l', hrep', hcont'⟩ := hgone.rep
  have hnew' : s'.space.contents tm' l' nname = some c' := by
    rw [hcont', update_of_ne hne, hnew]
  -- where the entry of the new name is after the check
  have hplace : s'.space.entryRef nname = s.space.entryRef nname ↔
      s.space.migrated name ≠ some nname := by
    obtain ⟨tm, l, hrep, -, href⟩ := h.rep
    obtain ⟨tm₁, hrep₁, -, href₁⟩ := hrep.write href f
    have hsame : (s.space.write f (s.space.entryRef name)).entryRef name = s.space.entryRef name :=
      entryRef_write f
    have href₂ := href₁ name _ href
    have hmoved := entryRef_dealloc hrep₁ (by rw [hsame]; exact href₂) hne
    rw [hsame, entryRef_write, migrated_write] at hmoved
    rw [hspace]
    exact hmoved
  constructor
  · intro hall
    obtain ⟨tm, l, hrep, href⟩ := hall.sound ⟨s'.space, nname, s.space.entryRef nname, true⟩
      (mem_append_right _ (mem_singleton.mpr rfl))
    exact hplace.mp (hrep.eq_entryRef href).symm
  · intro hmig
    have heq := hplace.mpr hmig
    have href : s'.space.RefOf tm' l' nname (s.space.entryRef nname) := by
      rw [← heq]
      exact hrep'.refOf_entryRef (by rw [hnew']; simp)
    obtain ⟨tm₂, l₂, hdone⟩ := hrep'.dealloc href hnew' hobject
    refine ⟨fun a ha => ?_, ?_, l₂, hdone.rep.chain, hdone.rep.chain.nodup⟩
    · rcases mem_append.mp ha with ha | ha
      · exact hgone.sound a ha
      · obtain rfl := mem_singleton.mp ha
        exact ⟨tm', l', hrep', href⟩
    · have hd := hgone.deallocs
      unfold RightState.deallocs at hd ⊢
      rw [RightState.deallocEntry, countP_append, hd]
      simp [hne]

end RightState

/-! ## Every caller -/

section
variable [TableSizes] {s : RightState} {m : MachPort → Option Capability} {name : MachPort}
  {c : Capability} {caller : CheckCaller}

theorem PortDied.held (h : PortDied s m name c caller) : s.Held m name (s.space.entryRef name) c := by
  obtain ⟨tm, l, hrep, rfl, -⟩ := h.run.rep
  have hname : s.space.contents tm l name ≠ none := by rw [h.cap]; simp
  refine ⟨fun a ha => ?_, ?_, tm, l, hrep, ?_, hrep.refOf_entryRef hname⟩
  · rw [h.fresh] at ha
    cases ha
  · unfold RightState.deallocs
    rw [h.fresh]
    rfl
  · rw [← h.cap, update_eq_self]

/-- An entry whose port died is freed once and then left alone, except by `ipc_object_copyin` and by a
rename to a name whose entry is moved into the slot that was freed. -/
theorem ipcRightCheck_deallocs (h : PortDied s m name c caller) :
    (caller.run s name).Deallocs name (if caller.reaches c = true then 1 else 0) ↔
      caller.Careful s.space name := by
  have hheld := h.held
  obtain ⟨port, hport, hdead⟩ := h.died
  cases caller with
  | objectCopyin msgtName =>
    rw [CheckCaller.run, hheld.ipcObjectCopyin hport hdead h.compat h.type msgtName h.isActive h.found]
    cases msgtName <;> simp [CheckCaller.reaches, CheckCaller.Careful]
  | rename nname =>
    obtain ⟨hne, c', hnew, -, hobject⟩ := h.newName nname rfl
    exact hheld.ipcRightRename hport hdead h.compat h.request hne hnew hobject
  | dealloc =>
    exact iff_of_true (hheld.ipcRightDealloc hport hdead h.compat h.type).times trivial
  | delta right d =>
    have hdelta := hheld.ipcRightDelta hport hdead h.compat h.type right d
    refine iff_of_true ?_ trivial
    split_ifs at hdelta ⊢
    · exact hdelta.times
    · exact hdelta.times
  | destroy => exact iff_of_true (hheld.ipcRightDestroy hport hdead h.type).times trivial

end


/-- A send right in compat mode for port 0. -/
def compatSend : Capability := ⟨.onlySend, 1, false, true, some 0, 1⟩

/-- A space in which the first slot has the right, after the port died. -/
def diedState : RightState :=
  { space := ((@create tableInit 0).entryGet.elim (@create tableInit 0) fun e => e.2.2).write
      (fun _ => compatSend) (.table 1)
    ports := fun _ => ⟨false, 1, ⊥, none, 0, 0, 0, none, fun _ => none⟩
    accesses := []
    calls := [] }

theorem diedState_portDied (caller : CheckCaller) (h : ∀ nname, caller ≠ .rename nname) :
    @PortDied tableInit diedState (update (update (fun _ => none) (.make 1 0)
      (some .zero)) (.make 1 0) (some compatSend)) (.make 1 0) compatSend caller := by
  have hg : entryGet (@create tableInit 0) = some (.make 1 0, .table 1, _) := rfl
  have hget := @SpaceRun.get tableInit _ _ _ _ _ (@SpaceRun.create tableInit 0 (by decide)) hg
  have hrun := @SpaceRun.write tableInit _ _ (.make 1 0) (fun _ => compatSend) hget (by simp)
  rw [update_self, map_some] at hrun
  exact @PortDied.mk tableInit _ _ _ _ _ hrun rfl rfl (by rw [update_self]) rfl rfl
    (.inl rfl) (by decide) ⟨0, rfl, rfl⟩ fun nname hc => absurd hc (h nname)

/-- The entry is freed twice, and the free list has no end. -/
theorem ipcObjectCopyin_twice : ∃ s m name c,
    @PortDied tableInit s m name c (.objectCopyin .moveSend) ∧
    ((@CheckCaller.run tableInit (.objectCopyin .moveSend) s name).deallocs name = 2 ∧
    ∀ l, ¬ FreeList.Chain
      (fun i => ((@CheckCaller.run tableInit (.objectCopyin .moveSend) s name).space.table i).next)
      ((@CheckCaller.run tableInit (.objectCopyin .moveSend) s name).space.table 0).next l) := by
  refine ⟨diedState, _, _, _, diedState_portDied _ (by simp), by rfl, fun l hl => ?_⟩
  have hhead : ((@CheckCaller.run tableInit (.objectCopyin .moveSend) diedState
      (.make 1 0)).space.table 0).next = 1 := rfl
  rw [hhead] at hl
  cases l with
  | nil => cases hl
  | cons i l =>
    obtain ⟨rfl, -, hrest⟩ := hl
    have hloop : l = 1 :: l := hrest.unique ⟨rfl, one_pos, hrest⟩
    exact absurd (congrArg List.length hloop) (by simp)

theorem ipcRightCheck_deallocs_first :
    (@CheckCaller.run tableInit .dealloc diedState (.make 1 0)).deallocs (.make 1 0) = 1 :=
  @RightState.Deallocs.deallocs tableInit _ _ _
    ((@ipcRightCheck_deallocs tableInit _ _ _ _ _ (diedState_portDied .dealloc (by simp))).mpr trivial)

end MachKernel.Ipc
