import MachKernel.Ipc.Delivery

/-! Senders blocked on a full port, and the slots owed to those that were woken. -/

namespace MachKernel.Ipc
open List

/-- If senders are blocked, each free slot is owed to a sender that was woken and has not run yet. -/
def SlotsOwed (v : SenderView) : Prop :=
  v.active = true → v.msgcount < v.qlimit → v.blocked ≠ [] → v.qlimit - v.msgcount ≤ v.woken.length

instance (v : SenderView) : Decidable (SlotsOwed v) := by unfold SlotsOwed; infer_instance

/-- A woken sender with a circular message gives up a slot that other senders wait for: none of the
other woken senders is in excess of the free slots. -/
def GivesUpSlot (s : MqState) (sd : Sender) : Prop :=
  let v := s.view sd.kmsg.msghRemotePort
  sd.kmsg.circular = true ∧ v.active = true ∧ v.msgcount < v.qlimit ∧ v.blocked ≠ [] ∧
    v.woken.length ≤ v.qlimit - v.msgcount

/-- No woken sender gives up its slot for a circular message, and `ip_msgcount` does not overflow. -/
def PassesOn (s : MqState) (a : MqAction) : Prop :=
  (∀ sd, a = .sendWoken sd → ¬ GivesUpSlot s sd) ∧
    ∀ p, s.Accepts a p → (s.view p).msgcount + 1 < 2 ^ 16

section
variable {s : MqState} {sd : Sender} {p : PortId}

theorem SlotsOwed.intro {v : SenderView}
    (h : v.active = true → v.blocked ≠ [] → v.qlimit ≤ v.msgcount + v.woken.length) : SlotsOwed v := by
  intro ha _ hb
  have := h ha hb
  omega

theorem SlotsOwed.le {v : SenderView} (h : SlotsOwed v) (ha : v.active = true)
    (hb : v.blocked ≠ []) : v.qlimit ≤ v.msgcount + v.woken.length := by
  by_cases hlt : v.msgcount < v.qlimit
  · have := h ha hlt hb
    omega
  · omega

theorem SlotsOwed.erase {v : SenderView} (h : SlotsOwed v) (sd : Sender) :
    SlotsOwed { v with blocked := v.blocked.erase sd } := by
  apply SlotsOwed.intro
  intro ha hb
  apply h.le ha
  intro hnil
  exact hb (by dsimp only; rw [hnil]; rfl)

theorem MqState.qlimit_le_of_not_admits (h : ¬ s.Admits sd) :
    (s.view sd.kmsg.msghRemotePort).qlimit ≤ (s.view sd.kmsg.msghRemotePort).msgcount := by
  unfold Admits at h
  push Not at h
  exact h.1

theorem SlotsOwed.sendLoop (h : SlotsOwed (s.view p))
    (hcount : p = sd.kmsg.msghRemotePort → s.Takes sd → (s.view p).msgcount + 1 < 2 ^ 16) :
    SlotsOwed ((s.sendLoop sd).2.view p) := by
  obtain ⟨hother, htakes, hno⟩ := s.view_sendLoop sd p
  by_cases hp : p = sd.kmsg.msghRemotePort
  · by_cases ht : s.Takes sd
    · rw [htakes hp ht]
      apply SlotsOwed.intro
      intro ha hb
      have hle := h.le ha hb
      have hlt := hcount hp ht
      dsimp only
      omega
    · rcases hno hp ht with heq | ⟨hadmits, heq⟩
      · rwa [heq]
      · rw [heq]
        apply SlotsOwed.intro
        intro _ _
        have hfull := MqState.qlimit_le_of_not_admits hadmits
        dsimp only
        rw [hp]
        omega
  · rwa [hother hp]

theorem SlotsOwed.sendWoken (h : SlotsOwed (s.view p)) (hwoken : sd ∈ s.woken sd.kmsg.msghRemotePort)
    (hgives : ¬ GivesUpSlot s sd)
    (hcount : p = sd.kmsg.msghRemotePort → s.Takes sd → (s.view p).msgcount + 1 < 2 ^ 16) :
    SlotsOwed ((s.sendWoken sd).2.view p) := by
  obtain ⟨hother', hself'⟩ := s.view_unwake sd p
  obtain ⟨hother, htakes, hno⟩ := (s.unwake sd).view_sendLoop sd p
  unfold MqState.sendWoken
  by_cases hp : p = sd.kmsg.msghRemotePort
  · have hlen : ((s.view p).woken.erase sd).length + 1 = (s.view p).woken.length := by
      have hmem : sd ∈ (s.view p).woken := by rw [hp]; exact hwoken
      have hpos := length_pos_of_mem hmem
      rw [length_erase_of_mem hmem]
      omega
    apply SlotsOwed.intro
    by_cases ht : s.Takes sd
    · rw [htakes hp ht, hself' hp]
      intro ha hb
      have hle := h.le ha hb
      have hlt := hcount hp ht
      dsimp only
      omega
    · rcases hno hp ht with heq | ⟨hadmits, heq⟩
      · rw [heq, hself' hp]
        dsimp only
        intro ha hb
        have hle := h.le ha hb
        by_contra hlt
        subst hp
        have hadmits : s.Admits sd := by
          left
          change (s.view _).msgcount < (s.view _).qlimit
          omega
        have hcirc : sd.kmsg.circular = true := by
          by_contra hc
          exact ht ⟨ha, hadmits, by simpa using hc⟩
        exact hgives ⟨hcirc, ha, by omega, hb, by omega⟩
      · rw [heq, hself' hp]
        dsimp only
        intro _ _
        have hfull : (s.view sd.kmsg.msghRemotePort).qlimit ≤
          (s.view sd.kmsg.msghRemotePort).msgcount := MqState.qlimit_le_of_not_admits hadmits
        rw [hp]
        omega
  · rw [hother hp, hother' hp]
    exact h

theorem SlotsOwed.receiveFinish (h : SlotsOwed (s.view p)) (d : Delivery)
    (hpos : s.Finishes (.receiveFinish d) p → 0 < (s.view p).msgcount)
    (hm : (s.view p).msgcount < 2 ^ 16) : SlotsOwed ((s.receiveFinish d).view p) := by
  obtain ⟨hother, hself⟩ := s.view_receiveFinish d p
  by_cases hp : p = d.kmsg.msghRemotePort ∧ (s.ports p).ipActive = true
  · have heq := hself hp.1 hp.2
    dsimp only at heq
    rw [heq]
    apply SlotsOwed.intro
    have hle := h.le hp.2
    have hpos' := hpos hp
    cases hb : (s.view p).blocked with
    | nil =>
      split_ifs <;> simp [hb]
    | cons sd rest =>
      have hle' := hle (by simp [hb])
      split_ifs with hlt
      · simp only [hb, take_succ_cons, take_zero, length_append, length_singleton]
        intro _ _
        omega
      · intro _ _
        dsimp only
        omega
  · rwa [hother hp]

theorem SlotsOwed.setQlimit (h : SlotsOwed (s.view p)) (q : PortId) (qlimit : ℕ) :
    SlotsOwed ((s.ipcPortSetQlimit q qlimit).view p) := by
  obtain ⟨hother, hself⟩ := s.view_setQlimit q qlimit p
  by_cases hp : p = q
  · rw [hself hp]
    apply SlotsOwed.intro
    dsimp only
    intro ha hb
    have hlen : qlimit - (s.view p).qlimit < (s.view p).blocked.length := by
      by_contra hlt
      exact hb (drop_eq_nil_of_le (by omega))
    have hle := h.le ha (by rintro hnil; rw [hnil] at hlen; simp at hlen)
    rw [length_append, length_take]
    omega
  · rwa [hother hp]

theorem SlotsOwed.perform {a : MqAction} (h : ∀ p, SlotsOwed (s.view p)) (hen : s.Enabled a)
    (hpasses : PassesOn s a) (hpos : ∀ p, s.Finishes a p → 0 < (s.view p).msgcount)
    (hm : ∀ p, (s.view p).msgcount < 2 ^ 16) (p : PortId) : SlotsOwed ((s.perform a).view p) := by
  obtain ⟨hgives, hcount⟩ := hpasses
  cases a with
  | send sd =>
    change SlotsOwed ((s.ipcMqueueSend sd).2.view p)
    unfold MqState.ipcMqueueSend
    split_ifs with hkernel
    · exact h p
    · refine (h p).sendLoop fun hp ht => hcount p ⟨hp, ?_, ht⟩
      rw [hp]
      simpa using hkernel
  | sendWoken sd =>
    exact (h p).sendWoken hen (hgives sd rfl) fun hp ht => hcount p ⟨hp, ht⟩
  | sendTimedOut sd =>
    obtain ⟨hother, hself⟩ := s.view_unblock sd p
    have howed : SlotsOwed ((s.unblock sd).view p) := by
      by_cases hp : p = sd.kmsg.msghRemotePort
      · rw [hself hp]
        exact (h p).erase sd
      · rw [hother hp]
        exact h p
    have hsame : ((s.unblock sd).view p).msgcount = (s.view p).msgcount := by
      by_cases hp : p = sd.kmsg.msghRemotePort
      · rw [hself hp]
      · rw [hother hp]
    refine howed.sendLoop fun hp ht => ?_
    rw [hsame]
    exact hcount p ⟨hp, (s.takes_unblock sd).mp ht⟩
  | sendInterrupted sd =>
    obtain ⟨hother, hself⟩ := s.view_unblock sd p
    change SlotsOwed ((s.unblock sd).view p)
    by_cases hp : p = sd.kmsg.msghRemotePort
    · rw [hself hp]
      exact (h p).erase sd
    · rw [hother hp]
      exact h p
  | receive o r timeout =>
    have hsame := (SameSenders.receive s o r timeout).view p
    exact hsame ▸ h p
  | receiveTimedOut o r =>
    have hunwait : Moved s (s.unwait o r) := .setQueue s o _
    have hsame := (hunwait.trans (Moved.receiveLoop _ o r (some 0))).sameSenders.view p
    exact hsame ▸ h p
  | receiveInterrupted o r => exact h p
  | receiveFinish d => exact (h p).receiveFinish d (hpos p) (hm p)
  | psetAdd ps q =>
    have hsame := (SameSenders.psetAdd s ps q).view p
    exact hsame ▸ h p
  | psetRemove ps q =>
    have hsame := (SameSenders.psetRemove s ps q).view p
    exact hsame ▸ h p
  | psetMove q nset =>
    have hsame := (SameSenders.psetMove s q nset).view p
    exact hsame ▸ h p
  | psetDestroy ps => exact h p
  | setQlimit q qlimit => exact (h p).setQlimit q qlimit
  | destroy q =>
    obtain ⟨hother, hself⟩ := s.view_destroy q p
    change SlotsOwed (((s.ipcPortClearReceiver q).ipcPortDestroy q).view p)
    by_cases hp : p = q
    · intro ha
      rw [(hself hp).1] at ha
      cases ha
    · rw [hother hp]
      exact h p

end

/-- A step that passes the slots on. -/
def PassingStep (s s' : MqState) : Prop := ∃ a, s.Enabled a ∧ PassesOn s a ∧ s' = s.perform a

/-- As long as it does not overflow, `ip_msgcount` is the number of messages outstanding. -/
theorem MqOk.passingRun {s₀ s : MqState} (hfresh : s₀.Fresh)
    (hrun : Relation.ReflTransGen PassingStep s₀ s) :
    ∃ c, MqOk s noPend c ∧ (∀ p, (s.view p).msgcount = c p ∧ c p < 2 ^ 16) ∧
      ∀ p, SlotsOwed (s.view p) := by
  induction hrun with
  | refl =>
    refine ⟨_, hfresh.ok, fun p => ⟨(hfresh.ports p).2.2.1, by norm_num⟩, fun p _ _ hb => ?_⟩
    exact absurd (hfresh.ports p).2.2.2.2 hb
  | @tail t t' _ hstep ih =>
    obtain ⟨c, hok, hcount, howed⟩ := ih
    obtain ⟨a, hen, hpasses, rfl⟩ := hstep
    obtain ⟨c', hok', haccepts, hfinishes, hsame⟩ := hok.perform hen
    refine ⟨c', hok', fun p => ?_, SlotsOwed.perform howed hen hpasses (fun p hf => ?_) fun p => ?_⟩
    · obtain ⟨haccepts', hfinishes', hsame'⟩ := t.msgcount_perform a p
      obtain ⟨hc, hlt⟩ := hcount p
      by_cases ha : t.Accepts a p
      · have hroom := hpasses.2 p ha
        rw [haccepts' ha, haccepts p ha, hc]
        omega
      · by_cases hf : t.Finishes a p
        · have hone := hfinishes p hf
          rw [hfinishes' hf, hc]
          omega
        · rw [hsame' ha hf, hsame p ha hf]
          exact ⟨hc, hlt⟩
    · have hone := hfinishes p hf
      rw [(hcount p).1]
      omega
    · rw [(hcount p).1]
      exact (hcount p).2

/-- In every run in which no slot is given up, each free slot of a port with blocked senders is owed to
a woken sender; and a slot that is given up is owed to nobody. -/
theorem slots_owed {s₀ s : MqState} (hfresh : s₀.Fresh)
    (hrun : Relation.ReflTransGen PassingStep s₀ s) : (∀ p, SlotsOwed (s.view p)) ∧
    ∀ sd, s.Enabled (.sendWoken sd) → GivesUpSlot s sd →
      ¬ SlotsOwed ((s.perform (.sendWoken sd)).view sd.kmsg.msghRemotePort) := by
  obtain ⟨c, -, -, howed⟩ := MqOk.passingRun hfresh hrun
  refine ⟨howed, fun sd hen hgives => ?_⟩
  obtain ⟨hcirc, ha, hlt, hb, hle⟩ := hgives
  have hno : ¬ (s.unwake sd).Takes sd := by
    rintro ⟨-, -, hc⟩
    rw [hcirc] at hc
    cases hc
  have hmem : sd ∈ (s.view sd.kmsg.msghRemotePort).woken := hen
  have hpos := length_pos_of_mem hmem
  have hself := (s.view_unwake sd _).2 rfl
  intro hafter
  rcases ((s.unwake sd).view_sendLoop sd _).2.2 rfl hno with heq | ⟨hadmits, -⟩
  · have hperform : (s.perform (.sendWoken sd)).view sd.kmsg.msghRemotePort =
        { s.view sd.kmsg.msghRemotePort with
          woken := (s.view sd.kmsg.msghRemotePort).woken.erase sd } := heq.trans hself
    rw [hperform] at hafter
    have hslots := hafter ha hlt hb
    rw [length_erase_of_mem hmem] at hslots
    dsimp only at hslots
    omega
  · have hfull : (s.view sd.kmsg.msghRemotePort).qlimit ≤
      (s.view sd.kmsg.msghRemotePort).msgcount := MqState.qlimit_le_of_not_admits hadmits
    omega

/-- Port 1 may hold one message, and does; the next sender has a circular message, and another sender
is behind it. A receive then wakes the first of the two. -/
def onePlace : List MqAction :=
  [.setQlimit 1 1, .send ⟨10, smallKmsg 100 false, false, none⟩,
    .send ⟨11, smallKmsg 101 true, false, none⟩, .send ⟨12, smallKmsg 102 false, false, none⟩,
    .receive (.port 1) ⟨20, 64⟩ none,
    .receiveFinish ⟨⟨20, 64⟩, .port 1, smallKmsg 100 false, 0⟩]

def onePlaceWoken : MqState := onePlace.foldl MqState.perform freshPorts

/-- The actions can be done one after the other, and none of them gives up a slot. -/
def PassingRun : MqState → List MqAction → Prop
  | _, [] => True
  | s, a :: l => s.Enabled a ∧ PassesOn s a ∧ PassingRun (s.perform a) l

theorem PassingRun.run {s : MqState} {l : List MqAction} (h : PassingRun s l) :
    Relation.ReflTransGen PassingStep s (l.foldl MqState.perform s) := by
  induction l generalizing s with
  | nil => exact .refl
  | cons a l ih => exact .head ⟨a, h.1, h.2.1, rfl⟩ (ih h.2.2)

theorem onePlaceWoken_run : Relation.ReflTransGen PassingStep freshPorts onePlaceWoken := by
  apply PassingRun.run
  refine ⟨⟨rfl, by decide⟩, ⟨nofun, fun _ h => False.elim h⟩, ?_⟩
  refine ⟨trivial, ⟨nofun, ?_⟩, ?_⟩
  · rintro p ⟨rfl, -⟩
    decide
  refine ⟨trivial, ⟨nofun, ?_⟩, ?_⟩
  · rintro p ⟨rfl, -⟩
    decide
  refine ⟨trivial, ⟨nofun, ?_⟩, ?_⟩
  · rintro p ⟨rfl, -⟩
    decide
  refine ⟨trivial, ⟨nofun, fun _ h => False.elim h⟩, ?_⟩
  refine ⟨?_, ⟨nofun, fun _ h => False.elim h⟩, trivial⟩
  show _ ∈ _
  decide

/-- The woken sender gives up its slot, though the other one waits for it. -/
theorem slots_owed_onePlaceWoken :
    SlotsOwed (onePlaceWoken.view 1) ∧ (onePlaceWoken.view 1).blocked.length = 1 ∧
      ¬ SlotsOwed ((onePlaceWoken.perform
        (.sendWoken ⟨11, smallKmsg 101 true, false, none⟩)).view 1) := by
  obtain ⟨howed, hgiven⟩ := slots_owed freshPorts_fresh onePlaceWoken_run
  refine ⟨howed 1, by decide, hgiven ⟨11, smallKmsg 101 true, false, none⟩ ?_ ?_⟩
  · show _ ∈ _
    decide
  · unfold GivesUpSlot
    decide

/-- Afterwards the port is empty, a sender is blocked on it, and no woken sender is left. -/
theorem slot_lost : ∃ s, Relation.ReflTransGen MqStep freshPorts s ∧ (s.view 1).active = true ∧
      (s.view 1).msgcount = 0 ∧ (s.view 1).qlimit = 1 ∧ (s.view 1).blocked ≠ [] ∧
      (s.view 1).woken = [] ∧ ¬ SlotsOwed (s.view 1) := by
  refine ⟨onePlaceWoken.perform (.sendWoken ⟨11, smallKmsg 101 true, false, none⟩), ?_, by decide,
    by decide, by decide, by decide, by decide, by decide⟩
  have hrun : Relation.ReflTransGen MqStep freshPorts onePlaceWoken :=
    onePlaceWoken_run.lift id fun _ _ ⟨a, hen, _, heq⟩ => ⟨a, hen, heq⟩
  refine .tail hrun ⟨.sendWoken ⟨11, smallKmsg 101 true, false, none⟩, ?_, rfl⟩
  show _ ∈ _
  decide

end MachKernel.Ipc
