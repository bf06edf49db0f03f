import MachKernel.Ipc.MqueueOk

/-! Messages of a port are delivered once, in order, and to a receiver of the port or of its set. -/

namespace MachKernel.Ipc
open Function List

/-- No thread waits for a port that is in a set. -/
def Idle (s : MqState) : Prop :=
  ∀ p, (s.ports p).ipPset ≠ none → (s.queues (.port p)).imqThreads = []

/-- Messages are handed to receivers that waited in the queue of their port, or to `who`. -/
structure Handed (s s' : MqState) (who : Option (Owner × Receiver)) : Prop where
  threads : ∀ o, ∀ r ∈ (s'.queues o).imqThreads, r ∈ (s.queues o).imqThreads ∨ who = some (o, r)
  delivered : ∀ p, ∃ new, s'.delivered p = s.delivered p ++ new ∧ ∀ d ∈ new,
    d.kmsg.msghRemotePort = p ∧ d.owner = s'.ownerOf p ∧
    (d.receiver ∈ (s.queues d.owner).imqThreads ∨ who = some (d.owner, d.receiver))

open Handed

/-- The thread that receives in an action, and from which queue. -/
def MqAction.receiving : MqAction → Option (Owner × Receiver)
  | .receive o r _ => some (o, r)
  | .receiveTimedOut o r => some (o, r)
  | _ => none

section
variable {s s' s'' : MqState} {o o' : Owner} {p p' : PortId} {k : Kmsg} {q : Mqueue}
  {who : Option (Owner × Receiver)} {c : PortId → ℕ}

theorem Handed.same (hqueues : s'.queues = s.queues) (hdelivered : s'.delivered = s.delivered) :
    Handed s s' none := by
  refine ⟨fun o r hr => ?_, fun p => ⟨[], ?_, fun d hd => ?_⟩⟩
  · rw [hqueues] at hr
    exact .inl hr
  · rw [hdelivered, append_nil]
  · cases hd

theorem SameQueues.handed (h : SameQueues s s') : Handed s s' none := .same h.queues h.delivered

theorem Handed.mono (h : Handed s s' none) (who : Option (Owner × Receiver)) : Handed s s' who := by
  refine ⟨fun o r hr => ?_, fun p => ?_⟩
  · rcases h.threads o r hr with hr | hr
    · exact .inl hr
    · cases hr
  · obtain ⟨new, hnew, hall⟩ := h.delivered p
    refine ⟨new, hnew, fun d hd => ?_⟩
    obtain ⟨hp, ho, hr | hr⟩ := hall d hd
    · exact ⟨hp, ho, .inl hr⟩
    · cases hr

theorem Handed.trans (h : Handed s s' none) (h' : Handed s' s'' who)
    (hown : ∀ p, s'.delivered p = s.delivered p ∨ s''.ownerOf p = s'.ownerOf p) :
    Handed s s'' who := by
  have hback : ∀ o, ∀ r ∈ (s'.queues o).imqThreads, r ∈ (s.queues o).imqThreads := by
    intro o r hr
    rcases h.threads o r hr with hr | hr
    · exact hr
    · cases hr
  constructor
  · intro o r hr
    exact (h'.threads o r hr).imp_left (hback o r)
  · intro p
    obtain ⟨new, hnew, hall⟩ := h.delivered p
    obtain ⟨new', hnew', hall'⟩ := h'.delivered p
    refine ⟨new ++ new', by rw [hnew', hnew, append_assoc], fun d hd => ?_⟩
    rcases mem_append.mp hd with hd | hd
    · obtain ⟨hp, ho, hr | hr⟩ := hall d hd
      · rcases hown p with hsame | hsame
        · rw [hsame] at hnew
          have hnil : new = [] := append_cancel_left (hnew.symm.trans (append_nil _).symm)
          rw [hnil] at hd
          cases hd
        · exact ⟨hp, ho.trans hsame.symm, .inl hr⟩
      · cases hr
    · obtain ⟨hp, ho, hr⟩ := hall' d hd
      exact ⟨hp, ho, hr.imp_left (hback _ _)⟩

theorem Handed.setThreads {threads : List Receiver}
    (hthreads : ∀ r ∈ threads, r ∈ (s.queues o).imqThreads ∨ who = some (o, r)) (l : List Kmsg) :
    Handed s (s.setQueue o ⟨l, threads⟩) who := by
  refine ⟨fun o' r hr => ?_, fun p => ⟨[], (append_nil _).symm, fun d hd => by cases hd⟩⟩
  by_cases ho : o' = o
  · rw [ho, MqState.queues_setQueue_self] at hr
    rw [ho]
    exact hthreads r hr
  · rw [MqState.queues_setQueue_of_ne ho] at hr
    exact .inl hr

/-- A message of a port is given to a receiver that waited in the queue of the port, or to `who`. -/
theorem Handed.deliver {threads : List Receiver} {r : Receiver} (l : List Kmsg)
    (hthreads : ∀ r ∈ threads, r ∈ (s.queues o).imqThreads) (hown : s.ownerOf k.msghRemotePort = o)
    (hr : r ∈ (s.queues o).imqThreads ∨ who = some (o, r)) :
    Handed s ((s.setQueue o ⟨l, threads⟩).deliver r o k) who := by
  have hmoved : Moved s ((s.setQueue o ⟨l, threads⟩).deliver r o k) :=
    (Moved.setQueue s o _).trans (Moved.deliver _ r o k)
  constructor
  · intro o' r' hr'
    change r' ∈ ((s.setQueue o ⟨l, threads⟩).queues o').imqThreads at hr'
    by_cases ho : o' = o
    · rw [ho, MqState.queues_setQueue_self] at hr'
      exact .inl (ho ▸ hthreads r' hr')
    · rw [MqState.queues_setQueue_of_ne ho] at hr'
      exact .inl hr'
  · intro p
    by_cases hp : p = k.msghRemotePort
    · subst hp
      refine ⟨_, MqState.delivered_deliver_self, fun d hd => ?_⟩
      rw [mem_singleton.mp hd]
      refine ⟨rfl, ?_, hr⟩
      rw [hmoved.ownerOf, hown]
    · exact ⟨[], by rw [MqState.delivered_deliver_of_ne hp, append_nil]; rfl,
        fun d hd => by cases hd⟩

theorem findReceiver_subset (size : ℕ) (l : List Receiver) : ∀ r ∈ (findReceiver size l).2, r ∈ l := by
  induction l with
  | nil => exact fun _ h => h
  | cons r rest ih =>
    unfold findReceiver
    split_ifs
    · exact fun r' hr' => mem_cons_of_mem r hr'
    · exact fun r' hr' => mem_cons_of_mem r (ih r' hr')

theorem findReceiver_mem {size : ℕ} {l rest : List Receiver} {r : Receiver}
    (h : findReceiver size l = (some r, rest)) : r ∈ l := by
  rcases findReceiver_cases size l with ⟨r', hr', rest', heq⟩ | heq
  · rw [heq] at h
    cases h
    exact hr'
  · rw [heq] at h
    cases h

theorem Handed.putKmsg (hown : s.ownerOf k.msghRemotePort = o) : Handed s (s.putKmsg o k) none := by
  have hsubset := findReceiver_subset k.msghSize (s.queues o).imqThreads
  unfold MqState.putKmsg
  cases hf : findReceiver k.msghSize (s.queues o).imqThreads with
  | mk found rest =>
    rw [hf] at hsubset
    cases found with
    | none => exact .setThreads (fun r hr => .inl (hsubset r hr)) _
    | some r => exact .deliver _ hsubset hown (.inl (findReceiver_mem hf))

theorem Handed.puts {l : List Kmsg} (hown : s.ownerOf p = o) (hl : ∀ k ∈ l, k.msghRemotePort = p) :
    Handed s (l.foldl (fun t k => t.putKmsg o k) s) none := by
  induction l generalizing s with
  | nil => exact .same rfl rfl
  | cons k l ih =>
    have hmoved := Moved.putKmsg s o k
    have hrest := Moved.puts (s.putKmsg o k) o l
    refine (putKmsg (by rw [hl k mem_cons_self, hown])).trans
      (ih (by rw [hmoved.ownerOf, hown]) fun k' hk' => hl k' (mem_cons_of_mem k hk'))
      fun p' => .inr (hrest.ownerOf p')

theorem MqState.delivered_puts_of_idle {l : List Kmsg} (hidle : (s.queues o).imqThreads = []) :
    (l.foldl (fun t k => t.putKmsg o k) s).delivered = s.delivered := by
  induction l generalizing s with
  | nil => rfl
  | cons k l ih =>
    have hput : s.putKmsg o k = s.setQueue o ⟨(s.queues o).imqMessages ++ [k], []⟩ := by
      unfold putKmsg
      rw [hidle]
      rfl
    rw [foldl_cons, hput, ih]
    · rfl
    · rw [queues_setQueue_self]

theorem Moved.ipPset (h : Moved s s') (p : PortId) : (s'.ports p).ipPset = (s.ports p).ipPset := by
  obtain ⟨n, hn⟩ := h.ports p
  rw [hn]

theorem Handed.move (hne : o' ≠ o) (hown : s.ownerOf p = o) :
    Handed s (s.ipcMqueueMove o o' p) none := by
  unfold MqState.ipcMqueueMove
  rw [MqState.moveLoop_eq hne _ [] rfl fun _ hk => by cases hk]
  refine (setThreads (fun r hr => .inl hr) _).trans (puts hown ?_)
    fun p' => .inr ((Moved.puts _ o _).ownerOf p')
  intro k hk
  simpa [messagesTo] using (mem_filter.mp hk).2

theorem Handed.psetAdd (s : MqState) (ps : PsetId) (p : PortId) :
    Handed s (s.ipcPsetAdd ps p) none := by
  let s1 := s.modifyPort p fun port => { port with ipPset := some ps }
  have hown : s1.ownerOf p = .pset ps :=
    MqState.ownerOf_some (by rw [MqState.ports_modifyPort_self])
  have hmove : Handed s1 (s1.ipcMqueueMove (.pset ps) (.port p) p) none := .move (by simp) hown
  have hchanged : Handed (s1.ipcMqueueMove (.pset ps) (.port p) p) (s.ipcPsetAdd ps p) none :=
    .setThreads (fun r hr => by cases hr) _
  have hstart : Handed s s1 none := .same rfl rfl
  exact hstart.trans (hmove.trans hchanged fun _ => .inr rfl) fun _ => .inl rfl

theorem Handed.psetRemove (s : MqState) (ps : PsetId) (p : PortId) :
    Handed s (s.ipcPsetRemove ps p) none := by
  let s1 := s.modifyPort p fun port => { port with ipPset := none }
  have hown : s1.ownerOf p = .port p :=
    MqState.ownerOf_none (by rw [MqState.ports_modifyPort_self])
  have hmove : Handed s1 (s1.ipcMqueueMove (.port p) (.pset ps) p) none := .move (by simp) hown
  have hstart : Handed s s1 none := .same rfl rfl
  exact hstart.trans hmove fun _ => .inl rfl

theorem MqState.delivered_psetRemove (ps : PsetId) (hidle : (s.queues (.port p)).imqThreads = []) :
    (s.ipcPsetRemove ps p).delivered = s.delivered := by
  let s1 := s.modifyPort p fun port => { port with ipPset := none }
  let l := (s.queues (.pset ps)).imqMessages
  let s2 := s1.setQueue (.pset ps) ⟨messagesNotTo p l, (s.queues (.pset ps)).imqThreads⟩
  have hmove : s.ipcPsetRemove ps p = (messagesTo p l).foldl (fun t k => t.putKmsg (.port p) k) s2 :=
    moveLoop_eq (s := s1) (by simp) l [] rfl fun _ hk => by cases hk
  have hother : s2.queues (.port p) = s.queues (.port p) := queues_setQueue_of_ne (by simp)
  rw [hmove]
  exact delivered_puts_of_idle (by rw [hother, hidle])

theorem MqState.ipPset_psetRemove_of_ne (ps : PsetId) (h : p' ≠ p) :
    ((s.ipcPsetRemove ps p).ports p').ipPset = (s.ports p').ipPset := by
  rw [ipcPsetRemove, ipcMqueueMove, (Moved.moveLoop _ _ p _ _).ipPset, ports_modifyPort_of_ne _ h]

theorem MqState.ipPset_psetAdd_of_ne (ps : PsetId) (h : p' ≠ p) :
    ((s.ipcPsetAdd ps p).ports p').ipPset = (s.ports p').ipPset := by
  have hchanged : ((s.ipcPsetAdd ps p).ports p').ipPset =
      (((s.modifyPort p fun port => { port with ipPset := some ps }).ipcMqueueMove (.pset ps) (.port p)
        p).ports p').ipPset := rfl
  rw [hchanged, ipcMqueueMove, (Moved.moveLoop _ _ p _ _).ipPset, ports_modifyPort_of_ne _ h]

theorem Idle.of (hidle : Idle s) (h : Handed s s' none)
    (hpset : ∀ p, (s'.ports p).ipPset ≠ none → (s.ports p).ipPset ≠ none) : Idle s' := by
  intro p hp
  rw [eq_nil_iff_forall_not_mem]
  intro r hr
  rcases h.threads _ r hr with hr | hr
  · rw [hidle p (hpset p hp)] at hr
    cases hr
  · cases hr

theorem Idle.psetAdd (hidle : Idle s) (ps : PsetId) (p : PortId) : Idle (s.ipcPsetAdd ps p) := by
  intro p' hp'
  by_cases h : p' = p
  · rw [h, MqState.ipcPsetAdd, MqState.ipcMqueueChanged, MqState.queues_setQueue_self]
  · rw [MqState.ipPset_psetAdd_of_ne ps h] at hp'
    rw [eq_nil_iff_forall_not_mem]
    intro r hr
    rcases (Handed.psetAdd s ps p).threads _ r hr with hr | hr
    · rw [hidle p' hp'] at hr
      cases hr
    · cases hr

theorem Idle.psetRemove (hidle : Idle s) (ps : PsetId) (p : PortId) :
    Idle (s.ipcPsetRemove ps p) := by
  apply hidle.of (.psetRemove s ps p)
  intro p' hp'
  by_cases h : p' = p
  · rw [h, MqState.ipPset_psetRemove] at hp'
    exact absurd rfl hp'
  · rwa [MqState.ipPset_psetRemove_of_ne ps h] at hp'

theorem Handed.psetMove (hidle : Idle s) (p : PortId) (nset : Option PsetId) :
    Handed s (s.ipcPsetMove p nset).2 none ∧ Idle (s.ipcPsetMove p nset).2 := by
  have hsame : Handed s s none ∧ Idle s := ⟨.same rfl rfl, hidle⟩
  unfold MqState.ipcPsetMove
  split
  · exact hsame
  · exact ⟨.psetAdd s _ p, hidle.psetAdd _ p⟩
  · exact ⟨.psetRemove s _ p, hidle.psetRemove _ p⟩
  · rename_i os ns hp
    split_ifs
    · exact hsame
    · have hnone := MqState.delivered_psetRemove os (hidle p (by simp [hp]))
      refine ⟨(psetRemove s os p).trans (.psetAdd _ ns p) fun p' => .inl (by rw [hnone]), ?_⟩
      exact (hidle.psetRemove os p).psetAdd ns p

theorem Handed.receiveLoop (hok : MqOk s noPend c) (hidle : Idle s)
    (ho : ∀ p, o = .port p → (s.ports p).ipPset = none) (r : Receiver) (timeout : Option ℕ) :
    Handed s (s.receiveLoop o r timeout).2 (some (o, r)) ∧ Idle (s.receiveLoop o r timeout).2 := by
  have hhanded : Handed s (s.receiveLoop o r timeout).2 (some (o, r)) := by
    unfold MqState.receiveLoop
    cases hq : (s.queues o).imqMessages with
    | nil =>
      dsimp only
      split_ifs
      · exact (same rfl rfl).mono _
      · apply setThreads
        intro r' hr'
        rcases mem_append.mp hr' with hr' | hr'
        · exact .inl hr'
        · rw [mem_singleton.mp hr']
          exact .inr rfl
    | cons k rest =>
      dsimp only
      split_ifs
      · exact (same rfl rfl).mono _
      · have hk : k ∈ (s.queues o).imqMessages := by rw [hq]; exact mem_cons_self
        exact .deliver rest (fun _ hr => hr) (hok.place o k hk).2 (.inr rfl)
  refine ⟨hhanded, fun p hp => ?_⟩
  rw [(Moved.receiveLoop s o r timeout).ipPset] at hp
  rw [eq_nil_iff_forall_not_mem]
  intro r' hr'
  rcases hhanded.threads _ r' hr' with hr' | hr'
  · rw [hidle p hp] at hr'
    cases hr'
  · simp only [Option.some.injEq, Prod.mk.injEq] at hr'
    exact hp (ho p hr'.1)

theorem Handed.receive (hok : MqOk s noPend c) (hidle : Idle s) (o : Owner) (r : Receiver)
    (timeout : Option ℕ) : Handed s (s.ipcMqueueReceive o r timeout).2 (some (o, r)) ∧
      Idle (s.ipcMqueueReceive o r timeout).2 := by
  have hsame : Handed s s (some (o, r)) ∧ Idle s := ⟨(same rfl rfl).mono _, hidle⟩
  cases o with
  | pset ps =>
    unfold MqState.ipcMqueueReceive
    dsimp only
    split_ifs
    · exact hsame
    · exact receiveLoop hok hidle (fun p hp => by cases hp) r timeout
  | port p =>
    unfold MqState.ipcMqueueReceive
    dsimp only
    split_ifs with hactive
    · exact hsame
    · have hactive' : (s.ports p).ipActive = true := by simpa using hactive
      cases hp : (s.ports p).ipPset with
      | none =>
        refine receiveLoop hok hidle (fun p' hp' => ?_) r timeout
        cases hp'
        exact hp
      | some ps =>
        dsimp only
        split_ifs
        · exact hsame
        · have hloop := receiveLoop (o := .port p) (hok.psetRemove hactive' hp)
            (hidle.psetRemove ps p) (fun p' hp' => by cases hp'; exact MqState.ipPset_psetRemove ps)
            r timeout
          have hnone := MqState.delivered_psetRemove ps (hidle p (by simp [hp]))
          exact ⟨(psetRemove s ps p).trans hloop.1 fun p' => .inl (by rw [hnone]), hloop.2⟩

theorem Handed.accept (s : MqState) (k : Kmsg) :
    Handed s (s.accept k) none ∧ ∀ p, ((s.accept k).ports p).ipPset = (s.ports p).ipPset := by
  let s1 : MqState := s.modifyPort k.msghRemotePort
    fun port => { port with ipMsgcount := (port.ipMsgcount + 1) % 2 ^ 16 }
  let accepted := update s.accepted k.msghRemotePort (s.accepted k.msghRemotePort ++ [k])
  let s2 : MqState := { s1 with accepted := accepted }
  have hsame : SameQueues s s1 := .modifyPort s _ _ ⟨rfl, rfl, rfl⟩
  have hpset : ∀ p, (s2.ports p).ipPset = (s.ports p).ipPset := fun p => (hsame.ports p).2.1
  have hstart : Handed s s2 none := .same rfl rfl
  have hput : Handed s2 (s.accept k) none := .putKmsg (MqState.ownerOf_congr (hpset _))
  refine ⟨hstart.trans hput fun _ => .inl rfl, fun p => ?_⟩
  have hmoved : Moved s2 (s.accept k) := .putKmsg s2 _ k
  rw [hmoved.ipPset, hpset]

theorem Handed.sendLoop (hidle : Idle s) (sd : Sender) :
    Handed s (s.sendLoop sd).2 none ∧ Idle (s.sendLoop sd).2 := by
  rcases s.sendLoop_cases sd with ⟨-, heq⟩ | ⟨-, heq⟩ | ⟨-, -, -, heq⟩
  · rw [heq]
    exact ⟨.same rfl rfl, hidle⟩
  · obtain ⟨hhanded, hpset⟩ := accept s sd.kmsg
    rw [heq]
    exact ⟨hhanded, hidle.of hhanded fun p hp => by rwa [hpset] at hp⟩
  · have hsame := SameQueues.modifyPort s sd.kmsg.msghRemotePort
      (fun port => { port with ipBlocked := port.ipBlocked ++ [sd] }) ⟨rfl, rfl, rfl⟩
    rw [heq]
    exact ⟨hsame.handed, hidle.of hsame.handed fun p hp => by rwa [(hsame.ports p).2.1] at hp⟩

theorem SameQueues.handed_idle (hsame : SameQueues s s') (hidle : Idle s) :
    Handed s s' none ∧ Idle s' :=
  ⟨hsame.handed, hidle.of hsame.handed fun p hp => by rwa [(hsame.ports p).2.1] at hp⟩

theorem Handed.finish (hidle : Idle s) (d : Delivery) :
    Handed s (s.receiveFinish d) none ∧ Idle (s.receiveFinish d) := by
  let held := update s.held d.kmsg.msghRemotePort ((s.held d.kmsg.msghRemotePort).erase d)
  let s1 : MqState := { s with held := held }
  have hstart : Handed s s1 none ∧ Idle s1 := ⟨.same rfl rfl, hidle⟩
  have hcount := SameQueues.modifyPort s1 d.kmsg.msghRemotePort
    (fun port => { port with ipMsgcount := (port.ipMsgcount + (2 ^ 16 - 1)) % 2 ^ 16 })
    ⟨rfl, rfl, rfl⟩
  have hrest : ∀ {t}, SameQueues s1 t → Handed s t none ∧ Idle t := fun h =>
    ⟨hstart.1.trans h.handed fun _ => .inl rfl, (h.handed_idle hidle).2⟩
  unfold MqState.receiveFinish
  dsimp only
  split_ifs
  · exact hrest (hcount.trans (.wakeSender _ _))
  · exact hrest hcount
  · exact hstart

theorem Handed.destroy (hidle : Idle s) (p : PortId) :
    Handed s ((s.ipcPortClearReceiver p).ipcPortDestroy p) none ∧
      Idle ((s.ipcPortClearReceiver p).ipcPortDestroy p) := by
  obtain ⟨s0, hclear, hhanded, hdelivered, hidle0⟩ : ∃ s0 : MqState, s.ipcPortClearReceiver p =
      s0.modifyPort p (fun port => { port with ipSeqno := 0 }) ∧ Handed s s0 none ∧
      s0.delivered = s.delivered ∧ Idle s0 := by
    unfold MqState.ipcPortClearReceiver
    cases hp : (s.ports p).ipPset with
    | none =>
      have hchanged : Handed s (s.ipcMqueueChanged (.port p)) none :=
        .setThreads (fun r hr => by cases hr) _
      exact ⟨_, rfl, hchanged, rfl, hidle.of hchanged fun _ h => h⟩
    | some ps =>
      exact ⟨_, rfl, .psetRemove s ps p, MqState.delivered_psetRemove ps (hidle p (by simp [hp])),
        hidle.psetRemove ps p⟩
  rw [hclear]
  let s1 := s0.modifyPort p fun port => { port with ipSeqno := 0 }
  let s2 := (fun t => t.wakeSender p)^[(s1.ports p).ipBlocked.length] s1
  let s3 := s2.modifyPort p fun port => { port with ipActive := false }
  have hpset : ∀ p', (s3.ports p').ipPset = (s0.ports p').ipPset := by
    intro p'
    by_cases h : p' = p
    · rw [h, MqState.ports_modifyPort_self]
      change (s2.ports p).ipPset = _
      rw [((SameQueues.wakeSenders s1 p _).ports p).2.1, MqState.ports_modifyPort_self]
    · rw [MqState.ports_modifyPort_of_ne _ h, ((SameQueues.wakeSenders s1 p _).ports p').2.1,
        MqState.ports_modifyPort_of_ne _ h]
  have hwake := SameQueues.wakeSenders s1 p (s1.ports p).ipBlocked.length
  have hdead : Handed s0 s3 none := .same hwake.queues hwake.delivered
  have hempty : Handed s3 (s1.ipcPortDestroy p) none := .setThreads (fun r hr => .inl hr) _
  have hall := hdead.trans hempty fun _ => .inl (congrFun hwake.delivered _)
  refine ⟨hhanded.trans hall fun _ => .inl (congrFun hdelivered _), hidle0.of hall ?_⟩
  intro p' hp'
  rwa [← hpset]

theorem Handed.perform (hok : MqOk s noPend c) (hidle : Idle s) {a : MqAction} (hen : s.Enabled a) :
    Handed s (s.perform a) a.receiving ∧ Idle (s.perform a) := by
  cases a with
  | send sd =>
    change Handed s (s.ipcMqueueSend sd).2 none ∧ Idle (s.ipcMqueueSend sd).2
    unfold MqState.ipcMqueueSend
    split_ifs
    · exact ⟨.same rfl rfl, hidle⟩
    · exact sendLoop hidle sd
  | sendWoken sd =>
    have hstart : SameQueues s (s.unwake sd) := ⟨fun _ => ⟨rfl, rfl, rfl⟩, rfl, rfl, rfl, rfl⟩
    obtain ⟨hhanded, hidle'⟩ := hstart.handed_idle hidle
    obtain ⟨hsend, hidle''⟩ := sendLoop hidle' sd
    exact ⟨hhanded.trans hsend fun _ => .inl rfl, hidle''⟩
  | sendTimedOut sd =>
    obtain ⟨hhanded, hidle'⟩ := (SameQueues.unblock s sd).handed_idle hidle
    obtain ⟨hsend, hidle''⟩ := sendLoop hidle' { sd with timeout := some 0 }
    exact ⟨hhanded.trans hsend fun _ => .inl rfl, hidle''⟩
  | sendInterrupted sd => exact (SameQueues.unblock s sd).handed_idle hidle
  | receive o r timeout => exact receive hok hidle o r timeout
  | receiveTimedOut o r =>
    have hunwait : Handed s (s.unwait o r) none :=
      .setThreads (fun r' hr' => .inl (mem_of_mem_erase hr')) _
    have hnone : ∀ p, o = .port p → ((s.unwait o r).ports p).ipPset = none := by
      rintro p rfl
      by_contra hp
      have hr : r ∈ (s.queues (.port p)).imqThreads := hen
      rw [hidle p hp] at hr
      cases hr
    obtain ⟨hloop, hidle'⟩ := receiveLoop (hok.unwait o r) (hidle.of hunwait fun _ h => h)
      hnone r (some 0)
    exact ⟨hunwait.trans hloop fun _ => .inl rfl, hidle'⟩
  | receiveInterrupted o r =>
    have hunwait : Handed s (s.unwait o r) none :=
      .setThreads (fun r' hr' => .inl (mem_of_mem_erase hr')) _
    exact ⟨hunwait, hidle.of hunwait fun _ h => h⟩
  | receiveFinish d => exact finish hidle d
  | psetAdd ps p => exact ⟨.psetAdd s ps p, hidle.psetAdd ps p⟩
  | psetRemove ps p => exact ⟨.psetRemove s ps p, hidle.psetRemove ps p⟩
  | psetMove p nset => exact psetMove hidle p nset
  | psetDestroy ps =>
    let s1 : MqState := { s with ipsActive := update s.ipsActive ps false }
    have hstart : Handed s s1 none := .same rfl rfl
    have hchanged : Handed s1 (s1.ipcMqueueChanged (.pset ps)) none :=
      .setThreads (fun r hr => by cases hr) _
    have hall := hstart.trans hchanged fun _ => .inl rfl
    exact ⟨hall, hidle.of hall fun _ h => h⟩
  | setQlimit p qlimit =>
    have hsame : SameQueues s (s.ipcPortSetQlimit p qlimit) := by
      unfold MqState.ipcPortSetQlimit
      exact (SameQueues.wakeSenders s p _).trans (.modifyPort _ p _ ⟨rfl, rfl, rfl⟩)
    exact hsame.handed_idle hidle
  | destroy p => exact destroy hidle p

end

theorem MqState.Fresh.queued {s : MqState} (h : s.Fresh) (p : PortId) : s.queued p = [] := by
  unfold MqState.queued
  rw [h.queues]
  rfl

theorem MqState.Fresh.ok {s : MqState} (h : s.Fresh) : MqOk s noPend fun _ => 0 := by
  refine ⟨?_, ?_, ?_, ?_, ?_, ?_, ?_⟩
  · intro o k hk
    rw [h.queues] at hk
    cases hk
  · intro o hne
    rw [h.queues] at hne
    exact absurd rfl hne
  · intro p _
    rw [h.accepted, h.delivered, h.queued]
    rfl
  · intro p
    rw [h.delivered]
    exact nil_prefix
  · intro p
    rw [h.delivered]
    rfl
  · intro p _
    rw [h.delivered, (h.ports p).2.1]
    rfl
  · intro p _
    rw [h.held, h.queued]
    rfl

theorem MqState.Fresh.idle {s : MqState} (h : s.Fresh) : Idle s := fun p hp =>
  absurd (h.ports p).1 hp

theorem MqOk.run {s₀ s : MqState} (hfresh : s₀.Fresh) (hrun : Relation.ReflTransGen MqStep s₀ s) :
    ∃ c, MqOk s noPend c ∧ Idle s ∧ ∀ p, (s.ports p).ipMsgcount = c p % 2 ^ 16 := by
  induction hrun with
  | refl => exact ⟨_, hfresh.ok, hfresh.idle, fun p => (hfresh.ports p).2.2.1⟩
  | @tail t t' _ hstep ih =>
    obtain ⟨c, hok, hidle, hcount⟩ := ih
    obtain ⟨a, hen, rfl⟩ := hstep
    obtain ⟨c', hok', haccepts, hfinishes, hsame⟩ := hok.perform hen
    refine ⟨c', hok', (Handed.perform hok hidle hen).2, fun p => ?_⟩
    obtain ⟨haccepts', hfinishes', hsame'⟩ := t.msgcount_perform a p
    have hview : (t.view p).msgcount = c p % 2 ^ 16 := hcount p
    change ((t.perform a).view p).msgcount = c' p % 2 ^ 16
    by_cases ha : t.Accepts a p
    · rw [haccepts' ha, haccepts p ha, hview]
      omega
    · by_cases hf : t.Finishes a p
      · have hc := hfinishes p hf
        rw [hfinishes' hf, hview]
        omega
      · rw [hsame' ha hf, hsame p ha hf, hview]

/-- In every run: what is delivered of the messages of a port is what was accepted, in that order, and
numbered in that order; `ip_msgcount` counts in 16 bits what is queued or still with a receiver; no
thread waits where a message is queued; and a message is handed to a receiver of its port, or of
the set of its port. -/
theorem messages_delivered {s₀ s : MqState} (hfresh : s₀.Fresh)
    (hrun : Relation.ReflTransGen MqStep s₀ s) : (∀ p, (s.ports p).ipActive = true →
      s.accepted p = (s.delivered p).map Delivery.kmsg ++ s.queued p) ∧
    (∀ p, (s.delivered p).map Delivery.kmsg <+: s.accepted p) ∧
    (∀ p, (s.delivered p).map Delivery.seqno =
      (List.range (s.delivered p).length).map (· % 2 ^ 32)) ∧ (∀ p, (s.ports p).ipActive = true →
      (s.ports p).ipMsgcount = ((s.queued p).length + (s.held p).length) % 2 ^ 16) ∧
    (∀ o, ∀ k ∈ (s.queues o).imqMessages, s.ownerOf k.msghRemotePort = o ∧
      ∀ r ∈ (s.queues o).imqThreads, ¬ k.msghSize ≤ r.ithMsize) ∧
    (∀ a, s.Enabled a → ∀ p, ∃ new, (s.perform a).delivered p = s.delivered p ++ new ∧ ∀ d ∈ new,
      d.kmsg.msghRemotePort = p ∧ d.owner = (s.perform a).ownerOf p ∧
      (d.receiver ∈ (s.queues d.owner).imqThreads ∨ a.receiving = some (d.owner, d.receiver))) := by
  obtain ⟨c, hok, hidle, hcount⟩ := MqOk.run hfresh hrun
  refine ⟨?_, hok.history, hok.numbered, ?_, ?_, ?_⟩
  · intro p hp
    rw [hok.order p hp, noPend, append_nil]
  · intro p hp
    have htotal := hok.count p hp
    rw [noPend, append_nil] at htotal
    rw [htotal]
    exact hcount p
  · intro o k hk
    refine ⟨(hok.place o k hk).2, fun r hr => ?_⟩
    rw [hok.exclusive o (ne_nil_of_mem hk)] at hr
    cases hr
  · intro a hen
    exact (Handed.perform hok hidle hen).1.delivered

def freshPorts : MqState where
  ports := fun _ => ⟨true, false, none, 0, 0, machPortQlimitDefault, []⟩
  ipsActive := fun _ => true
  queues := fun _ => ⟨[], []⟩
  woken := fun _ => []
  held := fun _ => []
  accepted := fun _ => []
  delivered := fun _ => []

theorem freshPorts_fresh : freshPorts.Fresh :=
  ⟨fun _ => ⟨rfl, rfl, rfl, rfl, rfl⟩, fun _ => rfl, fun _ => rfl, fun _ => rfl, fun _ => rfl, fun
    _ => rfl⟩

/-- A small message to port 1, with or without the circular bit. -/
def smallKmsg (address : ℕ) (circular : Bool) : Kmsg := ⟨address, 1, 32, circular, false⟩

/-- A thread waits for port 1, and then a message comes. -/
def handedOver : MqState :=
  (freshPorts.perform (.receive (.port 1) ⟨20, 64⟩ none)).perform
    (.send ⟨10, smallKmsg 100 false, false, none⟩)

theorem handedOver_run : Relation.ReflTransGen MqStep freshPorts handedOver :=
  .tail (.single ⟨.receive (.port 1) ⟨20, 64⟩ none, trivial, rfl⟩)
    ⟨.send ⟨10, smallKmsg 100 false, false, none⟩, trivial, rfl⟩

theorem messages_delivered_handedOver :
    (handedOver.delivered 1).map Delivery.kmsg = [smallKmsg 100 false] ∧
    handedOver.accepted 1 = (handedOver.delivered 1).map Delivery.kmsg ++ handedOver.queued 1 :=
  ⟨by decide, (messages_delivered freshPorts_fresh handedOver_run).1 1 (by decide)⟩

/-- The message counts though it is not queued, as its receiver has not run yet. -/
theorem msgcount_ne_queued :
    ∃ s, Relation.ReflTransGen MqStep freshPorts s ∧ (s.ports 1).ipActive = true ∧
      s.queued 1 = [] ∧ (s.ports 1).ipMsgcount ≠ (s.queued 1).length :=
  ⟨handedOver, handedOver_run, by decide, by decide, by decide⟩

end MachKernel.Ipc
