import MachKernel.Ipc.Mqueue

/-! The invariant of the message queues, which every action keeps, and what an action does to the
part of a port that senders look at. -/

namespace MachKernel.Ipc
open Function List MqState

/-- The messages of a port, in order. -/
def messagesTo (p : PortId) (l : List Kmsg) : List Kmsg := l.filter fun k => k.msghRemotePort = p

/-- The messages of other ports. -/
def messagesNotTo (p : PortId) (l : List Kmsg) : List Kmsg := l.filter fun k => k.msghRemotePort ≠ p

/-- The messages queued for a port. -/
def MqState.queued (s : MqState) (p : PortId) : List Kmsg :=
  messagesTo p (s.queues (s.ownerOf p)).imqMessages

/-- The invariant of the queues, while the messages `pend p` of each port `p` are between two queues.
There are `c p` messages of `p` that are queued or with a receiver. -/
structure MqOk (s : MqState) (pend : PortId → List Kmsg) (c : PortId → ℕ) : Prop where
  place : ∀ o, ∀ k ∈ (s.queues o).imqMessages,
    (s.ports k.msghRemotePort).ipActive = true ∧ s.ownerOf k.msghRemotePort = o
  exclusive : ∀ o, (s.queues o).imqMessages ≠ [] → (s.queues o).imqThreads = []
  order : ∀ p, (s.ports p).ipActive = true →
    s.accepted p = (s.delivered p).map Delivery.kmsg ++ (s.queued p ++ pend p)
  history : ∀ p, (s.delivered p).map Delivery.kmsg <+: s.accepted p
  numbered : ∀ p, (s.delivered p).map Delivery.seqno =
    (List.range (s.delivered p).length).map (· % 2 ^ 32)
  next : ∀ p, (s.ports p).ipActive = true → (s.ports p).ipSeqno = (s.delivered p).length % 2 ^ 32
  count : ∀ p, (s.ports p).ipActive = true → (s.queued p ++ pend p).length + (s.held p).length = c p

/-- Only messages are moved, and receivers woken. -/
structure Moved (s s' : MqState) : Prop where
  ports : ∀ p, ∃ n, s'.ports p = { s.ports p with ipSeqno := n }
  ipsActive : s'.ipsActive = s.ipsActive
  woken : s'.woken = s.woken
  accepted : s'.accepted = s.accepted

open Moved

section
variable {s s' s'' : MqState} {pend pend' : PortId → List Kmsg} {c : PortId → ℕ} {o o' : Owner}
  {p p' : PortId} {k : Kmsg} {q : Mqueue}

@[simp] theorem messagesTo_nil (p : PortId) : messagesTo p [] = [] := rfl

theorem messagesTo_append (p : PortId) (l l' : List Kmsg) :
    messagesTo p (l ++ l') = messagesTo p l ++ messagesTo p l' := filter_append _ _

variable {l : List Kmsg} {r : Receiver} {ps : PsetId} {a : MqAction}

theorem messagesTo_cons_self (h : k.msghRemotePort = p) :
    messagesTo p (k :: l) = k :: messagesTo p l := filter_cons_of_pos (by simpa)

theorem messagesTo_cons_of_ne (h : k.msghRemotePort ≠ p) :
    messagesTo p (k :: l) = messagesTo p l := filter_cons_of_neg (by simpa)

theorem messagesTo_eq_nil (h : ∀ k ∈ l, k.msghRemotePort ≠ p) : messagesTo p l = [] := by
  unfold messagesTo
  rw [filter_eq_nil_iff]
  simpa using h

theorem messagesNotTo_cons_self (h : k.msghRemotePort = p) :
    messagesNotTo p (k :: l) = messagesNotTo p l := filter_cons_of_neg (by simpa)

theorem messagesNotTo_cons_of_ne (h : k.msghRemotePort ≠ p) :
    messagesNotTo p (k :: l) = k :: messagesNotTo p l := filter_cons_of_pos (by simpa)

theorem mem_messagesNotTo : k ∈ messagesNotTo p l ↔ k ∈ l ∧ k.msghRemotePort ≠ p := by
  unfold messagesNotTo
  simp

theorem messagesTo_messagesNotTo_self (p : PortId) (l : List Kmsg) :
    messagesTo p (messagesNotTo p l) = [] :=
  messagesTo_eq_nil fun _ hk => (mem_messagesNotTo.mp hk).2

theorem messagesTo_messagesNotTo_of_ne (h : p' ≠ p) (l : List Kmsg) :
    messagesTo p' (messagesNotTo p l) = messagesTo p' l := by
  unfold messagesTo messagesNotTo
  rw [filter_filter]
  apply filter_congr
  intro k _
  by_cases hk : k.msghRemotePort = p' <;> simp [hk, h]

/-! Of the parts of a state after an update. -/

theorem MqState.ports_modifyPort_self (f : IpcPort → IpcPort) :
    (s.modifyPort p f).ports p = f (s.ports p) := update_self _ _ _

theorem MqState.ports_modifyPort_of_ne (f : IpcPort → IpcPort) (h : p' ≠ p) :
    (s.modifyPort p f).ports p' = s.ports p' := update_of_ne h _ _

theorem MqState.ports_deliver_self : (s.deliver r o k).ports k.msghRemotePort =
    { s.ports k.msghRemotePort with
      ipSeqno := ((s.ports k.msghRemotePort).ipSeqno + 1) % 2 ^ 32 } := update_self _ _ _

theorem MqState.ports_deliver_of_ne (h : p ≠ k.msghRemotePort) :
    (s.deliver r o k).ports p = s.ports p := update_of_ne h _ _

theorem MqState.delivered_deliver_self :
    (s.deliver r o k).delivered k.msghRemotePort = s.delivered k.msghRemotePort ++
      [⟨r, o, k, (s.ports k.msghRemotePort).ipSeqno⟩] := update_self _ _ _

theorem MqState.delivered_deliver_of_ne (h : p ≠ k.msghRemotePort) :
    (s.deliver r o k).delivered p = s.delivered p := update_of_ne h _ _

theorem MqState.held_deliver_self :
    (s.deliver r o k).held k.msghRemotePort = s.held k.msghRemotePort ++
      [⟨r, o, k, (s.ports k.msghRemotePort).ipSeqno⟩] := update_self _ _ _

theorem MqState.held_deliver_of_ne (h : p ≠ k.msghRemotePort) :
    (s.deliver r o k).held p = s.held p := update_of_ne h _ _

theorem MqState.queues_setQueue_self : (s.setQueue o q).queues o = q := update_self _ _ _

theorem MqState.queues_setQueue_of_ne (h : o' ≠ o) : (s.setQueue o q).queues o' = s.queues o' :=
  update_of_ne h _ _

theorem MqState.ownerOf_congr (h : (s'.ports p).ipPset = (s.ports p).ipPset) :
    s'.ownerOf p = s.ownerOf p := by
  unfold ownerOf
  rw [h]

theorem MqState.ownerOf_eq_port : s.ownerOf p' = .port p → p' = p := by
  unfold ownerOf
  cases (s.ports p').ipPset <;> simp

theorem MqState.ownerOf_none (h : (s.ports p).ipPset = none) : s.ownerOf p = .port p := by
  unfold ownerOf
  rw [h]

theorem MqState.ownerOf_some (h : (s.ports p).ipPset = some ps) : s.ownerOf p = .pset ps := by
  unfold ownerOf
  rw [h]

theorem MqState.queued_setQueue_self (h : s.ownerOf p = o) :
    (s.setQueue o q).queued p = messagesTo p q.imqMessages := by
  have hown : (s.setQueue o q).ownerOf p = o := h
  rw [queued, hown, queues_setQueue_self]

theorem MqState.queued_setQueue_of_ne (h : s.ownerOf p ≠ o) :
    (s.setQueue o q).queued p = s.queued p := by
  have hown : (s.setQueue o q).ownerOf p = s.ownerOf p := rfl
  rw [queued, hown, queues_setQueue_of_ne h, queued]

/-! Of what only moves messages. -/

theorem Moved.refl : Moved s s := ⟨fun p => ⟨(s.ports p).ipSeqno, rfl⟩, rfl, rfl, rfl⟩

theorem Moved.trans (h : Moved s s') (h' : Moved s' s'') : Moved s s'' := by
  refine ⟨fun p => ?_, h'.ipsActive.trans h.ipsActive, h'.woken.trans h.woken,
    h'.accepted.trans h.accepted⟩
  obtain ⟨n, hn⟩ := h.ports p
  obtain ⟨n', hn'⟩ := h'.ports p
  exact ⟨n', by rw [hn', hn]⟩

theorem Moved.ownerOf (h : Moved s s') (p : PortId) : s'.ownerOf p = s.ownerOf p := by
  obtain ⟨n, hn⟩ := h.ports p
  exact ownerOf_congr (by rw [hn])

theorem Moved.active (h : Moved s s') (p : PortId) :
    (s'.ports p).ipActive = (s.ports p).ipActive := by
  obtain ⟨n, hn⟩ := h.ports p
  rw [hn]

theorem Moved.setQueue (s : MqState) (o : Owner) (q : Mqueue) : Moved s (s.setQueue o q) :=
  ⟨fun p => ⟨(s.ports p).ipSeqno, rfl⟩, rfl, rfl, rfl⟩

theorem Moved.deliver (s : MqState) (r : Receiver) (o : Owner) (k : Kmsg) :
    Moved s (s.deliver r o k) := by
  refine ⟨fun p => ?_, rfl, rfl, rfl⟩
  by_cases h : p = k.msghRemotePort
  · rw [h, ports_deliver_self]
    exact ⟨_, rfl⟩
  · rw [ports_deliver_of_ne h]
    exact ⟨(s.ports p).ipSeqno, rfl⟩

theorem findReceiver_cases (size : ℕ) (l : List Receiver) :
    (∃ r ∈ l, ∃ rest, findReceiver size l = (some r, rest)) ∨ findReceiver size l = (none, []) := by
  induction l with
  | nil => exact .inr rfl
  | cons r rest ih =>
    by_cases hle : size ≤ r.ithMsize
    · exact .inl ⟨r, mem_cons_self, rest, if_pos hle⟩
    · rw [findReceiver, if_neg hle]
      rcases ih with ⟨r', hr', rest', heq⟩ | heq
      · exact .inl ⟨r', mem_cons_of_mem r hr', rest', heq⟩
      · exact .inr heq

theorem MqState.putKmsg_cases (hex : (s.queues o).imqMessages ≠ [] → (s.queues o).imqThreads = []) :
    (∃ r ∈ (s.queues o).imqThreads, ∃ rest, (s.queues o).imqMessages = [] ∧
      s.putKmsg o k = (s.setQueue o ⟨[], rest⟩).deliver r o k) ∨
    s.putKmsg o k = s.setQueue o ⟨(s.queues o).imqMessages ++ [k], []⟩ := by
  unfold putKmsg
  rcases findReceiver_cases k.msghSize (s.queues o).imqThreads with ⟨r, hr, rest, heq⟩ | heq
  · have hempty : (s.queues o).imqMessages = [] := by
      by_contra hne
      rw [hex hne] at hr
      cases hr
    refine .inl ⟨r, hr, rest, hempty, ?_⟩
    rw [heq, hempty]
  · right
    rw [heq]

theorem MqOk.setQueue (hok : MqOk s pend c) (hplace : ∀ k ∈ q.imqMessages,
      (s.ports k.msghRemotePort).ipActive = true ∧ s.ownerOf k.msghRemotePort = o)
    (hex : q.imqMessages ≠ [] → q.imqThreads = []) (hsame : ∀ p, (s.ports p).ipActive = true →
      (s.setQueue o q).queued p ++ pend' p = s.queued p ++ pend p) :
    MqOk (s.setQueue o q) pend' c := by
  refine ⟨?_, ?_, ?_, hok.history, hok.numbered, hok.next, ?_⟩
  · intro o' k hk
    by_cases heq : o' = o
    · rw [heq, queues_setQueue_self] at hk
      rw [heq]
      exact hplace k hk
    · rw [queues_setQueue_of_ne heq] at hk
      exact hok.place o' k hk
  · intro o' hne
    by_cases heq : o' = o
    · rw [heq, queues_setQueue_self] at hne ⊢
      exact hex hne
    · rw [queues_setQueue_of_ne heq] at hne ⊢
      exact hok.exclusive o' hne
  · intro p hp
    rw [hsame p hp]
    exact hok.order p hp
  · intro p hp
    rw [hsame p hp]
    exact hok.count p hp

theorem MqOk.deliver (hok : MqOk s pend c) (hactive : (s.ports k.msghRemotePort).ipActive = true)
    (hnext : s.queued k.msghRemotePort ++ pend k.msghRemotePort =
      k :: ((s.setQueue o q).queued k.msghRemotePort ++ pend' k.msghRemotePort))
    (hother : ∀ p, p ≠ k.msghRemotePort → (s.ports p).ipActive = true →
      (s.setQueue o q).queued p ++ pend' p = s.queued p ++ pend p)
    (hplace : ∀ k ∈ q.imqMessages, k ∈ (s.queues o).imqMessages)
    (hex : q.imqMessages ≠ [] → q.imqThreads = []) :
    MqOk ((s.setQueue o q).deliver r o k) pend' c := by
  have hmoved : Moved s ((s.setQueue o q).deliver r o k) :=
    (Moved.setQueue s o q).trans (Moved.deliver _ r o k)
  have hqueued : ∀ p, ((s.setQueue o q).deliver r o k).queued p = (s.setQueue o q).queued p := by
    intro p
    unfold queued
    rw [(Moved.deliver (s.setQueue o q) r o k).ownerOf]
    rfl
  have hqueues : ((s.setQueue o q).deliver r o k).queues = (s.setQueue o q).queues := rfl
  refine ⟨?_, ?_, ?_, ?_, ?_, ?_, ?_⟩
  · intro o' k' hk'
    rw [hmoved.active, hmoved.ownerOf]
    rw [hqueues] at hk'
    by_cases heq : o' = o
    · rw [heq, queues_setQueue_self] at hk'
      rw [heq]
      exact hok.place o k' (hplace k' hk')
    · rw [queues_setQueue_of_ne heq] at hk'
      exact hok.place o' k' hk'
  · intro o' hne
    rw [hqueues] at hne ⊢
    by_cases heq : o' = o
    · rw [heq, queues_setQueue_self] at hne ⊢
      exact hex hne
    · rw [queues_setQueue_of_ne heq] at hne ⊢
      exact hok.exclusive o' hne
  · intro p hp
    rw [hmoved.active] at hp
    rw [hmoved.accepted, hqueued]
    by_cases heq : p = k.msghRemotePort
    · subst heq
      rw [delivered_deliver_self, map_append, hok.order _ hp, hnext]
      simp [MqState.setQueue]
    · rw [delivered_deliver_of_ne heq, hother p heq hp]
      exact hok.order p hp
  · intro p
    rw [hmoved.accepted]
    by_cases heq : p = k.msghRemotePort
    · subst heq
      rw [delivered_deliver_self, map_append, hok.order _ hactive, hnext]
      exact ⟨_, append_assoc _ _ _⟩
    · rw [delivered_deliver_of_ne heq]
      exact hok.history p
  · intro p
    by_cases heq : p = k.msghRemotePort
    · subst heq
      have hnum := hok.numbered k.msghRemotePort
      have hseq := hok.next _ hactive
      rw [delivered_deliver_self, map_append, length_append, length_singleton,
        range_succ, map_append]
      change (s.delivered _).map _ ++ _ = _
      rw [hnum]
      simp [MqState.setQueue, hseq]
    · rw [delivered_deliver_of_ne heq]
      exact hok.numbered p
  · intro p hp
    rw [hmoved.active] at hp
    by_cases heq : p = k.msghRemotePort
    · subst heq
      have hseq := hok.next _ hactive
      rw [ports_deliver_self, delivered_deliver_self, length_append]
      change ((s.ports _).ipSeqno + 1) % 2 ^ 32 = ((s.delivered _).length + 1) % 2 ^ 32
      rw [hseq]
      omega
    · rw [ports_deliver_of_ne heq, delivered_deliver_of_ne heq]
      exact hok.next p hp
  · intro p hp
    rw [hmoved.active] at hp
    rw [hqueued]
    by_cases heq : p = k.msghRemotePort
    · subst heq
      have hcount := hok.count _ hp
      rw [hnext] at hcount
      have hheld : (s.setQueue o q).held = s.held := rfl
      rw [held_deliver_self, hheld]
      simp only [length_append, length_cons, length_nil] at hcount ⊢
      omega
    · rw [held_deliver_of_ne heq, hother p heq hp]
      exact hok.count p hp

theorem MqOk.putKmsg (hok : MqOk s pend c) {rest : List Kmsg}
    (hactive : (s.ports k.msghRemotePort).ipActive = true)
    (hpend : pend k.msghRemotePort = k :: rest) (hown : s.ownerOf k.msghRemotePort = o) :
    MqOk (s.putKmsg o k) (update pend k.msghRemotePort rest) c := by
  rcases putKmsg_cases (hok.exclusive o) with ⟨r, -, threads, hempty, heq⟩ | heq
  · rw [heq]
    have hqueued : ∀ p, (s.setQueue o ⟨[], threads⟩).queued p = s.queued p := by
      intro p
      by_cases hp : s.ownerOf p = o
      · rw [queued_setQueue_self hp, queued, hp, hempty]
      · exact queued_setQueue_of_ne hp
    apply hok.deliver hactive
    · rw [hqueued, update_self, hpend, queued, hown, hempty]
      rfl
    · intro p hp _
      rw [hqueued, update_of_ne hp]
    · intro k' hk'
      cases hk'
    · intro hne
      exact absurd rfl hne
  · rw [heq]
    apply hok.setQueue
    · intro k' hk'
      rcases mem_append.mp hk' with hk' | hk'
      · exact hok.place o k' hk'
      · rw [mem_singleton.mp hk']
        exact ⟨hactive, hown⟩
    · intro _
      rfl
    · intro p _
      by_cases hp : p = k.msghRemotePort
      · subst hp
        rw [queued_setQueue_self hown, update_self, messagesTo_append,
          messagesTo_cons_self rfl, hpend, queued, hown]
        simp
      · rw [update_of_ne hp]
        by_cases hpo : s.ownerOf p = o
        · rw [queued_setQueue_self hpo, messagesTo_append,
            messagesTo_cons_of_ne (Ne.symm hp), messagesTo_nil, append_nil, queued, hpo]
        · rw [queued_setQueue_of_ne hpo]

theorem Moved.putKmsg (s : MqState) (o : Owner) (k : Kmsg) : Moved s (s.putKmsg o k) := by
  unfold MqState.putKmsg
  split
  · exact (setQueue s o _).trans (deliver _ _ o k)
  · exact setQueue s o _

theorem MqState.putKmsg_setQueue (h : o' ≠ o) :
    (s.setQueue o' q).putKmsg o k = (s.putKmsg o k).setQueue o' q := by
  have hq : (s.setQueue o' q).queues o = s.queues o := queues_setQueue_of_ne (Ne.symm h)
  unfold putKmsg
  rw [hq]
  cases hf : findReceiver k.msghSize (s.queues o).imqThreads with
  | mk found rest =>
    cases found with
    | none =>
      simp only [setQueue]
      rw [update_comm (Ne.symm h)]
    | some r =>
      simp only [setQueue, deliver, modifyPort]
      rw [update_comm (Ne.symm h)]

theorem MqState.queues_putKmsg_of_ne (h : o' ≠ o) : (s.putKmsg o k).queues o' = s.queues o' := by
  unfold putKmsg
  split
  · exact queues_setQueue_of_ne h
  · exact queues_setQueue_of_ne h

theorem MqState.setQueue_setQueue (q' : Mqueue) :
    (s.setQueue o q).setQueue o q' = s.setQueue o q' := by
  unfold setQueue
  rw [update_idem]

theorem MqState.setQueue_eq_self (h : s.queues o = q) : s.setQueue o q = s := by
  unfold setQueue
  rw [← h, update_eq_self]

theorem MqState.moveLoop_eq (h : o' ≠ o) (rest kept : List Kmsg)
    (hmessages : (s.queues o').imqMessages = kept ++ rest)
    (hkept : ∀ k ∈ kept, k.msghRemotePort ≠ p) :
    moveLoop o o' p rest s = (messagesTo p rest).foldl (fun t k => t.putKmsg o k)
      (s.setQueue o' ⟨kept ++ messagesNotTo p rest, (s.queues o').imqThreads⟩) := by
  induction rest generalizing s kept with
  | nil =>
    symm
    apply setQueue_eq_self
    rw [append_nil] at hmessages
    simp only [messagesNotTo, filter_nil, append_nil, ← hmessages]
  | cons k rest ih =>
    unfold moveLoop
    by_cases hk : k.msghRemotePort = p
    · have hrm : (s.rmqueue o' k).queues o' = ⟨kept ++ rest, (s.queues o').imqThreads⟩ := by
        have hnot : k ∉ kept := fun hmem => hkept k hmem hk
        rw [rmqueue, queues_setQueue_self, hmessages, erase_append_right _ hnot,
          erase_cons_head]
      have hput : ((s.rmqueue o' k).putKmsg o k).queues o' =
          ⟨kept ++ rest, (s.queues o').imqThreads⟩ := (queues_putKmsg_of_ne h).trans hrm
      rw [if_neg (not_not.mpr hk), ih kept (by rw [hput]) hkept, messagesTo_cons_self hk,
        messagesNotTo_cons_self hk, foldl_cons, hput, putKmsg_setQueue h, rmqueue,
        putKmsg_setQueue h, setQueue_setQueue]
    · rw [if_pos hk, ih (kept ++ [k]) (by simp [hmessages]), messagesTo_cons_of_ne hk,
        messagesNotTo_cons_of_ne hk, append_assoc, singleton_append]
      intro k' hk'
      rcases mem_append.mp hk' with hk' | hk'
      · exact hkept k' hk'
      · rwa [mem_singleton.mp hk']

theorem Moved.puts (s : MqState) (o : Owner) (l : List Kmsg) :
    Moved s (l.foldl (fun t k => t.putKmsg o k) s) := by
  induction l generalizing s with
  | nil => exact .refl
  | cons k l ih => exact (putKmsg s o k).trans (ih (s.putKmsg o k))

theorem MqOk.puts (hok : MqOk s pend c) (hactive : (s.ports p).ipActive = true)
    (hown : s.ownerOf p = o) (hpend : pend p = l) (hl : ∀ k ∈ l, k.msghRemotePort = p) :
    MqOk (l.foldl (fun t k => t.putKmsg o k) s) (update pend p []) c := by
  induction l generalizing s pend with
  | nil =>
    have hsame : update pend p [] = pend := by rw [← hpend, update_eq_self]
    rw [hsame]
    exact hok
  | cons k l ih =>
    have hk : k.msghRemotePort = p := hl k mem_cons_self
    have hput := hok.putKmsg (by rwa [hk]) (by rw [hk, hpend]) (by rw [hk, hown])
    have hmoved := Moved.putKmsg s o k
    rw [hk] at hput
    have hrest := ih hput (by rwa [hmoved.active]) (by rw [hmoved.ownerOf, hown])
      (update_self _ _ _) fun k' hk' => hl k' (mem_cons_of_mem k hk')
    rwa [update_idem] at hrest

theorem MqOk.setPset (hok : MqOk s pend c) (hno : ∀ o, ∀ k ∈ (s.queues o).imqMessages,
    k.msghRemotePort ≠ p) (x : Option PsetId) :
    MqOk (s.modifyPort p fun port => { port with ipPset := x }) pend c := by
  have hports : ∀ p', ((s.modifyPort p fun port => { port with ipPset := x }).ports p').ipActive =
      (s.ports p').ipActive ∧ ((s.modifyPort p fun port => { port with ipPset := x }).ports p').ipSeqno
        = (s.ports p').ipSeqno := by
    intro p'
    by_cases h : p' = p
    · rw [h, ports_modifyPort_self]
      exact ⟨rfl, rfl⟩
    · rw [ports_modifyPort_of_ne _ h]
      exact ⟨rfl, rfl⟩
  have hown : ∀ p', p' ≠ p →
      (s.modifyPort p fun port => { port with ipPset := x }).ownerOf p' = s.ownerOf p' := by
    intro p' h
    apply ownerOf_congr
    rw [ports_modifyPort_of_ne _ h]
  have hqueued : ∀ p', (s.modifyPort p fun port => { port with ipPset := x }).queued p' =
      s.queued p' := by
    intro p'
    by_cases h : p' = p
    · rw [h, queued, queued, messagesTo_eq_nil (hno _)]
      exact messagesTo_eq_nil (hno _)
    · rw [queued, hown p' h]
      rfl
  refine ⟨?_, hok.exclusive, ?_, hok.history, hok.numbered, ?_, ?_⟩
  · intro o k hk
    rw [(hports _).1, hown _ (hno o k hk)]
    exact hok.place o k hk
  · intro p' hp'
    rw [(hports p').1] at hp'
    rw [hqueued]
    exact hok.order p' hp'
  · intro p' hp'
    rw [(hports p').1] at hp'
    rw [(hports p').2]
    exact hok.next p' hp'
  · intro p' hp'
    rw [(hports p').1] at hp'
    rw [hqueued]
    exact hok.count p' hp'

/-- No message is between two queues. -/
def noPend : PortId → List Kmsg := fun _ => []

theorem noPend_update (p : PortId) : update noPend p [] = noPend :=
  update_eq_self p noPend

theorem MqOk.changePset (hok : MqOk s noPend c) (hactive : (s.ports p).ipActive = true)
    {x : Option PsetId} (hold : s.ownerOf p = o') (hne : o' ≠ o)
    (hnew : (s.modifyPort p fun port => { port with ipPset := x }).ownerOf p = o) :
    MqOk ((s.modifyPort p fun port => { port with ipPset := x }).ipcMqueueMove o o' p) noPend c := by
  let out : Mqueue := ⟨messagesNotTo p (s.queues o').imqMessages, (s.queues o').imqThreads⟩
  have htaken : MqOk (s.setQueue o' out) (update noPend p (s.queued p)) c := by
    apply hok.setQueue
    · intro k hk
      exact hok.place o' k (mem_messagesNotTo.mp hk).1
    · intro hout
      apply hok.exclusive
      rintro hnil
      exact hout (by simp only [out, hnil, messagesNotTo, filter_nil])
    · intro p' _
      by_cases hp : p' = p
      · rw [hp, queued_setQueue_self hold, update_self,
          messagesTo_messagesNotTo_self, nil_append, noPend, append_nil]
      · rw [update_of_ne hp]
        by_cases hpo : s.ownerOf p' = o'
        · rw [queued_setQueue_self hpo, messagesTo_messagesNotTo_of_ne hp, queued,
            hpo]
        · rw [queued_setQueue_of_ne hpo]
  have hnone : ∀ o, ∀ k ∈ ((s.setQueue o' out).queues o).imqMessages, k.msghRemotePort ≠ p := by
    intro o k hk
    by_cases ho : o = o'
    · rw [ho, queues_setQueue_self] at hk
      exact (mem_messagesNotTo.mp hk).2
    · rw [queues_setQueue_of_ne ho] at hk
      rintro rfl
      exact ho ((hok.place o k hk).2.symm.trans hold)
  have hput := (htaken.setPset hnone x).puts (p := p) (o := o) (l := s.queued p)
    (by rw [ports_modifyPort_self]; exact hactive) hnew (update_self _ _ _)
    (fun k hk => by simpa [queued, messagesTo] using (mem_filter.mp hk).2)
  rw [update_idem, noPend_update] at hput
  unfold ipcMqueueMove
  rw [moveLoop_eq hne _ [] rfl (fun _ hk => by cases hk)]
  rw [queued, hold] at hput
  exact hput

theorem MqOk.setThreads (hok : MqOk s pend c) {threads : List Receiver}
    (hex : (s.queues o).imqMessages ≠ [] → threads = []) :
    MqOk (s.setQueue o ⟨(s.queues o).imqMessages, threads⟩) pend c := by
  apply hok.setQueue
  · exact hok.place o
  · exact hex
  · intro p _
    by_cases hp : s.ownerOf p = o
    · rw [queued_setQueue_self hp, queued, hp]
    · rw [queued_setQueue_of_ne hp]

/-- What the invariant is about is the same. -/
structure SameQueues (s s' : MqState) : Prop where
  ports : ∀ p, (s'.ports p).ipActive = (s.ports p).ipActive ∧
    (s'.ports p).ipPset = (s.ports p).ipPset ∧ (s'.ports p).ipSeqno = (s.ports p).ipSeqno
  queues : s'.queues = s.queues
  held : s'.held = s.held
  accepted : s'.accepted = s.accepted
  delivered : s'.delivered = s.delivered

theorem SameQueues.refl : SameQueues s s := ⟨fun _ => ⟨rfl, rfl, rfl⟩, rfl, rfl, rfl, rfl⟩

theorem SameQueues.trans (h : SameQueues s s') (h' : SameQueues s' s'') : SameQueues s s'' := by
  refine ⟨fun p => ?_, h'.queues.trans h.queues, h'.held.trans h.held, h'.accepted.trans h.accepted,
    h'.delivered.trans h.delivered⟩
  obtain ⟨ha, hp, hs⟩ := h.ports p
  obtain ⟨ha', hp', hs'⟩ := h'.ports p
  exact ⟨ha'.trans ha, hp'.trans hp, hs'.trans hs⟩

theorem SameQueues.modifyPort (s : MqState) (p : PortId) (f : IpcPort → IpcPort)
    (hf : (f (s.ports p)).ipActive = (s.ports p).ipActive ∧
      (f (s.ports p)).ipPset = (s.ports p).ipPset ∧ (f (s.ports p)).ipSeqno = (s.ports p).ipSeqno) :
    SameQueues s (s.modifyPort p f) := by
  refine ⟨fun p' => ?_, rfl, rfl, rfl, rfl⟩
  by_cases h : p' = p
  · rw [h, ports_modifyPort_self]
    exact hf
  · rw [ports_modifyPort_of_ne _ h]
    exact ⟨rfl, rfl, rfl⟩

theorem SameQueues.queued (h : SameQueues s s') (p : PortId) : s'.queued p = s.queued p := by
  unfold MqState.queued
  rw [h.queues, MqState.ownerOf_congr (h.ports p).2.1]

theorem MqOk.congr (hok : MqOk s pend c) (h : SameQueues s s') : MqOk s' pend c := by
  refine ⟨?_, ?_, ?_, ?_, ?_, ?_, ?_⟩
  · intro o k hk
    rw [h.queues] at hk
    rw [(h.ports _).1, ownerOf_congr (h.ports _).2.1]
    exact hok.place o k hk
  · rw [h.queues]
    exact hok.exclusive
  · intro p hp
    rw [(h.ports p).1] at hp
    rw [h.accepted, h.delivered, h.queued]
    exact hok.order p hp
  · rw [h.accepted, h.delivered]
    exact hok.history
  · rw [h.delivered]
    exact hok.numbered
  · intro p hp
    rw [(h.ports p).1] at hp
    rw [(h.ports p).2.2, h.delivered]
    exact hok.next p hp
  · intro p hp
    rw [(h.ports p).1] at hp
    rw [h.queued, h.held]
    exact hok.count p hp

theorem SameQueues.wakeSender (s : MqState) (p : PortId) : SameQueues s (s.wakeSender p) := by
  unfold MqState.wakeSender
  cases hb : (s.ports p).ipBlocked with
  | nil => exact .refl
  | cons sd rest =>
    have h := SameQueues.modifyPort s p (fun port => { port with ipBlocked := rest }) ⟨rfl, rfl, rfl⟩
    exact ⟨h.ports, h.queues, h.held, h.accepted, h.delivered⟩

theorem SameQueues.wakeSenders (s : MqState) (p : PortId) (n : ℕ) :
    SameQueues s ((fun t => t.wakeSender p)^[n] s) := by
  induction n generalizing s with
  | zero => exact .refl
  | succ n ih => exact (SameQueues.wakeSender s p).trans (ih (s.wakeSender p))

theorem SameQueues.unblock (s : MqState) (sd : Sender) : SameQueues s (s.unblock sd) :=
  .modifyPort s _ _ ⟨rfl, rfl, rfl⟩

theorem MqOk.accept (hok : MqOk s noPend c) (hactive : (s.ports k.msghRemotePort).ipActive = true) :
    MqOk (s.accept k) noPend (update c k.msghRemotePort (c k.msghRemotePort + 1)) := by
  let s1 : MqState :=
    { s.modifyPort k.msghRemotePort
        fun port => { port with ipMsgcount := (port.ipMsgcount + 1) % 2 ^ 16 } with
      accepted := update s.accepted k.msghRemotePort (s.accepted k.msghRemotePort ++ [k]) }
  have hsame := SameQueues.modifyPort s k.msghRemotePort
    (fun port => { port with ipMsgcount := (port.ipMsgcount + 1) % 2 ^ 16 }) ⟨rfl, rfl, rfl⟩
  have hport : ∀ p, (s1.ports p).ipActive = (s.ports p).ipActive := fun p => (hsame.ports p).1
  have hown : ∀ p, s1.ownerOf p = s.ownerOf p := fun p => ownerOf_congr (hsame.ports p).2.1
  have hqueued : ∀ p, s1.queued p = s.queued p := fun p => hsame.queued p
  have hself : s1.accepted k.msghRemotePort = s.accepted k.msghRemotePort ++ [k] :=
    update_self _ _ _
  have hother : ∀ p, p ≠ k.msghRemotePort → s1.accepted p = s.accepted p :=
    fun p h => update_of_ne h _ _
  have hok1 : MqOk s1 (update noPend k.msghRemotePort [k])
      (update c k.msghRemotePort (c k.msghRemotePort + 1)) := by
    refine ⟨?_, hok.exclusive, ?_, ?_, hok.numbered, ?_, ?_⟩
    · intro o k' hk'
      rw [hport, hown]
      exact hok.place o k' hk'
    · intro p hp
      rw [hport] at hp
      have horder := hok.order p hp
      by_cases h : p = k.msghRemotePort
      · subst h
        have hdelivered : s1.delivered = s.delivered := rfl
        rw [hself, hqueued, update_self, horder, noPend, append_nil, append_assoc, hdelivered]
      · rw [hother p h, hqueued, update_of_ne h]
        exact horder
    · intro p
      by_cases h : p = k.msghRemotePort
      · subst h
        rw [hself]
        exact (hok.history _).trans (prefix_append _ _)
      · rw [hother p h]
        exact hok.history p
    · intro p hp
      rw [hport] at hp
      rw [(hsame.ports p).2.2]
      exact hok.next p hp
    · intro p hp
      rw [hport] at hp
      have hcount := hok.count p hp
      have hheld : s1.held = s.held := rfl
      rw [hqueued, hheld]
      by_cases h : p = k.msghRemotePort
      · subst h
        rw [update_self, update_self, ← hcount]
        simp only [noPend, append_nil, length_append, length_singleton]
        omega
      · rw [update_of_ne h, update_of_ne h]
        exact hcount
  have hput := hok1.putKmsg (by rwa [hport]) (update_self _ _ _) rfl
  rw [update_idem, noPend_update, hown] at hput
  exact hput

theorem MqState.sendLoop_cases (s : MqState) (sd : Sender) :
    (¬ s.Takes sd ∧ (s.sendLoop sd).2 = s) ∨
    (s.Takes sd ∧ (s.sendLoop sd).2 = s.accept sd.kmsg) ∨
    (¬ s.Takes sd ∧ (s.ports sd.kmsg.msghRemotePort).ipActive = true ∧ ¬ s.Admits sd ∧
      (s.sendLoop sd).2 = s.modifyPort sd.kmsg.msghRemotePort
        fun port => { port with ipBlocked := port.ipBlocked ++ [sd] }) := by
  unfold sendLoop Takes
  by_cases hactive : (s.ports sd.kmsg.msghRemotePort).ipActive = true
  · rw [if_neg (by simp [hactive])]
    by_cases hadmits : s.Admits sd
    · rw [if_pos hadmits]
      cases hcirc : sd.kmsg.circular
      · exact .inr (.inl ⟨⟨hactive, hadmits, rfl⟩, rfl⟩)
      · exact .inl ⟨by simp, rfl⟩
    · rw [if_neg hadmits]
      by_cases hzero : sd.timeout = some 0
      · rw [if_pos hzero]
        exact .inl ⟨fun h => hadmits h.2.1, rfl⟩
      · rw [if_neg hzero]
        exact .inr (.inr ⟨fun h => hadmits h.2.1, hactive, hadmits, rfl⟩)
  · rw [if_pos (by simpa using hactive)]
    exact .inl ⟨fun h => hactive h.1, rfl⟩

theorem MqOk.sendLoop (hok : MqOk s noPend c) (sd : Sender) :
    ∃ c', MqOk (s.sendLoop sd).2 noPend c' ∧
      ∀ p, (p = sd.kmsg.msghRemotePort ∧ s.Takes sd → c' p = c p + 1) ∧
        (¬ (p = sd.kmsg.msghRemotePort ∧ s.Takes sd) → c' p = c p) := by
  rcases s.sendLoop_cases sd with ⟨hno, heq⟩ | ⟨htakes, heq⟩ | ⟨hno, -, -, heq⟩
  · rw [heq]
    exact ⟨c, hok, fun p => ⟨fun h => absurd h.2 hno, fun _ => rfl⟩⟩
  · rw [heq]
    refine ⟨_, hok.accept htakes.1, fun p => ⟨?_, ?_⟩⟩
    · rintro ⟨rfl, -⟩
      exact update_self _ _ _
    · intro h
      exact update_of_ne (fun hp => h ⟨hp, htakes⟩) _ _
  · rw [heq]
    refine ⟨c, hok.congr (.modifyPort s _ _ ⟨rfl, rfl, rfl⟩), fun p => ⟨fun h => absurd h.2 hno, ?_⟩⟩
    intro _
    rfl

theorem MqOk.receiveLoop (hok : MqOk s noPend c) (o : Owner) (r : Receiver) (timeout : Option ℕ) :
    MqOk (s.receiveLoop o r timeout).2 noPend c := by
  unfold MqState.receiveLoop
  cases hq : (s.queues o).imqMessages with
  | nil =>
    dsimp only
    split_ifs
    · exact hok
    · rw [← hq]
      exact hok.setThreads fun hne => absurd hq hne
  | cons k rest =>
    dsimp only
    split_ifs
    · exact hok
    · have hk : k ∈ (s.queues o).imqMessages := by rw [hq]; exact mem_cons_self
      obtain ⟨hactive, hown⟩ := hok.place o k hk
      apply hok.deliver hactive
      · rw [queued_setQueue_self hown, queued, hown, hq, messagesTo_cons_self rfl]
        rfl
      · intro p hp _
        by_cases hpo : s.ownerOf p = o
        · rw [queued_setQueue_self hpo, queued, hpo, hq,
            messagesTo_cons_of_ne (Ne.symm hp)]
        · rw [queued_setQueue_of_ne hpo]
      · intro k' hk'
        rw [hq]
        exact mem_cons_of_mem k hk'
      · intro _
        exact hok.exclusive o (ne_nil_of_mem hk)

theorem MqOk.unwait (hok : MqOk s noPend c) (o : Owner) (r : Receiver) :
    MqOk (s.unwait o r) noPend c := by
  apply hok.setThreads
  intro hne
  rw [hok.exclusive o hne]
  rfl

theorem MqOk.changed (hok : MqOk s noPend c) (o : Owner) :
    MqOk (s.ipcMqueueChanged o) noPend c := hok.setThreads fun _ => rfl

theorem MqOk.psetAdd (hok : MqOk s noPend c) (hactive : (s.ports p).ipActive = true)
    (hnone : (s.ports p).ipPset = none) : MqOk (s.ipcPsetAdd ps p) noPend c := by
  apply MqOk.changed
  apply hok.changePset hactive (ownerOf_none hnone) (by simp)
  apply ownerOf_some
  rw [ports_modifyPort_self]

theorem MqOk.psetRemove (hok : MqOk s noPend c) (hactive : (s.ports p).ipActive = true)
    (hsome : (s.ports p).ipPset = some ps) : MqOk (s.ipcPsetRemove ps p) noPend c := by
  apply hok.changePset hactive (ownerOf_some hsome) (by simp)
  apply ownerOf_none
  rw [ports_modifyPort_self]

/-- What senders look at is the same. -/
structure SameSenders (s s' : MqState) : Prop where
  ports : ∀ p, (s'.ports p).ipActive = (s.ports p).ipActive ∧
    (s'.ports p).ipMsgcount = (s.ports p).ipMsgcount ∧ (s'.ports p).ipQlimit = (s.ports p).ipQlimit ∧
    (s'.ports p).ipBlocked = (s.ports p).ipBlocked
  woken : s'.woken = s.woken

theorem SameSenders.refl : SameSenders s s := ⟨fun _ => ⟨rfl, rfl, rfl, rfl⟩, rfl⟩

theorem SameSenders.trans (h : SameSenders s s') (h' : SameSenders s' s'') : SameSenders s s'' := by
  refine ⟨fun p => ?_, h'.woken.trans h.woken⟩
  obtain ⟨ha, hm, hq, hb⟩ := h.ports p
  obtain ⟨ha', hm', hq', hb'⟩ := h'.ports p
  exact ⟨ha'.trans ha, hm'.trans hm, hq'.trans hq, hb'.trans hb⟩

theorem Moved.sameSenders (h : Moved s s') : SameSenders s s' := by
  refine ⟨fun p => ?_, h.woken⟩
  obtain ⟨n, hn⟩ := h.ports p
  rw [hn]
  exact ⟨rfl, rfl, rfl, rfl⟩

theorem SameSenders.modifyPort (s : MqState) (p : PortId) (f : IpcPort → IpcPort)
    (hf : (f (s.ports p)).ipActive = (s.ports p).ipActive ∧
      (f (s.ports p)).ipMsgcount = (s.ports p).ipMsgcount ∧
      (f (s.ports p)).ipQlimit = (s.ports p).ipQlimit ∧
      (f (s.ports p)).ipBlocked = (s.ports p).ipBlocked) : SameSenders s (s.modifyPort p f) := by
  refine ⟨fun p' => ?_, rfl⟩
  by_cases h : p' = p
  · rw [h, ports_modifyPort_self]
    exact hf
  · rw [ports_modifyPort_of_ne _ h]
    exact ⟨rfl, rfl, rfl, rfl⟩

theorem Moved.moveLoop (o o' : Owner) (p : PortId) (l : List Kmsg) (s : MqState) :
    Moved s (MqState.moveLoop o o' p l s) := by
  induction l generalizing s with
  | nil => exact .refl
  | cons k l ih =>
    unfold MqState.moveLoop
    split_ifs
    · exact ih s
    · exact ((setQueue s o' _).trans (putKmsg _ o k)).trans (ih _)

theorem SameSenders.psetAdd (s : MqState) (ps : PsetId) (p : PortId) :
    SameSenders s (s.ipcPsetAdd ps p) :=
  ((SameSenders.modifyPort s p _ ⟨rfl, rfl, rfl, rfl⟩).trans (Moved.moveLoop _ _ p _ _).sameSenders).trans
    (Moved.setQueue _ _ _).sameSenders

theorem SameSenders.psetRemove (s : MqState) (ps : PsetId) (p : PortId) :
    SameSenders s (s.ipcPsetRemove ps p) :=
  (SameSenders.modifyPort s p _ ⟨rfl, rfl, rfl, rfl⟩).trans (Moved.moveLoop _ _ p _ _).sameSenders

theorem Moved.receiveLoop (s : MqState) (o : Owner) (r : Receiver) (timeout : Option ℕ) :
    Moved s (s.receiveLoop o r timeout).2 := by
  unfold MqState.receiveLoop
  cases (s.queues o).imqMessages with
  | nil =>
    dsimp only
    split_ifs
    · exact .refl
    · exact setQueue s o _
  | cons k rest =>
    dsimp only
    split_ifs
    · exact .refl
    · exact (setQueue s o _).trans (deliver _ r o k)

theorem MqState.ipPset_psetRemove (ps : PsetId) :
    ((s.ipcPsetRemove ps p).ports p).ipPset = none := by
  obtain ⟨n, hn⟩ := (Moved.moveLoop (.port p) (.pset ps) p
    ((s.modifyPort p fun port => { port with ipPset := none }).queues (.pset ps)).imqMessages
    (s.modifyPort p fun port => { port with ipPset := none })).ports p
  unfold ipcPsetRemove ipcMqueueMove
  rw [hn, ports_modifyPort_self]

theorem SameSenders.psetMove (s : MqState) (p : PortId) (nset : Option PsetId) :
    SameSenders s (s.ipcPsetMove p nset).2 := by
  unfold ipcPsetMove
  split
  · exact .refl
  · exact .psetAdd s _ p
  · exact .psetRemove s _ p
  · split_ifs
    · exact .refl
    · exact (SameSenders.psetRemove s _ p).trans (.psetAdd _ _ p)

theorem MqOk.psetMove (hok : MqOk s noPend c) (hactive : (s.ports p).ipActive = true)
    (nset : Option PsetId) : MqOk (s.ipcPsetMove p nset).2 noPend c := by
  unfold ipcPsetMove
  split
  · exact hok
  · exact hok.psetAdd hactive (by assumption)
  · exact hok.psetRemove hactive (by assumption)
  · rename_i os ns hp
    split_ifs
    · exact hok
    · refine (hok.psetRemove hactive hp).psetAdd ?_ (ipPset_psetRemove os)
      rw [((SameSenders.psetRemove s os p).ports p).1]
      exact hactive

theorem SameSenders.receive (s : MqState) (o : Owner) (r : Receiver) (timeout : Option ℕ) :
    SameSenders s (s.ipcMqueueReceive o r timeout).2 := by
  have hloop := (Moved.receiveLoop s o r timeout).sameSenders
  unfold ipcMqueueReceive
  split
  · split_ifs
    · exact .refl
    · split
      · exact hloop
      · split_ifs
        · exact .refl
        · exact (SameSenders.psetRemove s _ _).trans (Moved.receiveLoop _ _ r timeout).sameSenders
  · split_ifs
    · exact .refl
    · exact hloop

theorem MqOk.receive (hok : MqOk s noPend c) (o : Owner) (r : Receiver) (timeout : Option ℕ) :
    MqOk (s.ipcMqueueReceive o r timeout).2 noPend c := by
  unfold ipcMqueueReceive
  split
  · split_ifs with hactive
    · exact hok
    · split
      · exact hok.receiveLoop _ r timeout
      · split_ifs
        · exact hok
        · exact (hok.psetRemove (by simpa using hactive) (by assumption)).receiveLoop _ r timeout
  · split_ifs
    · exact hok
    · exact hok.receiveLoop _ r timeout

theorem MqOk.finish (hok : MqOk s noPend c) {d : Delivery} (hd : d ∈ s.held d.kmsg.msghRemotePort) :
    ∃ c', MqOk (s.receiveFinish d) noPend c' ∧ ∀ p,
      (p = d.kmsg.msghRemotePort ∧ (s.ports p).ipActive = true → c p = c' p + 1) ∧
      (¬ (p = d.kmsg.msghRemotePort ∧ (s.ports p).ipActive = true) → c' p = c p) := by
  let held := update s.held d.kmsg.msghRemotePort ((s.held d.kmsg.msghRemotePort).erase d)
  let s1 : MqState := { s with held := held }
  have hlen := length_erase_of_mem hd
  have hpos := length_pos_of_mem hd
  have hself : s1.held d.kmsg.msghRemotePort = (s.held d.kmsg.msghRemotePort).erase d :=
    update_self _ _ _
  have hother : ∀ p, p ≠ d.kmsg.msghRemotePort → s1.held p = s.held p :=
    fun p h => update_of_ne h _ _
  have hqueued : ∀ p, s1.queued p = s.queued p := fun p => rfl
  by_cases hactive : (s.ports d.kmsg.msghRemotePort).ipActive = true
  · refine ⟨update c d.kmsg.msghRemotePort (c d.kmsg.msghRemotePort - 1), ?_, fun p => ?_⟩
    · have hok1 : MqOk s1 noPend
          (update c d.kmsg.msghRemotePort (c d.kmsg.msghRemotePort - 1)) := by
        refine ⟨hok.place, hok.exclusive, hok.order, hok.history, hok.numbered, hok.next, ?_⟩
        intro p hp
        have hcount := hok.count p hp
        by_cases h : p = d.kmsg.msghRemotePort
        · subst h
          rw [hself, hqueued, update_self]
          omega
        · rw [hother p h, hqueued, update_of_ne h]
          exact hcount
      have hok2 := hok1.congr (.modifyPort s1 d.kmsg.msghRemotePort
        (fun port => { port with ipMsgcount := (port.ipMsgcount + (2 ^ 16 - 1)) % 2 ^ 16 })
        ⟨rfl, rfl, rfl⟩)
      unfold receiveFinish
      simp only [hactive, if_true]
      split_ifs
      · exact hok2.congr (.wakeSender _ _)
      · exact hok2
    · constructor
      · rintro ⟨rfl, -⟩
        have hcount := hok.count _ hactive
        rw [update_self]
        omega
      · intro h
        exact update_of_ne (fun hp => h ⟨hp, hp ▸ hactive⟩) _ _
  · refine ⟨c, ?_, fun p => ⟨?_, fun _ => rfl⟩⟩
    · unfold receiveFinish
      simp only [hactive]
      refine ⟨hok.place, hok.exclusive, hok.order, hok.history, hok.numbered, hok.next, ?_⟩
      intro p hp
      have hne : p ≠ d.kmsg.msghRemotePort := by
        rintro rfl
        exact hactive hp
      have hcount := hok.count p hp
      rw [← hother p hne, ← hqueued] at hcount
      exact hcount
    · rintro ⟨rfl, h⟩
      exact absurd h hactive

theorem MqOk.kill (hok : MqOk s noPend c) (hown : s.ownerOf p = .port p)
    (hports : ∀ p', p' ≠ p → (s'.ports p').ipActive = (s.ports p').ipActive ∧
      (s'.ports p').ipPset = (s.ports p').ipPset ∧ (s'.ports p').ipSeqno = (s.ports p').ipSeqno)
    (hdead : (s'.ports p).ipActive = false)
    (hqueues : s'.queues = update s.queues (.port p) ⟨[], q.imqThreads⟩)
    (hheld : s'.held = s.held) (haccepted : s'.accepted = s.accepted)
    (hdelivered : s'.delivered = s.delivered) : MqOk s' noPend c := by
  have hne : ∀ p', (s'.ports p').ipActive = true → p' ≠ p := by
    rintro p' hp' rfl
    rw [hdead] at hp'
    cases hp'
  have howner : ∀ p', p' ≠ p → s'.ownerOf p' = s.ownerOf p' :=
    fun p' h => ownerOf_congr (hports p' h).2.1
  have hqueued : ∀ p', p' ≠ p → s'.queued p' = s.queued p' := by
    intro p' h
    have hother : s.ownerOf p' ≠ .port p := fun heq => h (ownerOf_eq_port heq)
    rw [queued, howner p' h, hqueues, update_of_ne hother, queued]
  refine ⟨?_, ?_, ?_, ?_, ?_, ?_, ?_⟩
  · intro o k hk
    rw [hqueues] at hk
    by_cases ho : o = .port p
    · rw [ho, update_self] at hk
      cases hk
    · rw [update_of_ne ho] at hk
      obtain ⟨hactive, hplace⟩ := hok.place o k hk
      have hkp : k.msghRemotePort ≠ p := by
        rintro rfl
        exact ho (hplace.symm.trans hown)
      rw [(hports _ hkp).1, howner _ hkp]
      exact ⟨hactive, hplace⟩
  · intro o
    rw [hqueues]
    by_cases ho : o = .port p
    · rw [ho, update_self]
      exact fun h => absurd rfl h
    · rw [update_of_ne ho]
      exact hok.exclusive o
  · intro p' hp'
    have h := hne p' hp'
    rw [(hports p' h).1] at hp'
    rw [haccepted, hdelivered, hqueued p' h]
    exact hok.order p' hp'
  · rw [haccepted, hdelivered]
    exact hok.history
  · rw [hdelivered]
    exact hok.numbered
  · intro p' hp'
    have h := hne p' hp'
    rw [(hports p' h).1] at hp'
    rw [(hports p' h).2.2, hdelivered]
    exact hok.next p' hp'
  · intro p' hp'
    have h := hne p' hp'
    rw [(hports p' h).1] at hp'
    rw [hqueued p' h, hheld]
    exact hok.count p' hp'

theorem MqOk.destroy (hok : MqOk s noPend c) (hactive : (s.ports p).ipActive = true) :
    MqOk ((s.ipcPortClearReceiver p).ipcPortDestroy p) noPend c := by
  obtain ⟨s0, hclear, hok0, hown0⟩ : ∃ s0 : MqState, s.ipcPortClearReceiver p =
      s0.modifyPort p (fun port => { port with ipSeqno := 0 }) ∧ MqOk s0 noPend c ∧
      s0.ownerOf p = .port p := by
    unfold ipcPortClearReceiver
    cases hp : (s.ports p).ipPset with
    | none => exact ⟨_, rfl, hok.changed _, ownerOf_none hp⟩
    | some ps =>
      exact ⟨_, rfl, hok.psetRemove hactive hp, ownerOf_none (ipPset_psetRemove ps)⟩
  rw [hclear]
  let s1 := s0.modifyPort p fun port => { port with ipSeqno := 0 }
  let s2 := (fun t => t.wakeSender p)^[(s1.ports p).ipBlocked.length] s1
  have hwake : SameQueues s1 s2 := .wakeSenders s1 p _
  have hports : (s1.ipcPortDestroy p).ports =
      (s2.modifyPort p fun port => { port with ipActive := false }).ports := rfl
  apply hok0.kill hown0
  · intro p' h
    have hsame := hwake.ports p'
    rw [ports_modifyPort_of_ne _ h] at hsame
    rw [hports, ports_modifyPort_of_ne _ h]
    exact hsame
  · rw [hports, ports_modifyPort_self]
  · exact congrArg (fun queues => update queues (.port p) _) hwake.queues
  · exact hwake.held
  · exact hwake.accepted
  · exact hwake.delivered

theorem SameSenders.accept (s : MqState) (k : Kmsg) : SameSenders (s.modifyPort k.msghRemotePort
      fun port => { port with ipMsgcount := (port.ipMsgcount + 1) % 2 ^ 16 }) (s.accept k) := by
  obtain ⟨hports, hwoken⟩ := (Moved.putKmsg { s.modifyPort k.msghRemotePort
    (fun port => { port with ipMsgcount := (port.ipMsgcount + 1) % 2 ^ 16 }) with
      accepted := update s.accepted k.msghRemotePort (s.accepted k.msghRemotePort ++ [k]) }
    (s.ownerOf k.msghRemotePort) k).sameSenders
  exact ⟨hports, hwoken⟩

theorem MqState.takes_unblock (s : MqState) (sd : Sender) :
    (s.unblock sd).Takes { sd with timeout := some 0 } ↔ s.Takes sd := by
  unfold Takes Admits unblock
  rw [ports_modifyPort_self]

/-- The number of messages outstanding, as an action changes it. -/
structure Counted (s : MqState) (a : MqAction) (c c' : PortId → ℕ) : Prop where
  accepts : ∀ p, s.Accepts a p → c' p = c p + 1
  finishes : ∀ p, s.Finishes a p → c p = c' p + 1
  same : ∀ p, ¬ s.Accepts a p → ¬ s.Finishes a p → c' p = c p

theorem Counted.refl (ha : ∀ p, ¬ s.Accepts a p) (hf : ∀ p, ¬ s.Finishes a p) : Counted s a c c :=
  ⟨fun p h => absurd h (ha p), fun p h => absurd h (hf p), fun _ _ _ => rfl⟩

theorem MqOk.perform (hok : MqOk s noPend c) (hen : s.Enabled a) :
    ∃ c', MqOk (s.perform a) noPend c' ∧ Counted s a c c' := by
  cases a with
  | send sd =>
    change ∃ c', MqOk (s.ipcMqueueSend sd).2 noPend c' ∧ _
    unfold ipcMqueueSend
    split_ifs with hkernel
    · refine ⟨c, hok, Counted.refl ?_ fun _ h => h⟩
      rintro p ⟨rfl, hk, -⟩
      rw [hk] at hkernel
      cases hkernel
    · obtain ⟨c', hok', hc'⟩ := hok.sendLoop sd
      refine ⟨c', hok', fun p h => (hc' p).1 ⟨h.1, h.2.2⟩, fun _ h => False.elim h, fun p h _ => ?_⟩
      refine (hc' p).2 fun hp => h ⟨hp.1, ?_, hp.2⟩
      rw [hp.1]
      simpa using hkernel
  | sendWoken sd =>
    have hsame : SameQueues s (s.unwake sd) := ⟨fun _ => ⟨rfl, rfl, rfl⟩, rfl, rfl, rfl, rfl⟩
    obtain ⟨c', hok', hc'⟩ := (hok.congr hsame).sendLoop sd
    exact ⟨c', hok', fun p h => (hc' p).1 h, fun _ h => False.elim h, fun p h _ => (hc' p).2 h⟩
  | sendTimedOut sd =>
    obtain ⟨c', hok', hc'⟩ := (hok.congr (.unblock s sd)).sendLoop { sd with timeout := some 0 }
    simp only [takes_unblock] at hc'
    exact ⟨c', hok', fun p h => (hc' p).1 h, fun _ h => False.elim h, fun p h _ => (hc' p).2 h⟩
  | sendInterrupted sd => exact ⟨c, hok.congr (.unblock s sd), .refl (fun _ h => h) fun _ h => h⟩
  | receive o r timeout => exact ⟨c, hok.receive o r timeout, .refl (fun _ h => h) fun _ h => h⟩
  | receiveTimedOut o r =>
    exact ⟨c, (hok.unwait o r).receiveLoop o r (some 0), .refl (fun _ h => h) fun _ h => h⟩
  | receiveInterrupted o r => exact ⟨c, hok.unwait o r, .refl (fun _ h => h) fun _ h => h⟩
  | receiveFinish d =>
    obtain ⟨c', hok', hc'⟩ := hok.finish hen
    exact ⟨c', hok', fun _ h => False.elim h, fun p h => (hc' p).1 ⟨h.1, h.2⟩,
      fun p _ h => (hc' p).2 h⟩
  | psetAdd ps p => exact ⟨c, hok.psetAdd hen.2.1 hen.2.2, .refl (fun _ h => h) fun _ h => h⟩
  | psetRemove ps p => exact ⟨c, hok.psetRemove hen.1 hen.2, .refl (fun _ h => h) fun _ h => h⟩
  | psetMove p nset => exact ⟨c, hok.psetMove hen.1 nset, .refl (fun _ h => h) fun _ h => h⟩
  | psetDestroy ps =>
    have hsame : SameQueues s { s with ipsActive := update s.ipsActive ps false } :=
      ⟨fun _ => ⟨rfl, rfl, rfl⟩, rfl, rfl, rfl, rfl⟩
    exact ⟨c, (hok.congr hsame).changed (.pset ps), .refl (fun _ h => h) fun _ h => h⟩
  | setQlimit p qlimit =>
    have hsame : SameQueues s (s.ipcPortSetQlimit p qlimit) := by
      unfold ipcPortSetQlimit
      exact (SameQueues.wakeSenders s p _).trans (.modifyPort _ p _ ⟨rfl, rfl, rfl⟩)
    exact ⟨c, hok.congr hsame, .refl (fun _ h => h) fun _ h => h⟩
  | destroy p => exact ⟨c, hok.destroy hen, .refl (fun _ h => h) fun _ h => h⟩

/-- The part of the state of a port that senders look at. -/
structure SenderView where
  active : Bool
  msgcount : ℕ
  qlimit : ℕ
  blocked : List Sender
  woken : List Sender

def MqState.view (s : MqState) (p : PortId) : SenderView where
  active := (s.ports p).ipActive
  msgcount := (s.ports p).ipMsgcount
  qlimit := (s.ports p).ipQlimit
  blocked := (s.ports p).ipBlocked
  woken := s.woken p

theorem SameSenders.view (h : SameSenders s s') (p : PortId) : s'.view p = s.view p := by
  obtain ⟨ha, hm, hq, hb⟩ := h.ports p
  unfold MqState.view
  rw [ha, hm, hq, hb, h.woken]

theorem MqState.view_modifyPort_of_ne (f : IpcPort → IpcPort) (h : p' ≠ p) :
    (s.modifyPort p f).view p' = s.view p' := by
  unfold view
  rw [ports_modifyPort_of_ne _ h]
  rfl

theorem MqState.view_modifyPort_self (f : IpcPort → IpcPort) :
    (s.modifyPort p f).view p = ⟨(f (s.ports p)).ipActive, (f (s.ports p)).ipMsgcount,
      (f (s.ports p)).ipQlimit, (f (s.ports p)).ipBlocked, s.woken p⟩ := by
  unfold view
  rw [ports_modifyPort_self]
  rfl

theorem MqState.view_sendLoop (s : MqState) (sd : Sender) (p : PortId) :
    (p ≠ sd.kmsg.msghRemotePort → (s.sendLoop sd).2.view p = s.view p) ∧
    (p = sd.kmsg.msghRemotePort → s.Takes sd → (s.sendLoop sd).2.view p =
      { s.view p with msgcount := ((s.view p).msgcount + 1) % 2 ^ 16 }) ∧
    (p = sd.kmsg.msghRemotePort → ¬ s.Takes sd → (s.sendLoop sd).2.view p = s.view p ∨
      (¬ s.Admits sd ∧
        (s.sendLoop sd).2.view p = { s.view p with blocked := (s.view p).blocked ++ [sd] })) := by
  rcases s.sendLoop_cases sd with ⟨hno, heq⟩ | ⟨htakes, heq⟩ | ⟨hno, -, hadmits, heq⟩
  · rw [heq]
    exact ⟨fun _ => rfl, fun _ h => absurd h hno, fun _ _ => .inl rfl⟩
  · rw [heq, (SameSenders.accept s sd.kmsg).view]
    refine ⟨fun h => view_modifyPort_of_ne _ h, ?_, fun _ h => absurd htakes h⟩
    rintro rfl -
    exact view_modifyPort_self _
  · rw [heq]
    refine ⟨fun h => view_modifyPort_of_ne _ h, fun _ h => absurd h hno, ?_⟩
    rintro rfl -
    exact .inr ⟨hadmits, view_modifyPort_self _⟩

theorem MqState.view_wakeSender (s : MqState) (p p' : PortId) :
    (p' ≠ p → (s.wakeSender p).view p' = s.view p') ∧
    (p' = p → (s.wakeSender p).view p' = { s.view p' with
      blocked := (s.view p').blocked.tail
      woken := (s.view p').woken ++ (s.view p').blocked.take 1 }) := by
  unfold wakeSender
  cases hb : (s.ports p).ipBlocked with
  | nil =>
    refine ⟨fun _ => rfl, ?_⟩
    rintro rfl
    simp only [view, hb, tail_nil, take_nil, append_nil]
  | cons sd rest =>
    constructor
    · intro h
      unfold view
      dsimp only
      rw [ports_modifyPort_of_ne _ h, update_of_ne h]
    · rintro rfl
      unfold view
      dsimp only
      rw [ports_modifyPort_self, update_self, hb]
      rfl

theorem MqState.view_wakeSenders (s : MqState) (p p' : PortId) (n : ℕ) :
    (p' ≠ p → ((fun t => t.wakeSender p)^[n] s).view p' = s.view p') ∧
    (p' = p → ((fun t => t.wakeSender p)^[n] s).view p' = { s.view p' with
      blocked := (s.view p').blocked.drop n
      woken := (s.view p').woken ++ (s.view p').blocked.take n }) := by
  induction n generalizing s with
  | zero =>
    refine ⟨fun _ => rfl, fun _ => ?_⟩
    simp [view]
  | succ n ih =>
    obtain ⟨hother, hself⟩ := ih (s.wakeSender p)
    obtain ⟨hother1, hself1⟩ := s.view_wakeSender p p'
    rw [iterate_succ_apply]
    refine ⟨fun h => (hother h).trans (hother1 h), fun h => ?_⟩
    rw [hself h, hself1 h]
    cases hb : (s.view p').blocked <;> simp

theorem MqState.view_unwake (s : MqState) (sd : Sender) (p : PortId) :
    (p ≠ sd.kmsg.msghRemotePort → (s.unwake sd).view p = s.view p) ∧
    (p = sd.kmsg.msghRemotePort →
      (s.unwake sd).view p = { s.view p with woken := (s.view p).woken.erase sd }) := by
  constructor
  · intro h
    unfold view unwake
    dsimp only
    rw [update_of_ne h]
  · rintro rfl
    unfold view unwake
    dsimp only
    rw [update_self]

theorem MqState.view_unblock (s : MqState) (sd : Sender) (p : PortId) :
    (p ≠ sd.kmsg.msghRemotePort → (s.unblock sd).view p = s.view p) ∧
    (p = sd.kmsg.msghRemotePort →
      (s.unblock sd).view p = { s.view p with blocked := (s.view p).blocked.erase sd }) := by
  refine ⟨fun h => view_modifyPort_of_ne _ h, ?_⟩
  rintro rfl
  exact view_modifyPort_self _

theorem MqState.view_receiveFinish (s : MqState) (d : Delivery) (p : PortId) :
    (¬ (p = d.kmsg.msghRemotePort ∧ (s.ports p).ipActive = true) →
      (s.receiveFinish d).view p = s.view p) ∧
    (p = d.kmsg.msghRemotePort → (s.ports p).ipActive = true →
      let v := { s.view p with msgcount := ((s.view p).msgcount + (2 ^ 16 - 1)) % 2 ^ 16 }
      (s.receiveFinish d).view p = if v.msgcount < v.qlimit then
        { v with blocked := v.blocked.tail, woken := v.woken ++ v.blocked.take 1 } else v) := by
  let held := update s.held d.kmsg.msghRemotePort ((s.held d.kmsg.msghRemotePort).erase d)
  let s1 : MqState := { s with held := held }
  let s2 := s1.modifyPort d.kmsg.msghRemotePort fun port =>
    { port with ipMsgcount := (port.ipMsgcount + (2 ^ 16 - 1)) % 2 ^ 16 }
  by_cases hactive : (s.ports d.kmsg.msghRemotePort).ipActive = true
  · have hfinish : s.receiveFinish d =
        if (s2.ports d.kmsg.msghRemotePort).ipMsgcount < (s2.ports d.kmsg.msghRemotePort).ipQlimit then
          s2.wakeSender d.kmsg.msghRemotePort else s2 := by
      unfold receiveFinish
      rw [if_pos hactive]
    rw [hfinish]
    constructor
    · intro h
      have hne : p ≠ d.kmsg.msghRemotePort := fun hp => h ⟨hp, hp ▸ hactive⟩
      have hother : s2.view p = s.view p := view_modifyPort_of_ne _ hne
      split_ifs
      · exact ((view_wakeSender s2 _ p).1 hne).trans hother
      · exact hother
    · rintro rfl -
      have hself : s2.view d.kmsg.msghRemotePort = { s.view d.kmsg.msghRemotePort with
          msgcount := ((s.view d.kmsg.msghRemotePort).msgcount + (2 ^ 16 - 1)) % 2 ^ 16 } :=
        view_modifyPort_self _
      intro v
      have hv : v = s2.view d.kmsg.msghRemotePort := hself.symm
      rw [hv]
      by_cases hlt : (s2.view d.kmsg.msghRemotePort).msgcount < (s2.view d.kmsg.msghRemotePort).qlimit
      · have hlt' : (s2.ports d.kmsg.msghRemotePort).ipMsgcount <
            (s2.ports d.kmsg.msghRemotePort).ipQlimit := hlt
        rw [if_pos hlt', if_pos hlt]
        exact (view_wakeSender s2 _ _).2 rfl
      · have hlt' : ¬ (s2.ports d.kmsg.msghRemotePort).ipMsgcount <
            (s2.ports d.kmsg.msghRemotePort).ipQlimit := hlt
        rw [if_neg hlt', if_neg hlt]
  · have hfinish : s.receiveFinish d = s1 := by
      unfold receiveFinish
      rw [if_neg hactive]
    rw [hfinish]
    refine ⟨fun _ => rfl, ?_⟩
    rintro rfl h
    exact absurd h hactive

theorem MqState.view_setQlimit (s : MqState) (p : PortId) (qlimit : ℕ) (p' : PortId) :
    (p' ≠ p → (s.ipcPortSetQlimit p qlimit).view p' = s.view p') ∧
    (p' = p → (s.ipcPortSetQlimit p qlimit).view p' = { s.view p' with
      qlimit := qlimit
      blocked := (s.view p').blocked.drop (qlimit - (s.view p').qlimit)
      woken := (s.view p').woken ++ (s.view p').blocked.take (qlimit - (s.view p').qlimit) }) := by
  unfold ipcPortSetQlimit
  constructor
  · intro h
    rw [view_modifyPort_of_ne _ h]
    exact (view_wakeSenders s p p' _).1 h
  · rintro rfl
    have hwake := (view_wakeSenders s p' p' (qlimit - (s.ports p').ipQlimit)).2 rfl
    rw [view_modifyPort_self]
    simp only [view, SenderView.mk.injEq] at hwake ⊢
    exact ⟨hwake.1, hwake.2.1, trivial, hwake.2.2.2⟩

theorem SameSenders.clearReceiver (s : MqState) (p : PortId) :
    SameSenders s (s.ipcPortClearReceiver p) := by
  unfold ipcPortClearReceiver
  split
  · exact (SameSenders.psetRemove s _ p).trans (.modifyPort _ p _ ⟨rfl, rfl, rfl, rfl⟩)
  · exact (Moved.setQueue s _ _).sameSenders.trans (.modifyPort _ p _ ⟨rfl, rfl, rfl, rfl⟩)

theorem MqState.view_destroy (s : MqState) (p p' : PortId) :
    (p' ≠ p → ((s.ipcPortClearReceiver p).ipcPortDestroy p).view p' = s.view p') ∧
    (p' = p → (((s.ipcPortClearReceiver p).ipcPortDestroy p).view p').active = false ∧
      (((s.ipcPortClearReceiver p).ipcPortDestroy p).view p').msgcount = (s.view p').msgcount) := by
  rw [← (SameSenders.clearReceiver s p).view p']
  generalize s.ipcPortClearReceiver p = t
  let n := (t.ports p).ipBlocked.length
  have hview : ∀ p', (t.ipcPortDestroy p).view p' = ((((fun t => t.wakeSender p)^[n] t).modifyPort p
        fun port => { port with ipActive := false }).view p') := fun _ => rfl
  rw [hview]
  constructor
  · intro h
    rw [view_modifyPort_of_ne _ h]
    exact (view_wakeSenders t p p' n).1 h
  · rintro rfl
    have hwake := (view_wakeSenders t p' p' n).2 rfl
    rw [view_modifyPort_self]
    have hcount := congrArg SenderView.msgcount hwake
    exact ⟨rfl, hcount⟩

theorem MqState.msgcount_sendLoop (s : MqState) (sd : Sender) (p : PortId) :
    (p = sd.kmsg.msghRemotePort ∧ s.Takes sd →
      ((s.sendLoop sd).2.view p).msgcount = ((s.view p).msgcount + 1) % 2 ^ 16) ∧
    (¬ (p = sd.kmsg.msghRemotePort ∧ s.Takes sd) →
      ((s.sendLoop sd).2.view p).msgcount = (s.view p).msgcount) := by
  obtain ⟨hother, htakes, hno⟩ := s.view_sendLoop sd p
  constructor
  · rintro ⟨hp, h⟩
    rw [htakes hp h]
  · intro h
    by_cases hp : p = sd.kmsg.msghRemotePort
    · rcases hno hp (fun ht => h ⟨hp, ht⟩) with heq | ⟨-, heq⟩ <;> rw [heq]
    · rw [hother hp]

/-- `ip_msgcount` counts what the action accepts or finishes. -/
theorem MqState.msgcount_perform (s : MqState) (a : MqAction) (p : PortId) :
    (s.Accepts a p → ((s.perform a).view p).msgcount = ((s.view p).msgcount + 1) % 2 ^ 16) ∧
    (s.Finishes a p →
      ((s.perform a).view p).msgcount = ((s.view p).msgcount + (2 ^ 16 - 1)) % 2 ^ 16) ∧
    (¬ s.Accepts a p → ¬ s.Finishes a p →
      ((s.perform a).view p).msgcount = (s.view p).msgcount) := by
  have hcalm : ∀ {a : MqAction}, (s.Accepts a p → False) → (s.Finishes a p → False) →
      ((s.perform a).view p).msgcount = (s.view p).msgcount →
      (s.Accepts a p → ((s.perform a).view p).msgcount = ((s.view p).msgcount + 1) % 2 ^ 16) ∧
      (s.Finishes a p →
        ((s.perform a).view p).msgcount = ((s.view p).msgcount + (2 ^ 16 - 1)) % 2 ^ 16) ∧
      (¬ s.Accepts a p → ¬ s.Finishes a p →
        ((s.perform a).view p).msgcount = (s.view p).msgcount) :=
    fun ha hf h => ⟨fun h' => (ha h').elim, fun h' => (hf h').elim, fun _ _ => h⟩
  cases a with
  | send sd =>
    by_cases hkernel : (s.ports sd.kmsg.msghRemotePort).ipKernel = true
    · apply hcalm
      · rintro ⟨rfl, hk, -⟩
        rw [hk] at hkernel
        cases hkernel
      · exact id
      · change ((s.ipcMqueueSend sd).2.view p).msgcount = _
        unfold ipcMqueueSend
        rw [if_pos hkernel]
    · have heq : s.perform (.send sd) = (s.sendLoop sd).2 := by
        change (s.ipcMqueueSend sd).2 = _
        unfold ipcMqueueSend
        rw [if_neg hkernel]
      obtain ⟨htakes, hno⟩ := s.msgcount_sendLoop sd p
      rw [heq]
      refine ⟨fun h => htakes ⟨h.1, h.2.2⟩, fun h => False.elim h, fun h _ => ?_⟩
      refine hno fun hp => h ⟨hp.1, ?_, hp.2⟩
      rw [hp.1]
      simpa using hkernel
  | sendWoken sd =>
    obtain ⟨htakes, hno⟩ := (s.unwake sd).msgcount_sendLoop sd p
    have hsame : ((s.unwake sd).view p).msgcount = (s.view p).msgcount := rfl
    rw [hsame] at htakes hno
    exact ⟨htakes, fun h => False.elim h, fun h _ => hno h⟩
  | sendTimedOut sd =>
    obtain ⟨htakes, hno⟩ := (s.unblock sd).msgcount_sendLoop { sd with timeout := some 0 } p
    have hsame : ((s.unblock sd).view p).msgcount = (s.view p).msgcount := by
      obtain ⟨hother, hself⟩ := s.view_unblock sd p
      by_cases hp : p = sd.kmsg.msghRemotePort
      · rw [hself hp]
      · rw [hother hp]
    rw [hsame, takes_unblock] at htakes hno
    exact ⟨htakes, fun h => False.elim h, fun h _ => hno h⟩
  | sendInterrupted sd =>
    apply hcalm id id
    obtain ⟨hother, hself⟩ := s.view_unblock sd p
    by_cases hp : p = sd.kmsg.msghRemotePort
    · have hcount := congrArg SenderView.msgcount (hself hp)
      exact hcount
    · exact congrArg SenderView.msgcount (hother hp)
  | receive o r timeout =>
    exact hcalm id id (congrArg SenderView.msgcount ((SameSenders.receive s o r timeout).view p))
  | receiveTimedOut o r =>
    exact hcalm id id (congrArg SenderView.msgcount (((Moved.setQueue s o _).trans
      (Moved.receiveLoop _ o r (some 0))).sameSenders.view p))
  | receiveInterrupted o r =>
    exact hcalm id id (congrArg SenderView.msgcount ((Moved.setQueue s o _).sameSenders.view p))
  | receiveFinish d =>
    obtain ⟨hno, hyes⟩ := s.view_receiveFinish d p
    refine ⟨fun h => False.elim h, fun h => ?_, fun _ h => ?_⟩
    · have heq := hyes h.1 h.2
      dsimp only at heq
      change ((s.receiveFinish d).view p).msgcount = _
      rw [heq]
      split_ifs <;> rfl
    · exact congrArg SenderView.msgcount (hno h)
  | psetAdd ps q =>
    exact hcalm id id (congrArg SenderView.msgcount ((SameSenders.psetAdd s ps q).view p))
  | psetRemove ps q =>
    exact hcalm id id (congrArg SenderView.msgcount ((SameSenders.psetRemove s ps q).view p))
  | psetMove q nset =>
    exact hcalm id id (congrArg SenderView.msgcount ((SameSenders.psetMove s q nset).view p))
  | psetDestroy ps => exact hcalm id id rfl
  | setQlimit q qlimit =>
    apply hcalm id id
    obtain ⟨hother, hself⟩ := s.view_setQlimit q qlimit p
    by_cases hp : p = q
    · have hcount := congrArg SenderView.msgcount (hself hp)
      exact hcount
    · exact congrArg SenderView.msgcount (hother hp)
  | destroy q =>
    apply hcalm id id
    obtain ⟨hother, hself⟩ := s.view_destroy q p
    by_cases hp : p = q
    · exact (hself hp).2
    · exact congrArg SenderView.msgcount (hother hp)

end

end MachKernel.Ipc
