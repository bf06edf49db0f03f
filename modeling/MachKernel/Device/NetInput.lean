import MachKernel.Device.NetFilter
import MachKernel.Lib.Doubly
import MachKernel.Lib.Runs

/-! Packets are given to the filters of an interface (`net_filter` of `device/net_io.c`). -/

namespace MachKernel.Device.Net
open Runs Function List

def netHiPri : ℤ := 100

def netHdwHdrMax : ℕ := 64

/-- A message that holds a packet. -/
structure Kmsg where
  remotePort : ℕ
  header : ℕ → BitVec 8
  packet : ℕ → BitVec 8
  count : ℕ

/-- Where filters run: their stacks at first, and what comes of one that leaves its stack. -/
structure Machine where
  cpu : Cpu
  cells : NetRcvPort → ℕ → BitVec 32
  outside : NetRcvPort → Bool

/-- What `net_do_filter` says of a packet. -/
def Machine.accepts (machine : Machine) (kmsg : Kmsg) (infp : NetRcvPort) : Bool :=
  (netDoFilter machine.cpu infp.words ((List.range kmsg.count).map kmsg.packet)
    (machine.cells infp)).getD (machine.outside infp)

/-- The packet is copied to another message. -/
def Kmsg.copyTo (kmsg newKmsg : Kmsg) : Kmsg where
  remotePort := newKmsg.remotePort
  packet i := if i < kmsg.count then kmsg.packet i else newKmsg.packet i
  header i := if i < netHdwHdrMax then kmsg.header i else newKmsg.header i
  count := kmsg.count

/-- `reorder_queue`: two neighbours change places. -/
def reorderQueue {α : Type*} [DecidableEq α] (next prev : α → α) (first last : α) :
    (α → α) × (α → α) :=
  let before := prev first
  let after := next last
  let next := update next before last
  let prev := update prev after first
  let prev := update prev last before
  let next := update next last first
  let next := update next first after
  let prev := update prev first last
  (next, prev)

/-- What the loop over the filters leaves: the messages, the list, and a filter to deallocate. -/
structure Outcome where
  sendList : List Kmsg
  rcvPortList : List NetRcvPort
  dead : Option NetRcvPort

/-- A filter of high priority goes in front of the one before it, when that has got fewer packets
and has the same priority. -/
def promote (before : List NetRcvPort) (infp : NetRcvPort) (rest : List NetRcvPort) :
    List NetRcvPort :=
  match before with
  | [] => infp :: rest
  | prevfp :: before =>
    if infp.priority = prevfp.priority ∧ 100 + prevfp.rcvCount < infp.rcvCount then
      before.reverse ++ infp :: prevfp :: rest
    else before.reverse ++ prevfp :: infp :: rest

/-- The loop of `net_filter`, when `net_kmsg_get` has a buffer each time; the filters that it has
come by are in reverse order. -/
def netFilterLoop (accepts : NetRcvPort → Bool) (active : ℕ → Bool) (kmsg : Kmsg)
    (buffer : ℕ → Kmsg) : List Kmsg → List NetRcvPort → List NetRcvPort → Outcome
  | sendList, before, [] => ⟨sendList, before.reverse, none⟩
  | sendList, before, infp :: rest =>
    if accepts infp then
      if active infp.rcvPort then
        let newKmsg := if sendList = [] then kmsg else kmsg.copyTo (buffer sendList.length)
        let sendList := sendList ++ [{ newKmsg with remotePort := infp.rcvPort }]
        let infp := { infp with rcvCount := infp.rcvCount + 1 }
        if netHiPri ≤ infp.priority then ⟨sendList, promote before infp rest, none⟩
        else netFilterLoop accepts active kmsg buffer sendList (infp :: before) rest
      -- the filter is dead, and the loop ends here
      else ⟨sendList, before.reverse ++ rest, some infp⟩
    else netFilterLoop accepts active kmsg buffer sendList (infp :: before) rest

/-- The filters of an interface, the ports that are alive and how many messages they queue. -/
structure System where
  ifp : Ifnet
  active : ℕ → Bool
  qlimit : ℕ → ℕ

def System.netFilter (s : System) (machine : Machine) (kmsg : Kmsg) (buffer : ℕ → Kmsg) :
    List Kmsg × System :=
  let o := netFilterLoop (machine.accepts kmsg) s.active kmsg buffer [] [] s.ifp.rcvPortList
  (o.sendList, { s with
    ifp := match o.dead with
      | none => { s.ifp with rcvPortList := o.rcvPortList }
      | some infp =>
        { rcvPortList := o.rcvPortList
          netQueueFreeMin := s.ifp.netQueueFreeMin - 1
          netKmsgMax := s.ifp.netKmsgMax - (infp.rcvQlimit + 1) } })

/-- Filters are set, packets come in, and ports change and die. -/
inductive Event
  | setFilter (new : NetRcvPort) (rcvPort : ℕ) (priority : ℤ) (filter : List FilterWord)
  | packet (machine : Machine) (kmsg : Kmsg) (buffer : ℕ → Kmsg)
  | ports (active : ℕ → Bool) (qlimit : ℕ → ℕ)

inductive Result
  | set (r : IoReturn)
  | delivered (sendList : List Kmsg)
  | done

/-- No result stands for a filter that is written behind its array. While `net_set_filter` has the
list unlocked others may go first; it looks the port up again afterwards. -/
def System.step (s : System) : Event → Option (Result × System)
  | .setFilter new rcvPort priority filter =>
    (netSetFilter s.ifp id new rcvPort priority filter
      (if s.active rcvPort then s.qlimit rcvPort else 0)).map fun r =>
        (.set r.1, { s with ifp := r.2 })
  | .packet machine kmsg buffer =>
    let r := s.netFilter machine kmsg buffer
    some (.delivered r.1, r.2)
  | .ports active qlimit => some (.done, { s with active, qlimit })

/-! What filters are to get. -/

/-- Who gets a packet: the live filters that accept it, up to one of high priority. -/
def receivers (accepts : NetRcvPort → Bool) (active : ℕ → Bool) : List NetRcvPort → List ℕ
  | [] => []
  | infp :: rest =>
    if accepts infp ∧ active infp.rcvPort then
      infp.rcvPort :: if netHiPri ≤ infp.priority then [] else receivers accepts active rest
    else receivers accepts active rest

/-- The first dead filter that accepts a packet before it is no longer given on. -/
def firstDead (accepts : NetRcvPort → Bool) (active : ℕ → Bool) :
    List NetRcvPort → Option NetRcvPort
  | [] => none
  | infp :: rest =>
    if accepts infp then
      if active infp.rcvPort then
        if netHiPri ≤ infp.priority then none else firstDead accepts active rest
      else some infp
    else firstDead accepts active rest

/-- A message with the packet of another. -/
structure Kmsg.Holds (m kmsg : Kmsg) : Prop where
  count : m.count = kmsg.count
  packet : ∀ i < kmsg.count, m.packet i = kmsg.packet i
  header : ∀ i < netHdwHdrMax, m.header i = kmsg.header i

/-- A filter apart from how many packets it has got. -/
def anyCount (infp : NetRcvPort) : NetRcvPort := { infp with rcvCount := 0 }

/-- What is kept in order: the filters by their priorities, each for a port of its own, and the
numbers of buffers for them. -/
structure Kept (freeMin kmsgMax : ℕ) (s : System) : Prop where
  ordered : (s.ifp.rcvPortList.map NetRcvPort.priority).Pairwise (· ≥ ·)
  single : (s.ifp.rcvPortList.map NetRcvPort.rcvPort).Nodup
  freeMin : s.ifp.netQueueFreeMin = freeMin + s.ifp.rcvPortList.length
  kmsgMax : s.ifp.netKmsgMax = kmsgMax + (s.ifp.rcvPortList.map fun infp => infp.rcvQlimit + 1).sum

/-- What the calls are to do. -/
def Serves (s : System) (e : Event) (r : Result) (s' : System) : Prop :=
  match e, r with
  | .setFilter _ rcvPort priority filter, .set r =>
    if parseNetFilter filter then
      r = .success ∧
        (∃ infp ∈ s'.ifp.rcvPortList, infp.rcvPort = rcvPort ∧ infp.priority = priority ∧
          infp.words = filter) ∧
        s'.ifp.rcvPortList.filter (fun infp => infp.rcvPort ≠ rcvPort) =
          s.ifp.rcvPortList.filter fun infp => infp.rcvPort ≠ rcvPort
    else r = .invalidOperation ∧ s' = s
  | .packet machine kmsg _, .delivered sendList =>
    sendList.map Kmsg.remotePort = receivers (machine.accepts kmsg) s.active s.ifp.rcvPortList ∧
      (∀ m ∈ sendList, m.Holds kmsg) ∧
      (((firstDead (machine.accepts kmsg) s.active s.ifp.rcvPortList).toList ++
        s'.ifp.rcvPortList).map anyCount).Perm (s.ifp.rcvPortList.map anyCount)
  | .ports .., .done => s'.ifp = s.ifp
  | _, _ => False

def spec (freeMin kmsgMax : ℕ) (a : System) (e : Event) (r : Result) (a' s' : System) : Prop :=
  a' = s' ∧ Kept freeMin kmsgMax s' ∧ Serves a e r s'

/-- The first dead filter that is found keeps the packet from nobody. -/
def Costless (accepts : NetRcvPort → Bool) (active : ℕ → Bool) : List NetRcvPort → Prop
  | [] => True
  | infp :: rest =>
    if accepts infp then
      if active infp.rcvPort then netHiPri ≤ infp.priority ∨ Costless accepts active rest
      else ∀ next ∈ rest, ¬(accepts next ∧ active next.rcvPort)
    else Costless accepts active rest

/-- Filters that are set fit in their array, and a dead filter is found only where the packet is for
no other filter after it. -/
def Fits (s : System) : Event → Prop
  | .setFilter _ _ _ filter => parseNetFilter filter → filter.length ≤ netMaxFilter
  | .packet machine kmsg _ => Costless (machine.accepts kmsg) s.active s.ifp.rcvPortList
  | .ports .. => True

section NetInput
variable {accepts : NetRcvPort → Bool} {active : ℕ → Bool} {kmsg : Kmsg} {buffer : ℕ → Kmsg}

/-! The loop over the filters. -/

/-- What `promote` does with the list is what `reorder_queue` does with the links. -/
theorem linked_reorderQueue {α : Type*} [DecidableEq α] {next prev : α → α} {h first last : α}
    {pre post : List α} (hl : Doubly.Linked next prev h (pre ++ first :: last :: post)) :
    Doubly.Linked (reorderQueue next prev first last).1 (reorderQueue next prev first last).2 h
      (pre ++ last :: first :: post) := by
  have hsplit : pre ++ first :: last :: post = (pre ++ [first]) ++ last :: post := by simp
  have hnodup := hl.nodup
  have hfirst : prev last = first := by
    have hat := (hsplit ▸ hl).links_at.2
    rw [getLast?_concat] at hat
    exact hat
  have hbefore : prev first ∈ h :: pre := by
    have hat : prev first = pre.getLast?.getD h := hl.links_at.2
    rw [hat]
    cases hlast : pre.getLast? with
    | none => exact mem_cons_self
    | some c => exact .tail h (List.mem_of_getLast? hlast)
  rw [← cons_append] at hnodup
  obtain ⟨-, hpost, hdisj⟩ := nodup_append.1 hnodup
  have hbeforeFirst : prev first ≠ first := hdisj _ hbefore _ mem_cons_self
  have hbeforeLast : prev first ≠ last :=
    hdisj _ hbefore _ (mem_cons_of_mem _ mem_cons_self)
  have hne : last ≠ first := fun heq =>
    (nodup_cons.1 hpost).1 (heq ▸ mem_cons_self)
  have hafter : next last ≠ first := by
    have hl' := hl
    rw [hsplit, append_cons (pre ++ [first]) last post] at hl'
    have hat := hl'.links_at.1
    rw [getLast?_concat, Option.getD_some] at hat
    rintro heq
    rw [hat] at heq
    cases post with
    | nil => exact (nodup_cons.1 hnodup).1 (by rw [show h = first from heq]; simp)
    | cons c post =>
      obtain rfl : c = first := heq
      simp [nodup_append] at hnodup
  -- the second one is taken out, and put in front of the first
  have hmoved := (hsplit ▸ hl).remove
  rw [append_assoc, singleton_append, hfirst] at hmoved
  have hnew : last ∉ h :: (pre ++ first :: post) := by
    rw [cons_append, hsplit, ← cons_append] at hnodup
    have hlast := (nodup_cons.1 (List.nodup_middle.1 hnodup)).1
    simpa using hlast
  have hput := hmoved.insert (b := first) rfl hnew
  rw [update_of_ne hafter.symm] at hput
  have hcomm : (reorderQueue next prev first last).1 = update (update
      (update next first (next last)) last first) (prev first) last := by
    unfold reorderQueue
    dsimp only
    rw [update_comm hne, update_comm hbeforeFirst, update_comm hbeforeLast]
  rw [hcomm]
  exact hput

theorem linked_reorderQueue_last :
    let p := reorderQueue (fun i => (i + 1) % 4) (fun i => (i + 3) % 4) 2 3
    Doubly.Linked p.1 p.2 0 [1, 3, 2] := by
  have hl : Doubly.Linked (fun i => (i + 1) % 4) (fun i => (i + 3) % 4) 0 ([1] ++ [2, 3]) :=
    ⟨by decide, by unfold Doubly.Links; decide⟩
  exact linked_reorderQueue hl

/-- Who gets a packet as the code has it: the loop ends at a dead filter. -/
def sentTo (accepts : NetRcvPort → Bool) (active : ℕ → Bool) : List NetRcvPort → List ℕ
  | [] => []
  | infp :: rest =>
    if accepts infp then
      if active infp.rcvPort then
        infp.rcvPort :: if netHiPri ≤ infp.priority then [] else sentTo accepts active rest
      else []
    else sentTo accepts active rest

theorem receivers_nil {l : List NetRcvPort} : receivers accepts active l = [] ↔
    ∀ infp ∈ l, ¬(accepts infp ∧ active infp.rcvPort) := by
  induction l with
  | nil => exact iff_of_true rfl nofun
  | cons infp l ih =>
    unfold receivers
    rw [forall_mem_cons]
    split
    · next hinfp => exact iff_of_false (cons_ne_nil _ _) fun h => h.1 hinfp
    · next hinfp => rw [ih, and_iff_right hinfp]

theorem sentTo_eq_receivers {l : List NetRcvPort} :
    sentTo accepts active l = receivers accepts active l ↔ Costless accepts active l := by
  induction l with
  | nil => exact iff_of_true rfl trivial
  | cons infp l ih =>
    unfold sentTo receivers Costless
    by_cases haccepts : accepts infp
    · by_cases hactive : active infp.rcvPort
      · simp only [haccepts, hactive, and_self, if_true, List.cons.injEq, true_and]
        split
        · next hpri => exact iff_of_true rfl (.inl hpri)
        · next hpri => rw [ih, or_iff_right hpri]
      · simp only [haccepts, hactive, Bool.false_eq_true, and_false, if_true, if_false]
        rw [eq_comm, receivers_nil]
    · simp only [haccepts, Bool.false_eq_true, false_and, if_false, ih]

theorem Kmsg.holds_copyTo (kmsg newKmsg : Kmsg) (port : ℕ) :
    Kmsg.Holds { kmsg.copyTo newKmsg with remotePort := port } kmsg where
  count := rfl
  packet _ hi := if_pos hi
  header _ hi := if_pos hi

theorem promote_priority (before : List NetRcvPort) (infp : NetRcvPort) (rest : List NetRcvPort) :
    (promote before infp rest).map NetRcvPort.priority =
      (before.reverse ++ infp :: rest).map NetRcvPort.priority := by
  unfold promote
  split
  · rfl
  · next prevfp before =>
    rw [List.reverse_cons, append_assoc, singleton_append]
    split
    · next hcond =>
      rw [map_append, map_append, map_cons, map_cons, map_cons, map_cons, hcond.1]
    · rfl

theorem promote_perm (before : List NetRcvPort) (infp : NetRcvPort) (rest : List NetRcvPort) :
    (promote before infp rest).Perm (before.reverse ++ infp :: rest) := by
  unfold promote
  split
  · rfl
  · next prevfp before =>
    rw [List.reverse_cons, append_assoc, singleton_append]
    split
    · exact (List.Perm.swap ..).append_left _
    · rfl

variable (accepts active kmsg buffer) in
theorem netFilterLoop_spec (sendList : List Kmsg) (before rest : List NetRcvPort) :
    ∃ msgs l, netFilterLoop accepts active kmsg buffer sendList before rest =
        ⟨sendList ++ msgs, l, firstDead accepts active rest⟩ ∧
      msgs.map Kmsg.remotePort = sentTo accepts active rest ∧ (∀ m ∈ msgs, m.Holds kmsg) ∧
      (((firstDead accepts active rest).toList ++ l).map anyCount).Perm
        ((before.reverse ++ rest).map anyCount) ∧
      (l.map NetRcvPort.priority).Sublist ((before.reverse ++ rest).map NetRcvPort.priority) := by
  induction rest generalizing sendList before with
  | nil =>
    refine ⟨[], before.reverse, ?_, rfl, nofun, ?_, ?_⟩
    · rw [append_nil]
      rfl
    · rw [append_nil]
      rfl
    · rw [append_nil]
  | cons infp rest ih =>
    have hmove : ∀ infp', anyCount infp' = anyCount infp → infp'.priority = infp.priority →
        ((infp' :: before).reverse ++ rest).map anyCount =
            (before.reverse ++ infp :: rest).map anyCount ∧
          ((infp' :: before).reverse ++ rest).map NetRcvPort.priority =
            (before.reverse ++ infp :: rest).map NetRcvPort.priority := by
      intro infp' hany hpri
      rw [List.reverse_cons, append_assoc, singleton_append]
      simp only [map_append, map_cons, hany, hpri, and_self]
    unfold netFilterLoop sentTo firstDead
    split
    · split
      · dsimp only
        have hholds : Kmsg.Holds { (if sendList = [] then kmsg
            else kmsg.copyTo (buffer sendList.length)) with remotePort := infp.rcvPort } kmsg := by
          split
          · exact ⟨rfl, fun _ _ => rfl, fun _ _ => rfl⟩
          · exact kmsg.holds_copyTo _ _
        generalize hm : ({ (if sendList = [] then kmsg
          else kmsg.copyTo (buffer sendList.length)) with remotePort := infp.rcvPort } : Kmsg) = m
          at hholds
        have hport : m.remotePort = infp.rcvPort := hm ▸ rfl
        obtain ⟨hany, hpriority⟩ := hmove { infp with rcvCount := infp.rcvCount + 1 } rfl rfl
        split
        · -- a filter of high priority ends the loop
          refine ⟨[m], _, rfl, ?_, fun x hx => mem_singleton.1 hx ▸ hholds, ?_, ?_⟩
          · rw [List.map_singleton, hport]
          · rw [Option.toList_none, nil_append, ← hany]
            refine ((promote_perm ..).map anyCount).trans (List.Perm.of_eq ?_)
            rw [List.reverse_cons, append_assoc, singleton_append]
          · rw [promote_priority, ← hpriority, List.reverse_cons, append_assoc, singleton_append]
        · obtain ⟨msgs, l, heq, hports, hmsgs, hperm, hsub⟩ :=
            ih (sendList ++ [m]) ({ infp with rcvCount := infp.rcvCount + 1 } :: before)
          rw [hany] at hperm
          rw [hpriority] at hsub
          refine ⟨m :: msgs, l, ?_, ?_, ?_, hperm, hsub⟩
          · rw [heq, append_assoc, singleton_append]
          · rw [map_cons, hports, hport]
          · exact forall_mem_cons.2 ⟨hholds, hmsgs⟩
      · -- a dead filter ends it as well
        refine ⟨[], before.reverse ++ rest, ?_, rfl, nofun, ?_, ?_⟩
        · rw [append_nil]
        · rw [Option.toList_some, singleton_append]
          exact List.perm_middle.symm.map anyCount
        · exact ((List.sublist_cons_self infp rest).append_left _).map _
    · obtain ⟨msgs, l, heq, hports, hmsgs, hperm, hsub⟩ := ih sendList (infp :: before)
      obtain ⟨hany, hpriority⟩ := hmove infp rfl rfl
      rw [hany] at hperm
      rw [hpriority] at hsub
      exact ⟨msgs, l, heq, hports, hmsgs, hperm, hsub⟩

/-! Setting a filter. -/

variable {freeMin kmsgMax qlimit rcvPort : ℕ} {priority : ℤ} {filter : List FilterWord}
  {s : System} {machine : Machine} {infp new : NetRcvPort} {l : List NetRcvPort}

theorem copyFilter_fields {p q : NetRcvPort} {i : ℕ} (h : p.copyFilter i filter = some q) :
    q.rcvPort = p.rcvPort ∧ q.rcvQlimit = p.rcvQlimit ∧ q.priority = p.priority := by
  induction filter generalizing p i with
  | nil =>
    obtain rfl := Option.some.inj h
    exact ⟨rfl, rfl, rfl⟩
  | cons word filter ih =>
    unfold NetRcvPort.copyFilter at h
    split at h
    · obtain ⟨hport, hqlimit, hpriority⟩ := ih h
      exact ⟨hport, hqlimit, hpriority⟩
    · cases h

theorem copyFilter_isSome {p : NetRcvPort} :
    (p.copyFilter 0 filter).isSome ↔ filter.length ≤ netMaxFilter := by
  have hspec := p.copyFilter_spec 0 filter (Nat.zero_le _)
  cases h : p.copyFilter 0 filter with
  | none =>
    rw [h] at hspec
    exact iff_of_false nofun (by dsimp only at hspec; omega)
  | some q =>
    rw [h] at hspec
    exact iff_of_true rfl (by have := hspec.1; omega)

theorem insertPriority_perm (infp : NetRcvPort) (l : List NetRcvPort) :
    (insertPriority infp l).Perm (infp :: l) := by
  induction l with
  | nil => rfl
  | cons next l ih =>
    unfold insertPriority
    split
    · rfl
    · exact (ih.cons next).trans (List.Perm.swap ..)

theorem insertPriority_ordered (infp : NetRcvPort)
    (h : (l.map NetRcvPort.priority).Pairwise (· ≥ ·)) :
    ((insertPriority infp l).map NetRcvPort.priority).Pairwise (· ≥ ·) := by
  induction l with
  | nil => exact pairwise_singleton _ _
  | cons next l ih =>
    obtain ⟨hnext, hl⟩ := pairwise_cons.1 h
    unfold insertPriority
    split
    · next hlow =>
      refine pairwise_cons.2 ⟨forall_mem_cons.2 ⟨hlow.le, fun b hb => ?_⟩, h⟩
      exact (hnext b hb).trans hlow.le
    · next hlow =>
      refine pairwise_cons.2 ⟨fun b hb => ?_, ih hl⟩
      obtain hb | hb := mem_cons.1 (((insertPriority_perm infp l).map _).mem_iff.1 hb)
      · exact hb ▸ not_lt.1 hlow
      · exact hnext b hb

theorem filter_insertPriority {p : NetRcvPort → Bool} (h : p infp = false) :
    (insertPriority infp l).filter p = l.filter p := by
  induction l with
  | nil => simp [insertPriority, h]
  | cons next l ih =>
    unfold insertPriority
    split
    · exact List.filter_cons_of_neg (by simp [h])
    · rw [List.filter_cons, List.filter_cons, ih]

/-- What a filter that is accepted changes: it takes the place of the one of its port, or it is one
more. -/
theorem netSetFilter_cases {ifp ifp' : Ifnet} {r : IoReturn} (hparse : parseNetFilter filter)
    (h : netSetFilter ifp id new rcvPort priority filter qlimit = some (r, ifp')) :
    r = .success ∧ ∃ infp l, infp.rcvPort = rcvPort ∧ infp.priority = priority ∧
      infp.words = filter ∧ ifp'.rcvPortList = insertPriority infp l ∧ l.Sublist ifp.rcvPortList ∧
      l.filter (fun infp => infp.rcvPort ≠ rcvPort) =
        ifp.rcvPortList.filter (fun infp => infp.rcvPort ≠ rcvPort) ∧
      ((∃ old, ifp.rcvPortList.Perm (old :: l) ∧ old.rcvPort = rcvPort ∧
          old.rcvQlimit = infp.rcvQlimit ∧ ifp'.netQueueFreeMin = ifp.netQueueFreeMin ∧
          ifp'.netKmsgMax = ifp.netKmsgMax) ∨
        l = ifp.rcvPortList ∧ (∀ other ∈ l, other.rcvPort ≠ rcvPort) ∧
          ifp'.netQueueFreeMin = ifp.netQueueFreeMin + 1 ∧
          ifp'.netKmsgMax = ifp.netKmsgMax + (infp.rcvQlimit + 1)) := by
  unfold netSetFilter at h
  rw [if_neg (by simp [hparse])] at h
  simp only [id_eq, ite_self] at h
  split at h
  · next old hfind =>
    obtain ⟨hport, pre, post, hlist, hpre⟩ := List.find?_eq_some_iff_append.1 hfind
    have hold : old.rcvPort = rcvPort := of_decide_eq_true hport
    have herase : ifp.rcvPortList.eraseP (fun infp => decide (infp.rcvPort = rcvPort)) =
        pre ++ post := by
      rw [hlist, List.eraseP_append_right _ fun b hb => by simpa using hpre b hb]
      exact congrArg (pre ++ ·) (List.eraseP_cons_of_pos hport)
    rw [herase] at h
    split at h
    · cases h
    · next infp hcopy =>
      obtain ⟨rfl, rfl⟩ := Prod.mk.inj (Option.some.inj h)
      obtain ⟨hinfp, hqlimit, hpriority⟩ := copyFilter_fields hcopy
      refine ⟨rfl, infp, pre ++ post, hinfp.trans hold, hpriority,
        NetRcvPort.copyFilter_words hcopy, rfl, ?_, ?_,
        .inl ⟨old, ?_, hold, hqlimit.symm, rfl, rfl⟩⟩
      · rw [hlist]
        exact (List.sublist_cons_self old post).append_left pre
      · rw [hlist, List.filter_append, List.filter_append, List.filter_cons_of_neg (by simp [hold])]
      · rw [hlist]
        exact List.perm_middle
  · next hfind =>
    split at h
    · cases h
    · next infp hcopy =>
      obtain ⟨rfl, rfl⟩ := Prod.mk.inj (Option.some.inj h)
      obtain ⟨hport, -, hpriority⟩ := copyFilter_fields hcopy
      refine ⟨rfl, { infp with rcvQlimit := qlimit }, ifp.rcvPortList, hport, hpriority,
        (NetRcvPort.copyFilter_words hcopy : infp.words = filter), rfl, List.Sublist.refl _, rfl,
        .inr ⟨rfl, fun other hother => ?_, rfl, Nat.add_assoc ..⟩⟩
      simpa using find?_eq_none.1 hfind other hother

theorem Kept.setFilter {ifp : Ifnet} {r : IoReturn} (h : Kept freeMin kmsgMax s)
    (hset : netSetFilter s.ifp id new rcvPort priority filter qlimit = some (r, ifp)) :
    Kept freeMin kmsgMax { s with ifp } := by
  by_cases hparse : parseNetFilter filter
  · obtain ⟨-, infp, l, hport, -, -, hlist, hsub, -, hcases⟩ := netSetFilter_cases hparse hset
    have hperm := insertPriority_perm infp l
    rw [← hlist] at hperm
    have hordered := insertPriority_ordered infp (h.ordered.sublist (hsub.map NetRcvPort.priority))
    rw [← hlist] at hordered
    have hlength := hperm.length_eq
    have hsum := (hperm.map fun infp => infp.rcvQlimit + 1).sum_nat
    have hsingle := (hperm.map NetRcvPort.rcvPort).nodup_iff
    rw [length_cons] at hlength
    rw [map_cons, List.sum_cons] at hsum
    rw [map_cons, hport] at hsingle
    obtain ⟨old, hold, holdPort, hqlimit, hmin, hmax⟩ | ⟨rfl, hothers, hmin, hmax⟩ := hcases
    · have hwas := (hold.map NetRcvPort.rcvPort).nodup_iff.1 h.single
      rw [map_cons, holdPort] at hwas
      have holdLength := hold.length_eq
      have holdSum := (hold.map fun infp => infp.rcvQlimit + 1).sum_nat
      rw [length_cons] at holdLength
      rw [map_cons, List.sum_cons, hqlimit] at holdSum
      refine ⟨hordered, hsingle.2 hwas, ?_, ?_⟩
      · rw [hmin, h.freeMin, holdLength, hlength]
      · rw [hmax, h.kmsgMax, holdSum, hsum]
    · refine ⟨hordered, hsingle.2 (nodup_cons.2 ⟨fun hmem => ?_, h.single⟩), ?_, ?_⟩
      · obtain ⟨other, hother, heq⟩ := mem_map.1 hmem
        exact hothers other hother heq
      · rw [hmin, h.freeMin, hlength, Nat.add_assoc]
      · rw [hmax, h.kmsgMax, hsum]
        omega
  · unfold netSetFilter at hset
    rw [if_pos (Bool.eq_false_of_not_eq_true hparse)] at hset
    obtain ⟨-, rfl⟩ := Prod.mk.inj (Option.some.inj hset)
    exact h

theorem setFilter_serves {r : Result} {s' : System}
    (hstep : s.step (.setFilter new rcvPort priority filter) = some (r, s')) :
    Serves s (.setFilter new rcvPort priority filter) r s' := by
  obtain ⟨⟨r, ifp⟩, hset, heq⟩ := Option.map_eq_some_iff.1 hstep
  obtain ⟨rfl, rfl⟩ := Prod.mk.inj heq
  unfold Serves
  by_cases hparse : parseNetFilter filter
  · obtain ⟨rfl, infp, l, hport, hpriority, hwords, hlist, -, hothers, -⟩ :=
      netSetFilter_cases hparse hset
    dsimp only
    rw [if_pos hparse, hlist]
    refine ⟨rfl, ⟨infp, mem_insertPriority infp l, hport, hpriority, hwords⟩, ?_⟩
    rw [← hothers]
    exact filter_insertPriority (by simp [hport])
  · unfold netSetFilter at hset
    rw [if_pos (Bool.eq_false_of_not_eq_true hparse)] at hset
    obtain ⟨rfl, rfl⟩ := Prod.mk.inj (Option.some.inj hset)
    dsimp only
    rw [if_neg hparse]
    exact ⟨rfl, rfl⟩

theorem step_setFilter_isSome : (s.step (.setFilter new rcvPort priority filter)).isSome ↔
    Fits s (.setFilter new rcvPort priority filter) := by
  unfold System.step Fits
  dsimp only
  rw [Option.isSome_map]
  by_cases hparse : parseNetFilter filter
  · rw [imp_iff_right hparse]
    unfold netSetFilter
    rw [if_neg (by simp [hparse])]
    simp only [id_eq, ite_self]
    split
    all_goals
      split
      · next hcopy =>
        rw [← copyFilter_isSome, hcopy]
        exact iff_of_false nofun nofun
      · next hcopy =>
        rw [← copyFilter_isSome, hcopy]
        exact iff_of_true rfl rfl
  · unfold netSetFilter
    rw [if_pos (Bool.eq_false_of_not_eq_true hparse)]
    exact iff_of_true rfl fun h => absurd h hparse

/-! A packet. -/

theorem perm_of_anyCount {β : Type*} (f : NetRcvPort → β) (hf : ∀ infp, f (anyCount infp) = f infp)
    {l l' : List NetRcvPort} (h : (l.map anyCount).Perm (l'.map anyCount)) :
    (l.map f).Perm (l'.map f) := by
  have hmap := h.map f
  rwa [map_map, map_map, show f ∘ anyCount = f from funext hf] at hmap

theorem Kept.netFilter (h : Kept freeMin kmsgMax s) :
    Kept freeMin kmsgMax (s.netFilter machine kmsg buffer).2 := by
  obtain ⟨msgs, l, heq, -, -, hperm, hsub⟩ := netFilterLoop_spec (machine.accepts kmsg)
    s.active kmsg buffer [] [] s.ifp.rcvPortList
  rw [List.reverse_nil, nil_append] at hperm hsub
  have hports := (perm_of_anyCount NetRcvPort.rcvPort (fun _ => rfl) hperm).nodup_iff.2 h.single
  have hsum := (perm_of_anyCount (fun infp => infp.rcvQlimit + 1) (fun _ => rfl) hperm).sum_nat
  have hlength := hperm.length_eq
  have hmin := h.freeMin
  have hmax := h.kmsgMax
  rw [length_map, length_map] at hlength
  unfold System.netFilter
  rw [heq]
  dsimp only
  cases hdead : firstDead (machine.accepts kmsg) s.active s.ifp.rcvPortList with
  | none =>
    rw [hdead, Option.toList_none, nil_append] at hports hsum hlength
    exact ⟨h.ordered.sublist hsub, hports, by rw [hmin, hlength], by rw [hmax, hsum]⟩
  | some infp =>
    rw [hdead, Option.toList_some, singleton_append] at hports hsum hlength
    rw [map_cons, List.sum_cons] at hsum
    rw [length_cons] at hlength
    refine ⟨h.ordered.sublist hsub, (nodup_cons.1 hports).2, ?_, ?_⟩
    · dsimp only
      omega
    · dsimp only
      omega

theorem packet_serves : Serves s (.packet machine kmsg buffer)
    (.delivered (s.netFilter machine kmsg buffer).1) (s.netFilter machine kmsg buffer).2 ↔
    Costless (machine.accepts kmsg) s.active s.ifp.rcvPortList := by
  obtain ⟨msgs, l, heq, hports, hmsgs, hperm, -⟩ := netFilterLoop_spec (machine.accepts kmsg)
    s.active kmsg buffer [] [] s.ifp.rcvPortList
  have hlist : (s.netFilter machine kmsg buffer).2.ifp.rcvPortList = l := by
    unfold System.netFilter
    rw [heq]
    dsimp only
    split <;> rfl
  have hsent : (s.netFilter machine kmsg buffer).1 = msgs := by
    unfold System.netFilter
    rw [heq]
    rfl
  unfold Serves
  dsimp only
  rw [hlist, hsent, hports, sentTo_eq_receivers]
  exact and_iff_left ⟨hmsgs, hperm⟩

/-- Filters keep the order of their priorities, and each packet goes to the live filters that accept
it, exactly in the runs where filters that are set fit and no dead filter keeps a packet from
others. -/
theorem netFilters_serve (freeMin kmsgMax : ℕ) (active : ℕ → Bool) (qlimit : ℕ → ℕ)
    (es : List Event) :
    let start : System := ⟨⟨[], freeMin, kmsgMax⟩, active, qlimit⟩
    Does System.step (spec freeMin kmsgMax) start start es ↔ Along System.step Fits start es := by
  intro start
  have hstart : Kept freeMin kmsgMax start := ⟨.nil, .nil, rfl, rfl⟩
  refine Does.iff_along (fun s a => a = s ∧ Kept freeMin kmsgMax s) ?_ ?_ ⟨rfl, hstart⟩
  · rintro _ s e ⟨rfl, hkept⟩ hfits
    cases e with
    | setFilter new rcvPort priority filter =>
      obtain ⟨⟨r, s'⟩, hstep⟩ := Option.isSome_iff_exists.1 (step_setFilter_isSome.2 hfits)
      obtain ⟨⟨_, ifp⟩, hset, heq⟩ := Option.map_eq_some_iff.1 hstep
      obtain ⟨rfl, rfl⟩ := Prod.mk.inj heq
      have hkept' := hkept.setFilter hset
      exact ⟨_, _, _, hstep, ⟨rfl, hkept', setFilter_serves hstep⟩, rfl, hkept'⟩
    | packet machine kmsg buffer =>
      have hkept' : Kept freeMin kmsgMax (s.netFilter machine kmsg buffer).2 := hkept.netFilter
      exact ⟨_, _, _, rfl, ⟨rfl, hkept', packet_serves.2 hfits⟩, rfl, hkept'⟩
    | ports active qlimit =>
      have hkept' : Kept freeMin kmsgMax { s with active, qlimit } :=
        ⟨hkept.ordered, hkept.single, hkept.freeMin, hkept.kmsgMax⟩
      exact ⟨_, _, _, rfl, ⟨rfl, hkept', rfl⟩, rfl, hkept'⟩
  · rintro _ s e r s' a' ⟨rfl, -⟩ hstep ⟨rfl, hkept', hserves⟩
    refine ⟨?_, rfl, hkept'⟩
    cases e with
    | setFilter new rcvPort priority filter =>
      exact step_setFilter_isSome.1 (Option.isSome_iff_exists.2 ⟨_, hstep⟩)
    | packet machine kmsg buffer =>
      obtain ⟨rfl, rfl⟩ := Prod.mk.inj (Option.some.inj hstep)
      exact packet_serves.1 hserves
    | ports active qlimit => trivial

end NetInput

/-- Port 1 dies, and the packet does not come to the filter of port 2, which is behind it. -/
def deadRun : List Event :=
  [.setFilter newPort 1 20 [], .setFilter newPort 2 10 [], .ports (fun port => port ≠ 1) fun _ => 5,
    .packet ⟨i386, fun _ _ => 0, fun _ => false⟩ ⟨0, fun _ => 0, fun _ => 0, 4⟩
      fun _ => ⟨0, fun _ => 0, fun _ => 0, 0⟩]

theorem netFilters_lost :
    let start : System := ⟨⟨[], 0, 0⟩, fun _ => true, fun _ => 5⟩
    ¬ Does System.step (spec 0 0) start start deadRun := by
  rintro start ⟨_, _, _, h₁, ⟨rfl, -⟩, _, _, _, h₂, ⟨rfl, -⟩, _, _, _, h₃, ⟨rfl, -⟩, _, _, _, h₄,
    ⟨rfl, -, hserves⟩, -⟩
  obtain ⟨rfl, rfl⟩ := Prod.mk.inj (Option.some.inj h₁)
  obtain ⟨rfl, rfl⟩ := Prod.mk.inj (Option.some.inj h₂)
  obtain ⟨rfl, rfl⟩ := Prod.mk.inj (Option.some.inj h₃)
  obtain ⟨rfl, rfl⟩ := Prod.mk.inj (Option.some.inj h₄)
  have hports : [] = [2] := hserves.1
  cases hports

end MachKernel.Device.Net
