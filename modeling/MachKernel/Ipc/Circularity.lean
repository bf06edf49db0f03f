import MachKernel.Lib.Links

/-! Receive rights in transit, and the check that they never carry themselves
(`ipc_port_check_circularity`). -/

namespace MachKernel.Ipc
open Links Function Option List

abbrev PortId := ℕ

/-- The union in a port: its receiver, its destination, or the time of its death. -/
inductive PortData
  | receiver (space : ℕ)
  | destination (port : Option PortId)
  | timestamp (t : ℕ)

/-- The part of a port that says where its receive right is. -/
structure TransitPort where
  active : Bool
  receiverName : ℕ
  data : PortData
  references : ℕ

def machPortNull : ℕ := 0

/-- `ip_destination`; the other members of the union are no ports. -/
def TransitPort.ipDestination (p : TransitPort) : Option PortId :=
  match p.data with
  | .destination d => d
  | _ => none

/-- The destination of a port in transit. -/
def TransitPort.next (p : TransitPort) : Option PortId :=
  if p.active ∧ p.receiverName = machPortNull then p.ipDestination else none

/-- Neither held nor in transit. -/
structure TransitPort.InLimbo (p : TransitPort) : Prop where
  active : p.active = true
  receiverName : p.receiverName = machPortNull
  data : p.data = .destination none

/-- All ports, and those whose locks are held. -/
structure TransitState where
  ports : PortId → TransitPort
  locked : Finset PortId

open TransitState

namespace TransitState

def next (s : TransitState) (p : PortId) : Option PortId := (s.ports p).next

/-- `ip_lock`; locking a port twice would never return. -/
def ipLock (s : TransitState) (p : PortId) : Option TransitState :=
  if p ∈ s.locked then none else some { s with locked := insert p s.locked }

def ipUnlock (s : TransitState) (p : PortId) : TransitState :=
  { s with locked := s.locked.erase p }

/-- The search for the end of the chain, which locks its ports. -/
def lockChain : ℕ → PortId → TransitState → Option (PortId × TransitState)
  | 0, _, _ => none
  | turns + 1, base, s =>
    match s.ipLock base with
    | none => none
    | some s =>
      match s.next base with
      | none => some (base, s)
      | some b => lockChain turns b s

/-- Unlocks the ports from `dest` on, up to one without a destination. -/
def unlockChain : ℕ → Option PortId → TransitState → Option TransitState
  | 0, _, _ => none
  | _ + 1, none, s => some s
  | turns + 1, some dest, s =>
    unlockChain turns (s.ports dest).ipDestination (s.ipUnlock dest)

/-- Unlocks the ports from `port` on, up to `base`. -/
def unlockTo (base : PortId) : ℕ → PortId → TransitState → Option TransitState
  | 0, _, _ => none
  | turns + 1, port, s =>
    if port = base then some (s.ipUnlock base)
    else
      match (s.ports port).ipDestination with
      | none => none
      | some n => unlockTo base turns n (s.ipUnlock port)

def modify (s : TransitState) (p : PortId) (f : TransitPort → TransitPort) : TransitState :=
  { s with ports := update s.ports p (f (s.ports p)) }

def ipRelease (s : TransitState) (p : PortId) : TransitState :=
  s.modify p fun q => { q with references := q.references - 1 }

/-- A reference to `dest` is taken, and `port` goes in transit to it. -/
def enterTransit (s : TransitState) (port dest : PortId) : TransitState :=
  (s.modify dest fun p => { p with references := p.references + 1 }).modify port
    fun p => { p with data := .destination (some dest) }

/-- `ipc_port_check_circularity`; `lockTry` says whether `ip_lock_try(dest)` gets the lock. -/
def checkCircularity (turns : ℕ) (lockTry : Bool) (port dest : PortId) (s : TransitState) :
    Option (Bool × TransitState) :=
  if port = dest then some (true, s)
  else
    (s.ipLock port).bind fun s₁ =>
    if lockTry ∧ s₁.next dest = none then
      (s₁.ipLock dest).bind fun s₂ =>
      (unlockTo dest turns port (s₂.enterTransit port dest)).map fun s₃ => (false, s₃)
    else
      (lockChain turns dest (s₁.ipUnlock port)).bind fun r =>
      if port = r.1 then (unlockChain turns (some dest) r.2).map fun s₃ => (true, s₃)
      else
        (r.2.ipLock port).bind fun s₂ =>
        (unlockTo r.1 turns port (s₂.enterTransit port dest)).map fun s₃ => (false, s₃)

end TransitState

/-- What happens to receive rights: one is put in a message, a check lets it go in transit or not,
and one in transit is received, dies with its port, or is taken back out of its message. -/
inductive TransitStep (s : TransitState) : TransitState → Prop
  | copyin {port : PortId} (hactive : (s.ports port).active = true) (h : s.next port = none) :
      TransitStep s (s.modify port fun p =>
        { p with receiverName := machPortNull, data := .destination none })
  | check {port dest : PortId} {lockTry b : Bool} {s' : TransitState}
      (hlimbo : (s.ports port).InLimbo)
      (h : ∃ n, ∀ k, s.checkCircularity (n + k) lockTry port dest = some (b, s')) : TransitStep s s'
  | received {port dest : PortId} {space name : ℕ} (hname : name ≠ machPortNull)
      (h : s.next port = some dest) :
      TransitStep s ((s.modify port fun p =>
        { p with receiverName := name, data := .receiver space }).ipRelease dest)
  | died {port dest : PortId} {t : ℕ} (h : s.next port = some dest) :
      TransitStep s ((s.modify port fun p =>
        { p with active := false, data := .timestamp t }).ipRelease dest)
  | limbo {port dest : PortId} (h : s.next port = some dest) :
      TransitStep s ((s.modify port fun p => { p with data := .destination none }).ipRelease dest)

/-- Following destinations from `a` leads to `b`. -/
def Reaches (s : TransitState) (a b : PortId) : Prop :=
  Relation.ReflTransGen (fun x y => s.next x = some y) a b

/-! ## The walks -/

section
variable {s : TransitState} {a e p port dest : PortId} {l : List PortId}

theorem TransitPort.InLimbo.next (h : (s.ports p).InLimbo) : s.next p = none := by
  simp [TransitState.next, TransitPort.next, TransitPort.ipDestination, h.data]

theorem ipDestination_of_next {b : PortId} (h : s.next a = some b) :
    (s.ports a).ipDestination = some b := by
  unfold TransitState.next TransitPort.next at h
  split_ifs at h
  exact h

theorem lockChain_eq (h : Chain s.next a l e) (hn : l.Nodup) (hl : ∀ x ∈ l, x ∉ s.locked)
    (k : ℕ) : lockChain (l.length + k) a s =
      some (e, { s with locked := s.locked ∪ l.toFinset }) := by
  induction l generalizing s a with
  | nil => cases h
  | cons x l ih =>
    rw [length_cons, show l.length + 1 + k = l.length + k + 1 by omega]
    have hx : x ∉ s.locked := hl x mem_cons_self
    cases h with
    | last h =>
      simp only [lockChain, ipLock, hx, if_false]
      rw [show TransitState.next { s with locked := insert e s.locked } e = none from h]
      simp
    | @cons _ b _ _ h hc =>
      obtain ⟨hxl, hn⟩ := nodup_cons.mp hn
      simp only [lockChain, ipLock, hx, if_false]
      rw [show TransitState.next { s with locked := insert x s.locked } x = some b from h]
      have hfree : ∀ y ∈ l, y ∉ insert x s.locked := by
        intro y hy hmem
        rcases Finset.mem_insert.mp hmem with rfl | hmem
        · exact hxl hy
        · exact hl y (mem_cons_of_mem _ hy) hmem
      have := ih (s := { s with locked := insert x s.locked }) hc hn hfree
      simp only [this]
      simp [Finset.insert_union]

theorem unlockChain_eq (h : Chain s.next a l e) (he : (s.ports e).ipDestination = none) (k : ℕ) :
    unlockChain (l.length + 1 + k) (some a) s =
      some { s with locked := s.locked \ l.toFinset } := by
  induction l generalizing s a with
  | nil => cases h
  | cons x l ih =>
    rw [length_cons, show l.length + 1 + 1 + k = l.length + 1 + k + 1 by omega]
    cases h with
    | last h =>
      rw [unlockChain, he, show [].length + 1 + k = k + 1 by simp; omega,
        unlockChain]
      simp [ipUnlock, Finset.sdiff_singleton_eq_erase]
    | @cons _ b _ _ h hc =>
      rw [unlockChain, ipDestination_of_next h, ih (s := s.ipUnlock x) hc he]
      simp only [ipUnlock, toFinset_cons]
      congr 2
      ext y
      simp only [Finset.mem_sdiff, Finset.mem_erase, Finset.mem_insert]
      tauto

theorem unlockTo_eq (h : Chain s.next a l e) (k : ℕ) :
    unlockTo e (l.length + k) a s = some { s with locked := s.locked \ l.toFinset } := by
  induction l generalizing s a with
  | nil => cases h
  | cons x l ih =>
    rw [length_cons, show l.length + 1 + k = l.length + k + 1 by omega]
    cases h with
    | last h =>
      rw [unlockTo, if_pos rfl]
      simp [ipUnlock, Finset.sdiff_singleton_eq_erase]
    | @cons _ b _ _ h hc =>
      have hne : x ≠ e := by
        rintro rfl
        rw [hc.end_none] at h
        cases h
      rw [unlockTo, if_neg hne, ipDestination_of_next h]
      simp only []
      rw [ih (s := s.ipUnlock x) hc]
      simp only [ipUnlock, toFinset_cons]
      congr 2
      ext y
      simp only [Finset.mem_sdiff, Finset.mem_erase, Finset.mem_insert]
      tauto

/-! ## The check -/

theorem ipDestination_of_limbo (h : (s.ports p).InLimbo) : (s.ports p).ipDestination = none := by
  simp [TransitPort.ipDestination, h.data]

theorem ports_enterTransit (s : TransitState) (hne : port ≠ dest) :
    (s.enterTransit port dest).ports = update (update s.ports dest
      { s.ports dest with references := (s.ports dest).references + 1 }) port
      { s.ports port with data := .destination (some dest) } := by
  simp [TransitState.enterTransit, TransitState.modify, update_of_ne hne]

theorem next_enterTransit (hlimbo : (s.ports port).InLimbo) (hne : port ≠ dest) :
    (s.enterTransit port dest).next = update s.next port (some dest) := by
  funext q
  unfold TransitState.next
  rw [ports_enterTransit s hne]
  rcases eq_or_ne q port with rfl | hq
  · rw [update_self, update_self]
    simp [TransitPort.next, TransitPort.ipDestination, hlimbo.active, hlimbo.receiverName]
  · rw [update_of_ne hq, update_of_ne hq]
    rcases eq_or_ne q dest with rfl | hd
    · rw [update_self]
      rfl
    · rw [update_of_ne hd]

/-- Once the chain from `dest` and `port` are locked, the new link is made and all is unlocked. -/
theorem unlockTo_enterTransit (s' : TransitState) (hlimbo : (s.ports port).InLimbo)
    (hc : Chain s.next dest l e) (hport : port ∉ l) (hs' : s'.ports = s.ports)
    (hlocked : s'.locked = insert port l.toFinset) (k : ℕ) :
    unlockTo e (l.length + 1 + k) port (s'.enterTransit port dest) =
      some { s'.enterTransit port dest with locked := ∅ } := by
  have hne : port ≠ dest := by
    rintro rfl
    exact hport (hc.mem_iff.mpr .refl)
  have hnext' : (s'.enterTransit port dest).next = update s.next port (some dest) := by
    have hsame : s'.next = s.next := by
      funext q
      simp only [TransitState.next, hs']
    rw [← hsame]
    exact next_enterTransit (by rw [hs']; exact hlimbo) hne
  have hchain : Chain (s'.enterTransit port dest).next port (port :: l) e := by
    rw [hnext']
    refine .cons (update_self _ _ _) (hc.congr fun x hx => ?_)
    exact update_of_ne (by rintro rfl; exact hport hx) _ _
  have hun := unlockTo_eq hchain k
  rw [length_cons] at hun
  rw [hun]
  congr 2
  have hl : (s'.enterTransit port dest).locked = s'.locked := rfl
  rw [hl, hlocked, toFinset_cons, Finset.sdiff_self]

/-- The call ends, tells whether the destinations lead from `dest` to `port`, and makes the link if
they do not. -/
theorem checkCircularity_spec (dest : PortId) (hac : Acyclic s.next) (hlocked : s.locked = ∅)
    (hlimbo : (s.ports port).InLimbo) (lockTry : Bool) : ∃ n b s',
      (∀ k, s.checkCircularity (n + k) lockTry port dest = some (b, s')) ∧
      (b = true ↔ Reaches s dest port) ∧ (b = true → s' = s) ∧
      (b = false → s' = s.enterTransit port dest) := by
  by_cases hpd : port = dest
  · subst hpd
    refine ⟨0, true, s, fun k => ?_, ?_, fun _ => rfl, fun h => by cases h⟩
    · rw [checkCircularity, if_pos rfl]
    · exact ⟨fun _ => .refl, fun _ => rfl⟩
  obtain ⟨l, e, hc⟩ := hac.chain dest
  have hreach : port ∈ l ↔ Reaches s dest port := hc.mem_iff
  have hself : ({ s with locked := ∅ } : TransitState) = s := by rw [← hlocked]
  have hlockPort : s.ipLock port = some { s with locked := {port} } := by
    simp [ipLock, hlocked]
  have hunlockPort : ipUnlock { s with locked := {port} } port = s := by
    simpa [ipUnlock] using hself
  by_cases hfast : lockTry = true ∧ TransitState.next { s with locked := {port} } dest = none
  · -- the destination is not in transit: it is the whole chain
    have hl : l = [dest] ∧ dest = e := by
      cases hc with
      | last h => exact ⟨rfl, rfl⟩
      | cons h _ =>
        rw [show s.next dest = none from hfast.2] at h
        cases h
    obtain ⟨rfl, rfl⟩ := hl
    have hport : port ∉ [dest] := by simpa using hpd
    refine ⟨[dest].length + 1, false, s.enterTransit port dest, fun k => ?_, ?_, by simp,
      fun _ => rfl⟩
    · rw [checkCircularity, if_neg hpd, hlockPort]
      simp only [bind_some]
      rw [if_pos hfast]
      have hd : dest ∉ ({port} : Finset PortId) := by simpa using Ne.symm hpd
      rw [ipLock, if_neg hd, bind_some]
      have hun := unlockTo_enterTransit ⟨s.ports, insert dest {port}⟩ hlimbo hc hport rfl
        (by simp [Finset.pair_comm]) k
      exact (congrArg (Option.map fun s₃ => (false, s₃)) hun).trans
        (congrArg (fun t => some (false, enterTransit t port dest)) hself)
    · rw [← hreach]
      simpa using hpd
  have hlock := lockChain_eq hc (hc.nodup hac) (fun x _ => by simp [hlocked])
  rw [hlocked, Finset.empty_union] at hlock
  by_cases hpe : port = e
  · -- the chain from the destination ends at the port
    have hmem : port ∈ l := hpe ▸ hc.end_mem
    have hun : ∀ k, unlockChain (l.length + 1 + k) (some dest)
        { s with locked := l.toFinset } = some s := by
      intro k
      have h : Chain (TransitState.next { s with locked := l.toFinset }) dest l e := hc
      rw [unlockChain_eq h (hpe ▸ ipDestination_of_limbo hlimbo), Finset.sdiff_self]
      exact congrArg some hself
    refine ⟨l.length + 1, true, s, fun k => ?_, by simp [← hreach, hmem], fun _ => rfl, by simp⟩
    rw [checkCircularity, if_neg hpd, hlockPort]
    simp only [bind_some]
    rw [if_neg hfast, hunlockPort, show l.length + 1 + k = l.length + (1 + k) by omega, hlock]
    simp only [bind_some, if_pos hpe]
    rw [show l.length + (1 + k) = l.length + 1 + k by omega, hun]
    rfl
  · have hport : port ∉ l := fun hmem => hpe (hc.eq_end hmem hlimbo.next)
    refine ⟨l.length + 1, false, s.enterTransit port dest, fun k => ?_, ?_, by simp, fun _ => rfl⟩
    · rw [checkCircularity, if_neg hpd, hlockPort]
      simp only [bind_some]
      rw [if_neg hfast, hunlockPort, show l.length + 1 + k = l.length + (1 + k) by omega, hlock]
      simp only [bind_some, if_neg hpe]
      have hp : port ∉ l.toFinset := by simpa using hport
      rw [ipLock, if_neg hp, bind_some,
        show l.length + (1 + k) = l.length + 1 + k by omega]
      have hun := unlockTo_enterTransit ⟨s.ports, insert port l.toFinset⟩ hlimbo hc hport rfl rfl k
      exact (congrArg (Option.map fun s₃ => (false, s₃)) hun).trans
        (congrArg (fun t => some (false, enterTransit t port dest)) hself)
    · rw [← hreach]
      simpa using hport

/-! ## Runs -/

theorem next_modify (s : TransitState) (p : PortId) (f : TransitPort → TransitPort) :
    (s.modify p f).next = update s.next p (f (s.ports p)).next := by
  funext q
  show (update s.ports p (f (s.ports p)) q).next = _
  rcases eq_or_ne q p with rfl | hq
  · rw [update_self, update_self]
  · rw [update_of_ne hq, update_of_ne hq]
    rfl

theorem next_ipRelease (s : TransitState) (p : PortId) : (s.ipRelease p).next = s.next := by
  rw [ipRelease, next_modify]
  exact update_eq_self p s.next

theorem Acyclic.enterTransit (hac : Acyclic s.next) (hlimbo : (s.ports port).InLimbo)
    (h : ¬ Reaches s dest port) : Acyclic (s.enterTransit port dest).next := by
  have hne : port ≠ dest := by
    rintro rfl
    exact h .refl
  rw [next_enterTransit hlimbo hne]
  exact Links.Acyclic.update_link hac hlimbo.next h

theorem TransitStep.acyclic {s' : TransitState} (h : TransitStep s s') (hac : Acyclic s.next)
    (hlocked : s.locked = ∅) : Acyclic s'.next ∧ s'.locked = ∅ := by
  cases h with
  | @copyin port hactive _ =>
    refine ⟨?_, hlocked⟩
    rw [next_modify]
    have hnone : TransitPort.next { s.ports port with
        receiverName := machPortNull, data := .destination none } = none := by
      simp [TransitPort.next, TransitPort.ipDestination]
    rw [hnone]
    exact hac.update_none port
  | @check port dest lockTry b s' hlimbo h =>
    obtain ⟨n, b', s'', hrun, hiff, htrue, hfalse⟩ :=
      checkCircularity_spec dest hac hlocked hlimbo lockTry
    obtain ⟨m, hm⟩ := h
    have heq : some (b, s') = some (b', s'') := by
      rw [← hm n, ← hrun m, Nat.add_comm]
    obtain ⟨rfl, rfl⟩ := Prod.mk.inj (some.inj heq)
    cases b with
    | true =>
      rw [htrue rfl]
      exact ⟨hac, hlocked⟩
    | false =>
      rw [hfalse rfl]
      exact ⟨Acyclic.enterTransit hac hlimbo fun hr => by simpa using hiff.mpr hr, hlocked⟩
  | @received port dest space name hname _ =>
    refine ⟨?_, hlocked⟩
    rw [next_ipRelease, next_modify]
    have hnone : TransitPort.next { s.ports port with
        receiverName := name, data := .receiver space } = none := by
      simp [TransitPort.next, hname]
    rw [hnone]
    exact hac.update_none port
  | @died port dest t _ =>
    refine ⟨?_, hlocked⟩
    rw [next_ipRelease, next_modify]
    have hnone : TransitPort.next { s.ports port with
        active := false, data := .timestamp t } = none := by
      simp [TransitPort.next]
    rw [hnone]
    exact hac.update_none port
  | @limbo port dest _ =>
    refine ⟨?_, hlocked⟩
    rw [next_ipRelease, next_modify]
    have hnone : TransitPort.next { s.ports port with data := .destination none } = none := by
      simp [TransitPort.next, TransitPort.ipDestination]
    rw [hnone]
    exact hac.update_none port

theorem TransitStep.run_acyclic {s₀ : TransitState} (hac : Acyclic s₀.next)
    (hlocked : s₀.locked = ∅) (h : Relation.ReflTransGen TransitStep s₀ s) :
    Acyclic s.next ∧ s.locked = ∅ := by
  induction h with
  | refl => exact ⟨hac, hlocked⟩
  | tail _ hstep ih => exact hstep.acyclic ih.1 ih.2

end

/-- No port is held or in transit. -/
def allInLimbo : TransitState := ⟨fun _ => ⟨true, machPortNull, .destination none, 1⟩, ∅⟩

end MachKernel.Ipc
