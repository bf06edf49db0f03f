import MachKernel.Lib.Runs
import MachKernel.Lib.Word32

/-! Run queues (`kern/sched_prim.c`, `kern/sched.h`). -/

namespace MachKernel.Kern.Sched
open Function
open Word32

/-- `NRQS`, the number of levels of a run queue. -/
abbrev nrqs : ℕ := 32

/-- `struct run_queue`. -/
structure RunQueue where
  runq : ℕ → List ℕ
  low : ℕ
  count : ℤ

/-- The run queues of processor sets and processors. -/
inductive Runq
  | pset (i : ℕ)
  | processor (i : ℕ)
  deriving DecidableEq

inductive Policy
  | timeshare
  | fixedpri
  deriving DecidableEq

/-- The bits of `thread->state`. -/
structure ThreadState where
  wait : Bool
  susp : Bool
  run : Bool
  unint : Bool
  halted : Bool
  idle : Bool
  swapped : Bool
  swComingIn : Bool
  deriving DecidableEq

/-- `TH_RUN` and no other bit. -/
def thRun : ThreadState := ⟨false, false, true, false, false, false, false, false⟩

/-- `state & TH_SCHED_STATE`. -/
def ThreadState.sched (st : ThreadState) : ThreadState :=
  { st with halted := false, idle := false, swapped := false, swComingIn := false }

structure Thread where
  runq : Option Runq
  state : ThreadState
  refCount : ℕ
  priority : ℤ
  schedPri : ℤ
  policy : Policy
  schedData : ℤ
  depressPriority : ℤ
  cpuUsage : ℕ
  schedUsage : ℕ
  cpuDelta : ℕ
  schedDelta : ℕ
  schedStamp : ℕ
  -- what its timers have counted since they were last read
  timerDelta : ℕ
  processorSet : ℕ
  boundProcessor : Option ℕ

inductive ProcessorState
  | running
  | idle
  | dispatching
  | other
  deriving DecidableEq

structure Processor where
  state : ProcessorState
  activeThread : ℕ
  idleThread : ℕ
  nextThread : Option ℕ
  quantum : ℤ
  firstQuantum : Bool
  astBlock : Bool
  processorSet : ℕ

structure ProcessorSet where
  idleQueue : List ℕ
  -- whether `policies` has `POLICY_FIXEDPRI`
  fixedpri : Bool
  setQuantum : ℤ
  schedLoad : ℕ

/-- `MACH_FIXPRI`, `NCPUS > 1` and `MACH_HOST`, and where the priority of a thread comes from its
usage. -/
structure Config where
  machFixpri : Bool
  multi : Bool
  machHost : Bool
  priShift : ℕ

structure System where
  runq : Runq → RunQueue
  thread : ℕ → Thread
  processor : ℕ → Processor
  pset : ℕ → ProcessorSet
  schedTick : ℕ
  minQuantum : ℤ

/-- `default_pset` and `master_processor`. -/
def defaultPset : ℕ := 0
def masterProcessor : ℕ := 0

namespace RunQueue
variable (rq : RunQueue)

/-- The level for a priority, which is compared as an unsigned number. -/
def whichq (pri : ℤ) : ℕ := if pri < 0 ∨ nrqs ≤ pri then nrqs - 1 else pri.toNat

/-- `run_queue_enqueue`, on the run queue. -/
def enqueue (th whichq : ℕ) : RunQueue where
  runq := update rq.runq whichq (rq.runq whichq ++ [th])
  low := if whichq < rq.low ∨ rq.count = 0 then whichq else rq.low
  count := rq.count + 1

/-- `remqueue`, and one fewer. -/
def remove (th : ℕ) : RunQueue :=
  { rq with runq := fun i => (rq.runq i).erase th, count := rq.count - 1 }

/-- `dequeue_head`, and one fewer. -/
def dequeue (i : ℕ) : RunQueue :=
  { rq with runq := update rq.runq i (rq.runq i).tail, count := rq.count - 1 }

/-- The first level from `i` on with a thread; there is none when the search comes to the end. -/
def search (i : ℕ) : Option ℕ := (List.range' i (nrqs - i)).find? fun j => rq.runq j ≠ []

end RunQueue

namespace System
variable (cfg : Config) (s : System)

def setThread (th : ℕ) (t : Thread) : System := { s with thread := update s.thread th t }
def setRunq (q : Runq) (rq : RunQueue) : System := { s with runq := update s.runq q rq }

def setProcessor (p : ℕ) (f : Processor → Processor) : System :=
  { s with processor := update s.processor p (f (s.processor p)) }

def setPset (i : ℕ) (f : ProcessorSet → ProcessorSet) : System :=
  { s with pset := update s.pset i (f (s.pset i)) }

end System

def waitShift : List (ℕ × ℤ) :=
  [(1, 1), (1, 3), (1, -3), (2, -7), (3, 5), (3, -5), (4, -8), (5, 7),
    (5, -7), (6, -10), (7, 10), (7, -9), (8, -11), (9, 12), (9, -11), (10, -13),
    (11, 14), (11, -13), (12, -15), (13, 17), (13, -15), (14, -17), (15, 19), (16, 18),
    (16, -19), (17, 22), (18, 20), (18, -20), (19, 26), (20, 22), (20, -22), (21, -27)]

/-- What is left of a usage after so many ticks. -/
def decay (ticks usage : ℕ) : ℕ :=
  let shift := waitShift.getD ticks (0, 0)
  if 0 < shift.2 then add (usage >>> shift.1) (usage >>> shift.2.toNat)
  else sub (usage >>> shift.1) (usage >>> (-shift.2).toNat)

/-- `do_priority_computation`; `SCHED_SHIFT` is 7. -/
def Thread.priorityComputation (cfg : Config) (t : Thread) : ℤ :=
  min (t.priority + (t.schedUsage >>> (cfg.priShift + 7) : ℕ)) 31

/-- `update_priority`, of a thread in a set with such a load. -/
def Thread.updatePriority (cfg : Config) (schedTick schedLoad : ℕ) (t : Thread) : Thread :=
  let ticks := sub schedTick t.schedStamp
  let cpuDelta := add t.cpuDelta t.timerDelta
  let schedDelta := (t.schedDelta + t.timerDelta * schedLoad) % modulus
  let t : Thread := { t with
    schedStamp := add t.schedStamp ticks
    timerDelta := 0
    cpuUsage := if 30 < ticks then 0 else decay ticks (add t.cpuUsage cpuDelta)
    schedUsage := if 30 < ticks then 0 else decay ticks (add t.schedUsage schedDelta)
    cpuDelta := 0
    schedDelta := 0 }
  if (!cfg.machFixpri || t.policy = .timeshare) ∧ t.depressPriority < 0 then
    { t with schedPri := t.priorityComputation cfg }
  else t

namespace System
variable (cfg : Config) (s : System) (here : ℕ)

def updatePriority (th : ℕ) : System :=
  s.setThread th
    ((s.thread th).updatePriority cfg s.schedTick (s.pset (s.thread th).processorSet).schedLoad)

def runQueueEnqueue (q : Runq) (th : ℕ) : System :=
  (s.setRunq q ((s.runq q).enqueue th (RunQueue.whichq (s.thread th).schedPri))).setThread th
    { s.thread th with runq := some q }

/-- A thread is given to an idle processor, which is no longer idle. -/
def dispatch (pset p th : ℕ) : System :=
  (s.setPset pset fun ps => { ps with idleQueue := ps.idleQueue.erase p }).setProcessor p fun c =>
    { c with nextThread := some th, state := .dispatching }

/-- The check for preemption, on the processor that executes this. -/
def preempt (mayPreempt : Bool) (th : ℕ) : System :=
  if mayPreempt ∧ (s.thread th).schedPri < (s.thread (s.processor here).activeThread).schedPri then
    s.setProcessor here fun c => { c with firstQuantum := false, astBlock := true }
  else s

/-- The part of `thread_setrun` after the priority is up to date. -/
def setrun (th : ℕ) (mayPreempt : Bool) : System :=
  if cfg.multi then
    match (s.thread th).boundProcessor with
    | none =>
      let pset := (s.thread th).processorSet
      match (s.pset pset).idleQueue with
      | p :: _ => s.dispatch pset p th
      | [] =>
        let s' := s.runQueueEnqueue (.pset pset) th
        if !cfg.machHost ∨ pset = (s.processor here).processorSet then s'.preempt here mayPreempt th
        else s'
    | some p =>
      if (s.processor p).state = .idle then s.dispatch (s.processor p).processorSet p th
      else
        let s' := s.runQueueEnqueue (.processor p) th
        if p = here then s'.setProcessor p fun c => { c with astBlock := true } else s'
  else
    match (s.pset defaultPset).idleQueue with
    | p :: _ => s.dispatch defaultPset p th
    | [] =>
      match (s.thread th).boundProcessor with
      | none => (s.runQueueEnqueue (.pset defaultPset) th).preempt here mayPreempt th
      | some _ =>
        ((s.setProcessor here fun c => { c with astBlock := true }).runQueueEnqueue
          (.processor masterProcessor) th).preempt here mayPreempt th

def threadSetrun (th : ℕ) (mayPreempt : Bool) : System :=
  (if (s.thread th).schedStamp ≠ s.schedTick then s.updatePriority cfg th else s).setrun cfg here th
    mayPreempt

def remRunq (th : ℕ) : Option Runq × System :=
  match (s.thread th).runq with
  | none => (none, s)
  | some q =>
    (some q, (s.setRunq q ((s.runq q).remove th)).setThread th { s.thread th with runq := none })

def setPri (th : ℕ) (pri : ℤ) : System :=
  let (rq, s') := s.remRunq th
  let s' := s'.setThread th { s'.thread th with schedPri := pri }
  match rq with
  | none => s'
  | some _ => s'.threadSetrun cfg here th true

/-- The head of a level is taken, and `low` becomes another. -/
def take (q : Runq) (i th low : ℕ) : System :=
  (s.setRunq q { (s.runq q).dequeue i with low }).setThread th { s.thread th with runq := none }

/-- Whether `low` of the run queue of a set must be accurate. -/
def accurate (pset : ℕ) : Bool := cfg.machFixpri && (s.pset pset).fixedpri

/-- `choose_pset_thread`; nothing comes of it when a loop runs off the end of the run queue. -/
def choosePsetThread (p pset : ℕ) : Option (ℕ × System) :=
  let rq := s.runq (.pset pset)
  if 0 < rq.count then
    match rq.search rq.low with
    | none => none
    | some i => match rq.runq i with
      | [] => none
      | th :: _ =>
        let rq' := rq.dequeue i
        if 0 < rq'.count ∧ s.accurate cfg pset then
          match rq'.search i with
          | none => none
          | some j => some (th, s.take (.pset pset) i th j)
        else some (th, s.take (.pset pset) i th i)
  else if (s.processor p).state = .running then
    some ((s.processor p).idleThread, (s.setProcessor p fun c => { c with state := .idle }).setPset
      pset fun ps =>
        { ps with
          idleQueue := if p = masterProcessor then ps.idleQueue ++ [p] else p :: ps.idleQueue })
  else some ((s.processor p).idleThread, s)

def chooseThread (p : ℕ) : Option (ℕ × System) :=
  let rq := s.runq (.processor p)
  if 0 < rq.count then
    match rq.search rq.low with
    | none => none
    | some i => match rq.runq i with
      | [] => none
      | th :: _ => some (th, s.take (.processor p) i th i)
  else s.choosePsetThread cfg p (s.processor p).processorSet

/-- The quantum that `thread_select` gives to a thread from the set. -/
def giveQuantum (p pset : ℕ) (r : ℕ × System) : ℕ × System :=
  (r.1, r.2.setProcessor p fun c =>
    { c with
      quantum :=
        if !cfg.machFixpri ∨ (r.2.thread r.1).policy = .timeshare then (s.pset pset).setQuantum
        else (r.2.thread r.1).schedData })

/-- The part of `thread_select` that looks at the run queue of a set. -/
def selectFromSet (p pset : ℕ) : Option (ℕ × System) :=
  let rq := s.runq (.pset pset)
  if rq.count = 0 then
    let th := (s.processor p).activeThread
    let t := s.thread th
    if t.state = thRun ∧ (!cfg.machHost ∨ t.processorSet = pset) ∧
        (t.boundProcessor = none ∨ t.boundProcessor = some p) then
      some (th, if t.schedStamp ≠ s.schedTick then s.updatePriority cfg th else s)
    else s.choosePsetThread cfg p pset
  else
    match rq.runq rq.low with
    | [] => (s.setRunq (.pset pset) { rq with low := rq.low + 1 }).choosePsetThread cfg p pset
    | th :: _ =>
      let rq' := rq.dequeue rq.low
      if 0 < rq'.count ∧ s.accurate cfg pset then
        match rq'.search rq.low with
        | none => none
        | some j => some (th, s.take (.pset pset) rq.low th j)
      else some (th, s.take (.pset pset) rq.low th rq.low)

def threadSelect (p : ℕ) : Option (ℕ × System) :=
  let s := s.setProcessor p fun c => { c with firstQuantum := true }
  if 0 < (s.runq (.processor p)).count then
    (s.chooseThread cfg p).map fun r =>
      (r.1, r.2.setProcessor p fun c => { c with quantum := s.minQuantum })
  else
    let pset := if cfg.machHost then (s.processor p).processorSet else defaultPset
    (s.selectFromSet cfg p pset).map (s.giveQuantum cfg p pset)

end System

/-- What happens: calls, on a processor, and changes to all but the run queues. -/
inductive Event
  -- of a thread that is on no run queue
  | threadSetrun (here th : ℕ) (mayPreempt : Bool)
  | remRunq (th : ℕ)
  | setPri (here th : ℕ) (pri : ℤ)
  | chooseThread (p : ℕ)
  | choosePsetThread (p pset : ℕ)
  | threadSelect (p : ℕ)
  | other (thread : ℕ → Thread) (processor : ℕ → Processor) (pset : ℕ → ProcessorSet)
    (schedTick : ℕ) (minQuantum : ℤ)

inductive Result
  | done
  | removed (r : Option Runq)
  | selected (th : ℕ)

/-- No result stands for a panic, and for a loop that runs off the end of a run queue. -/
def System.step (cfg : Config) (s : System) : Event → Option (Result × System)
  | .threadSetrun here th mayPreempt =>
    some (.done, if (s.thread th).runq = none then s.threadSetrun cfg here th mayPreempt else s)
  | .remRunq th => some (.removed (s.remRunq th).1, (s.remRunq th).2)
  | .setPri here th pri => some (.done, s.setPri cfg here th pri)
  | .chooseThread p => (s.chooseThread cfg p).map fun r => (.selected r.1, r.2)
  | .choosePsetThread p pset => (s.choosePsetThread cfg p pset).map fun r => (.selected r.1, r.2)
  | .threadSelect p => (s.threadSelect cfg p).map fun r => (.selected r.1, r.2)
  | .other thread processor pset schedTick minQuantum =>
    some (.done, { s with
      thread := fun th => { thread th with runq := (s.thread th).runq }
      processor, pset, schedTick, minQuantum })

/-- No thread is on a run queue. -/
def System.start (thread : ℕ → Thread) (processor : ℕ → Processor) (pset : ℕ → ProcessorSet)
    (schedTick : ℕ) (minQuantum : ℤ) : System where
  runq _ := ⟨fun _ => [], 0, 0⟩
  thread th := { thread th with runq := none }
  processor := processor
  pset := pset
  schedTick := schedTick
  minQuantum := minQuantum

end MachKernel.Kern.Sched
