import MachKernel.Lib.Runs

/-! Shared memory between kernels (`norma/xmm_svm.c`): the requests of the kernels that have one
memory object in common, and of its memory manager. A message is about one page; the requests of
different pages do not meet. -/

namespace MachKernel.Norma
open Function List

abbrev VmProt := BitVec 32

def vmProtNone : VmProt := 0
def vmProtRead : VmProt := 1
def vmProtWrite : VmProt := 2
def vmProtAll : VmProt := 7

/-- The access includes writing. -/
def Writes (p : VmProt) : Prop := p &&& vmProtWrite ≠ 0

instance (p : VmProt) : Decidable (Writes p) := inferInstanceAs (Decidable (_ ≠ _))

/-- Who has sent a request: `is_kernel` and `kobj`, which of a request by the memory manager is
where the answer goes, and may be null. -/
inductive Client (K : Type)
  | kernel (k : K)
  | pager
  | nobody
  deriving DecidableEq

structure Request (K : Type) where
  kobj : Client K
  mCount : ℤ
  kCount : ℤ
  needsData : Bool
  shouldClean : Bool
  shouldFlush : Bool
  desiredAccess : VmProt
  lockValue : VmProt
  deriving DecidableEq

/-- A message to a kernel. A `K_LOCK_REQUEST` that is not to be completed answers a
`data_unlock`. -/
inductive Message
  | dataProvided (lockValue : VmProt)
  | dataUnavailable
  | dataError
  | unlocked (lockValue : VmProt)
  | lockRequest (shouldClean shouldFlush : Bool) (lockValue : VmProt)
  deriving DecidableEq

def Message.isLock : Message → Bool
  | .lockRequest .. => true
  | _ => false

/-- The access to the page that a kernel has once it has taken a message. -/
def Message.take (held : VmProt) : Message → VmProt
  | .dataProvided lockValue | .unlocked lockValue => lockValue ^^^ vmProtAll
  | .dataUnavailable => vmProtAll
  | .dataError => vmProtNone
  | .lockRequest _ shouldFlush lockValue => if shouldFlush then vmProtNone else held &&& ~~~lockValue

/-- What the last message to a kernel leaves it. -/
def granted (held : VmProt) (inbox : List Message) : VmProt := inbox.foldl Message.take held

/-- A page of the object, with its queue of requests; around it the kernels, and what has not been
answered. -/
structure Page (K : Type) where
  prot : VmProt
  lock : VmProt
  kprot : K → VmProt
  request : List (Request K)
  inbox : K → List Message
  held : K → VmProt
  -- the lock requests that have not been completed, and how often the manager has been asked
  locks : List K
  asked : ℕ
  -- the requests made, and answered
  made : Client K → ℕ
  answered : Client K → ℕ

/-- What the manager has sent: `DATA_NONE`, `DATA_UNAVAILABLE`, `DATA_ERROR` or an address. -/
inductive Data
  | none
  | unavailable
  | error
  | page
  deriving DecidableEq

/-- A request stays at the head of its queue, or leaves it. -/
inductive Turn (K : Type)
  | waits (s : Page K) (r : Request K)
  | leaves (s : Page K)

section Handlers

variable {K : Type} [DecidableEq K]

def Page.init : Page K where
  prot := vmProtNone
  lock := vmProtAll
  kprot := fun _ => vmProtNone
  request := []
  inbox := fun _ => []
  held := fun _ => vmProtNone
  locks := []
  asked := 0
  made := fun _ => 0
  answered := fun _ => 0

namespace Page

variable (kobjs : List K) (s : Page K)

def send (k : K) (m : Message) : Page K :=
  { s with inbox := update s.inbox k (s.inbox k ++ [m]) }

/-- The `K_LOCK_REQUEST` of a page, with what the table then says of the kernel. -/
def lockRequest (k : K) (p : VmProt) (shouldClean shouldFlush : Bool) (lockValue : VmProt) :
    Page K :=
  { s.send k (.lockRequest shouldClean shouldFlush lockValue) with
    kprot := update s.kprot k p
    locks := k :: s.locks }

def answer (x : Client K) : Page K :=
  { s with answered := update s.answered x (s.answered x + 1) }

def make (x : Client K) : Page K :=
  { s with made := update s.made x (s.made x + 1) }

/-- The manager is to be asked for data, or to lower its lock. -/
def needsPager (r : Request K) (data : Data) : Prop :=
  s.lock &&& r.desiredAccess ≠ 0 ∨ r.needsData ∧ data = .none

instance (r : Request K) (data : Data) : Decidable (s.needsPager r data) :=
  inferInstanceAs (Decidable (_ ∨ _))

/-- The access that a kernel comes to have. -/
def accessTo (r : Request K) (data : Data) : VmProt :=
  if r.needsData ∧ data = .unavailable then vmProtAll else r.desiredAccess

/-- `satisfy_kernel_request` -/
def satisfyKernelRequest (k : K) (r : Request K) (data : Data) : Turn K :=
  if r.kCount ≠ 0 ∨ r.mCount ≠ 0 then .waits s r
  else if s.needsPager r data then
    .waits { s with asked := s.asked + 1 } { r with mCount := r.mCount + 1 }
  else
    let lockValue := r.desiredAccess ^^^ vmProtAll
    let m := if r.needsData = false then .unlocked lockValue
      else match data with
        | .unavailable => .dataUnavailable
        | .error => .dataError
        | _ => .dataProvided lockValue
    .leaves { (s.send k m).answer r.kobj with
      prot := accessTo r data
      kprot := update s.kprot k (accessTo r data) }

/-- `satisfy_pager_request` -/
def satisfyPagerRequest (r : Request K) : Turn K :=
  if r.kCount ≠ 0 ∨ r.mCount ≠ 0 then .waits s r
  else .leaves { s.answer r.kobj with lock := r.lockValue }

/-- `satisfy_request` -/
def satisfyRequest (r : Request K) (data : Data) : Turn K :=
  match r.kobj with
  | .kernel k => s.satisfyKernelRequest k r data
  | _ => s.satisfyPagerRequest r

/-- The loop that takes the page from the other kernels, and the lock requests that it sends. -/
def flushOthers (kobj : K) (writing : Bool) : List K → Page K → Page K × ℤ
  | [], s => (s, 0)
  | k :: ks, s =>
    if k = kobj ∨ s.kprot k = vmProtNone then flushOthers kobj writing ks s
    else
      let s' := s.lockRequest k vmProtNone writing true vmProtAll
      if writing then (s', 1)
      else
        let r := flushOthers kobj writing ks s'
        (r.1, r.2 + 1)

/-- The loop of a request by the manager. -/
def lockAll (shouldClean shouldFlush : Bool) (lockValue : VmProt) : List K → Page K → Page K × ℤ
  | [], s => (s, 0)
  | k :: ks, s =>
    if s.kprot k = vmProtNone then lockAll shouldClean shouldFlush lockValue ks s
    else
      let r := lockAll shouldClean shouldFlush lockValue ks
        (s.lockRequest k (s.kprot k &&& ~~~lockValue) shouldClean shouldFlush lockValue)
      (r.1, r.2 + 1)

def writer : Option K := kobjs.find? fun k => Writes (s.kprot k)

/-- `process_kernel_request` -/
def processKernelRequest (k : K) (r : Request K) : Turn K :=
  if Writes r.desiredAccess then
    let f := flushOthers k (Writes s.prot) kobjs { s with prot := vmProtNone }
    let r := { r with kCount := r.kCount + f.2 }
    if r.kCount = 0 ∧ r.mCount = 0 then f.1.satisfyKernelRequest k r .none else .waits f.1 r
  else if r.desiredAccess ≠ 0 ∧ Writes s.prot then
    if Writes (s.kprot k) then
      satisfyKernelRequest { s with
          kprot := update s.kprot k r.desiredAccess
          prot := r.desiredAccess } k r .none
    else match s.writer kobjs with
      -- "lost writer"
      | none => .waits s r
      | some w =>
        .waits { s.lockRequest w vmProtRead true false vmProtWrite with prot := vmProtRead }
          { r with kCount := r.kCount + 1 }
  else s.satisfyKernelRequest k r .none

/-- What `process_pager_request` makes of a lock value that is not for writing alone. -/
def settle (r : Request K) : Request K :=
  let lockValue := if r.lockValue &&& ~~~vmProtWrite ≠ 0 then vmProtAll else r.lockValue
  if lockValue = vmProtWrite then { r with lockValue := lockValue, shouldClean := true }
  else if lockValue ≠ 0 then
    { r with lockValue := lockValue, shouldClean := true, shouldFlush := true }
  else { r with lockValue := lockValue }

/-- `process_pager_request` -/
def processPagerRequest (r : Request K) : Turn K :=
  let r := settle r
  if r.shouldFlush ∨ r.lockValue = vmProtAll then
    let f := lockAll r.shouldClean r.shouldFlush r.lockValue kobjs
      { s with prot := s.prot &&& ~~~r.lockValue }
    let r := { r with kCount := r.kCount + f.2 }
    if r.kCount = 0 ∧ r.mCount = 0 then f.1.satisfyPagerRequest r else .waits f.1 r
  else if (r.shouldClean ∨ r.lockValue = vmProtWrite) ∧ Writes s.prot then
    match s.writer kobjs with
    | none => .waits { s with prot := s.prot &&& ~~~r.lockValue } r
    | some w =>
      .waits { s.lockRequest w (s.kprot w &&& ~~~r.lockValue) r.shouldClean false r.lockValue with
          prot := s.prot &&& ~~~r.lockValue }
        { r with kCount := r.kCount + 1 }
  else s.satisfyPagerRequest r

/-- `process_request` -/
def processTurn (r : Request K) : Turn K :=
  match r.kobj with
  | .kernel k => s.processKernelRequest kobjs k r
  | _ => s.processPagerRequest kobjs r

/-- The head of a queue is processed, and then each request that comes to be it. -/
def processRequest : List (Request K) → Page K → Page K
  | [], s => { s with request := [] }
  | r :: rs, s =>
    match s.processTurn kobjs r with
    | .waits s r => { s with request := r :: rs }
    | .leaves s => processRequest rs s

/-- The head of a queue is satisfied, once nothing more is to come for it. -/
def satisfyHead (r : Request K) (rs : List (Request K)) (data : Data) : Page K :=
  if r.kCount = 0 ∧ r.mCount = 0 then
    match s.satisfyRequest r data with
    | .waits s r => { s with request := r :: rs }
    | .leaves s => processRequest kobjs rs s
  else { s with request := r :: rs }

end Page

/-- The call that a handler ends with. -/
inductive Tail (K : Type)
  | done
  | process (rs : List (Request K))
  | satisfy (r : Request K) (rs : List (Request K)) (data : Data)

def Page.tail (kobjs : List K) (s : Page K) : Tail K → Page K
  | .done => s
  | .process rs => processRequest kobjs rs s
  | .satisfy r rs data => s.satisfyHead kobjs r rs data

namespace Page

variable (s : Page K)

/-- `m_svm_data_request`, and `m_svm_data_unlock`, which needs no data. -/
def svmRequest (k : K) (needsData : Bool) (desiredAccess : VmProt) : Page K × Tail K :=
  let r : Request K := ⟨.kernel k, 0, 0, needsData, false, false, desiredAccess, 0⟩
  let s := s.make (.kernel k)
  if s.request = [] then (s, .process [r]) else ({ s with request := s.request ++ [r] }, .done)

/-- `m_svm_lock_completed` -/
def lockCompleted (k : K) : Page K × Tail K :=
  let s := { s with locks := s.locks.erase k }
  match s.request with
  | [] => (s, .done)
  | r :: rs => (s, .satisfy { r with kCount := r.kCount - 1 } rs .none)

/-- `k_svm_data_provided`, `k_svm_data_unavailable` and `k_svm_data_error`. -/
def dataFrom (lock : VmProt) (data : Data) : Page K × Tail K :=
  let s := { s with lock := lock }
  match s.request with
  | [] => (s, .done)
  | r :: rs => (s, .satisfy { r with mCount := r.mCount - 1 } rs data)

/-- A new request of the manager goes behind those that it has made. -/
def insertPager (r : Request K) : List (Request K) → List (Request K)
  | [] => [r]
  | r0 :: rs => match r0.kobj with
    | .kernel _ => r :: r0 :: rs
    | _ => r0 :: insertPager r rs

/-- `k_svm_lock_request` -/
def svmLockRequest (shouldClean shouldFlush : Bool) (lockValue : VmProt) (robj : Bool) :
    Page K × Tail K :=
  if lockValue &&& ~~~s.lock = 0 ∧ ¬shouldClean ∧ ¬shouldFlush then
    let s := { s with lock := lockValue }
    match s.request with
    | [] => (s, .done)
    | r0 :: rs => match r0.kobj with
      | .kernel _ =>
        -- it may be what the kernel waits for
        if lockValue &&& r0.desiredAccess = 0 ∧ r0.mCount > 0 then
          (s, .satisfy { r0 with mCount := r0.mCount - 1 } rs .none)
        else (s, .done)
      | _ => (s, .done)
  else
    let client : Client K := if robj then .pager else .nobody
    let r : Request K := ⟨client, 0, 0, false, shouldClean, shouldFlush, 0, lockValue⟩
    let s := s.make client
    match s.request with
    | [] => (s, .process [r])
    | r0 :: rs => match r0.kobj with
      | .kernel _ =>
        -- the request of the manager goes first, and takes over what is to come
        (s, .process ({ r with mCount := r0.mCount, kCount := r0.kCount } ::
          { r0 with mCount := 0, kCount := 0 } :: rs))
      | _ => ({ s with request := insertPager r s.request }, .done)

end Page

inductive PageEvent (K : Type)
  | dataRequest (k : K) (desiredAccess : VmProt)
  | dataUnlock (k : K) (desiredAccess : VmProt)
  | dataWrite (k : K)
  | lockCompleted (k : K)
  | dataProvided (lockValue : VmProt)
  | dataUnavailable
  | dataError
  -- and whether the manager answers with it
  | lockRequest (shouldClean shouldFlush : Bool) (lockValue : VmProt) (robj answers : Bool)
  -- a kernel takes the next message to it, or gives up the page
  | take (k : K)
  | discard (k : K)
  deriving DecidableEq

/-- A kernel has taken a lock request that it has not completed. -/
def Page.mayComplete (s : Page K) (k : K) : Prop :=
  (s.inbox k).countP Message.isLock < s.locks.count k

instance (s : Page K) (k : K) : Decidable (s.mayComplete k) := inferInstanceAs (Decidable (_ < _))

def Page.take (s : Page K) (k : K) : Page K :=
  match s.inbox k with
  | [] => s
  | m :: ms =>
    { s with
      inbox := update s.inbox k ms
      held := update s.held k (m.take (s.held k)) }

/-- The handler that an event calls; an event that cannot happen calls none. -/
def Page.handle (kobjs : List K) (s : Page K) : PageEvent K → Page K × Tail K
  | .dataRequest k access => if k ∈ kobjs then s.svmRequest k true access else (s, .done)
  | .dataUnlock k access => if k ∈ kobjs then s.svmRequest k false access else (s, .done)
  -- `m_svm_data_write` passes the data on
  | .dataWrite _ => (s, .done)
  | .lockCompleted k =>
    if k ∈ kobjs ∧ s.mayComplete k then s.lockCompleted k else (s, .done)
  | .dataProvided lockValue =>
    if 0 < s.asked then { s with asked := s.asked - 1 }.dataFrom lockValue .page else (s, .done)
  | .dataUnavailable =>
    if 0 < s.asked then { s with asked := s.asked - 1 }.dataFrom vmProtNone .unavailable
    else (s, .done)
  | .dataError =>
    if 0 < s.asked then { s with asked := s.asked - 1 }.dataFrom vmProtNone .error else (s, .done)
  | .lockRequest shouldClean shouldFlush lockValue robj answers =>
    if answers then
      if 0 < s.asked then
        { s with asked := s.asked - 1 }.svmLockRequest shouldClean shouldFlush lockValue robj
      else (s, .done)
    else s.svmLockRequest shouldClean shouldFlush lockValue robj
  | .take k => (if k ∈ kobjs then s.take k else s, .done)
  | .discard k =>
    (if k ∈ kobjs then { s with held := update s.held k vmProtNone } else s, .done)

def Page.event (kobjs : List K) (s : Page K) (e : PageEvent K) : Page K :=
  (s.handle kobjs e).1.tail kobjs (s.handle kobjs e).2

/-- What `m_svm_init` makes of a page for a kernel that is new to the object. -/
def Page.attach (s : Page K) (k : K) : Page K :=
  { s with
    kprot := update s.kprot k vmProtNone
    inbox := update s.inbox k []
    held := update s.held k vmProtNone
    made := update s.made (.kernel k) 0
    answered := update s.answered (.kernel k) 0 }

/-- The object: the kernels on its `kobj_list`, and its pages. -/
structure Mobj (K P : Type) where
  kobjs : List K
  pages : P → Page K

inductive Event (K P : Type)
  | init (k : K)
  | terminate (k : K)
  | page (p : P) (e : PageEvent K)
  deriving DecidableEq

variable {P : Type} [DecidableEq P]

def Mobj.create : Mobj K P := ⟨[], fun _ => Page.init⟩

def Mobj.event (s : Mobj K P) : Event K P → Mobj K P
  | .init k => if k ∈ s.kobjs then s else ⟨k :: s.kobjs, fun p => (s.pages p).attach k⟩
  | .terminate k => { s with kobjs := s.kobjs.erase k }
  | .page p e => { s with pages := update s.pages p ((s.pages p).event s.kobjs e) }

def Mobj.step (s : Mobj K P) (e : Event K P) : Option (Unit × Mobj K P) := some ((), s.event e)

/-! The loops that send lock requests count them, and touch nothing but the table and the kernels. -/

/-- What a loop over the kernels leaves as it was. -/
structure Page.Tells (s s' : Page K) (n : ℤ) : Prop where
  locks : (s'.locks.length : ℤ) = s.locks.length + n
  prot : s'.prot = s.prot
  asked : s'.asked = s.asked
  made : s'.made = s.made
  answered : s'.answered = s.answered

omit [DecidableEq K] in
theorem Page.Tells.refl (s : Page K) : s.Tells s 0 := ⟨(add_zero _).symm, rfl, rfl, rfl, rfl⟩

theorem Page.tells_lockRequest (s : Page K) (k : K) (p : VmProt) (shouldClean shouldFlush : Bool)
    (lockValue : VmProt) : s.Tells (s.lockRequest k p shouldClean shouldFlush lockValue) 1 :=
  ⟨by simp [Page.lockRequest], rfl, rfl, rfl, rfl⟩

omit [DecidableEq K] in
theorem Page.Tells.trans {s s' s'' : Page K} {n m : ℤ} (h : s.Tells s' n) (h' : s'.Tells s'' m) :
    s.Tells s'' (m + n) :=
  ⟨by rw [h'.locks, h.locks]; ring, h'.prot.trans h.prot, h'.asked.trans h.asked,
    h'.made.trans h.made, h'.answered.trans h.answered⟩

theorem Page.flushOthers_tells (kobj : K) (writing : Bool) (ks : List K) (s : Page K) :
    s.Tells (flushOthers kobj writing ks s).1 (flushOthers kobj writing ks s).2 := by
  induction ks generalizing s with
  | nil => exact Tells.refl s
  | cons k ks ih =>
    rw [flushOthers]
    split
    · exact ih s
    · cases writing with
      | true => exact s.tells_lockRequest ..
      | false => exact (s.tells_lockRequest ..).trans (ih _)

theorem Page.lockAll_tells (shouldClean shouldFlush : Bool) (lockValue : VmProt) (ks : List K)
    (s : Page K) : s.Tells (lockAll shouldClean shouldFlush lockValue ks s).1
      (lockAll shouldClean shouldFlush lockValue ks s).2 := by
  induction ks generalizing s with
  | nil => exact Tells.refl s
  | cons k ks ih =>
    rw [lockAll]
    split
    · exact ih s
    · exact (s.tells_lockRequest ..).trans (ih _)

theorem Page.lockAll_kprot (shouldClean shouldFlush : Bool) (lockValue : VmProt) (ks : List K)
    (s : Page K) (y : K) : (lockAll shouldClean shouldFlush lockValue ks s).1.kprot y =
      if y ∈ ks then s.kprot y &&& ~~~lockValue else s.kprot y := by
  induction ks generalizing s with
  | nil => rfl
  | cons k ks ih =>
    rw [lockAll]
    split
    · rename_i hskip
      have hzero : vmProtNone &&& ~~~lockValue = vmProtNone := BitVec.zero_and
      rw [ih]
      by_cases hy : y = k
      · rw [hy, hskip, hzero, ite_self, ite_self]
      · simp [hy]
    · have htwice : s.kprot k &&& ~~~lockValue &&& ~~~lockValue = s.kprot k &&& ~~~lockValue := by
        rw [BitVec.and_assoc, BitVec.and_self]
      dsimp only
      rw [ih]
      by_cases hy : y = k
      · subst hy
        simp [lockRequest, htwice]
      · simp [lockRequest, hy]

section
omit [DecidableEq K]

theorem Page.settle_same (r : Request K) : (settle r).kobj = r.kobj ∧
    (settle r).kCount = r.kCount ∧ (settle r).mCount = r.mCount ∧
    (settle r).desiredAccess = r.desiredAccess := by
  rw [settle]
  split_ifs <;> exact ⟨rfl, rfl, rfl, rfl⟩

theorem Page.writer_some {kobjs : List K} {s : Page K} {w : K} (h : w ∈ s.writer kobjs) :
    w ∈ kobjs ∧ Writes (s.kprot w) :=
  ⟨mem_of_find?_eq_some h, by simpa using find?_some h⟩

theorem Page.writer_ne_none {kobjs : List K} {s : Page K} (h : ∃ k ∈ kobjs, Writes (s.kprot k)) :
    s.writer kobjs ≠ none := by
  obtain ⟨w, hk, hw⟩ := h
  intro hnone
  exact absurd hw (by simpa using find?_eq_none.1 hnone w hk)

theorem Page.mem_insertPager {r y : Request K} {rs : List (Request K)} :
    y ∈ insertPager r rs ↔ y = r ∨ y ∈ rs := by
  induction rs with
  | nil => simp [insertPager]
  | cons r' rs ih =>
    rw [insertPager]
    split
    · simp
    · rw [mem_cons, ih, mem_cons]
      tauto

theorem Page.insertPager_cons {r r' : Request K} (h : ∀ k, r'.kobj ≠ .kernel k)
    (rs : List (Request K)) : insertPager r (r' :: rs) = r' :: insertPager r rs := by
  cases hk : r'.kobj with
  | kernel k => exact absurd hk (h k)
  | pager | nobody => simp only [insertPager, hk]

end

end Handlers

/-! Bits of an access. -/

theorem Writes.ne_zero {p : VmProt} (h : Writes p) : p ≠ 0 := by
  rintro rfl
  exact h BitVec.zero_and

theorem writes_iff {p : VmProt} : Writes p ↔ p.getLsbD 1 := by
  constructor
  · intro h
    by_contra hp
    refine h (BitVec.eq_of_getLsbD_eq fun i hi => ?_)
    rw [BitVec.getLsbD_and, show BitVec.getLsbD (0 : VmProt) i = false from BitVec.getLsbD_zero]
    by_cases hi' : i = 1
    · rw [hi', Bool.eq_false_iff.2 hp, Bool.false_and]
    · have : ∀ i < 32, i ≠ 1 → vmProtWrite.getLsbD i = false := by decide
      rw [this i hi hi', Bool.and_false]
  · intro h hzero
    have := congrArg (fun q : VmProt => q.getLsbD 1) hzero
    simp only [BitVec.getLsbD_and, h] at this
    exact absurd this (by decide)

theorem writes_lowered {p lockValue : VmProt} :
    Writes (p &&& ~~~lockValue) ↔ Writes p ∧ ¬Writes lockValue := by
  simp [writes_iff]

end MachKernel.Norma
