import MachKernel.Boot.DefaultPager
import MachKernel.Lib.Counting
import MachKernel.Lib.Runs

/-! The threads of the default pager (`boot_ufs/default_pager.c`) on the messages of one object. They
are cut where a thread may block: at an allocation, at a transfer, and where it waits for its
turn, for the writers or for the lock of the block map. -/

namespace MachKernel.Boot.ParallelPaging
open Function List Option
open Vm Word32

variable {T σ Byte : Type}

section
variable [PageSize]

inductive Request (Byte : Type)
  | dataRequest (offset length : ℕ)
  | dataInitialize (offset : ℕ) (data : List Byte)
  | dataWrite (offset : ℕ) (data : List Byte)
  deriving DecidableEq

/-- The length of a message is not what it should be. -/
def Request.panics : Request Byte → Bool
  | .dataRequest _ length => length ≠ pageSize
  | .dataInitialize _ _ => false
  | .dataWrite _ data => data.length % pageSize ≠ 0

/-- A page that a thread writes, and the pages behind it; the message that they are of. -/
structure Job (Byte : Type) where
  seqno : ℕ
  ifAbsent : Bool
  page : ℕ × List Byte
  rest : List (ℕ × List Byte)
  deriving DecidableEq

/-- Where a thread is. -/
inductive Place (Byte : Type)
  | idle
  -- in `pager_port_lock`
  | lock (seqno : ℕ) (m : Request Byte) (asleep : Bool)
  -- in `pager_port_wait_for_writers`
  | waitForWriters (seqno offset : ℕ) (asleep : Bool)
  -- at `pager_read_offset`, and at the next `p_read`, in `default_read`
  | readOffset (seqno offset : ℕ)
  | reading (seqno offset : ℕ) (firstTime : Bool) (done : List Byte) (next : ℕ)
  -- at `default_has_page`
  | hasPage (job : Job Byte)
  -- in `pager_write_offset`: at `lock_read`, at the `lock_write` of `pager_extend`, at its
  -- allocation, and at the allocation of the indirect block
  | writeOffset (job : Job Byte)
  | extend (job : Job Byte)
  | extending (job : Job Byte)
  | indirect (job : Job Byte)
  -- at the next `p_write` of `default_write`
  | writing (job : Job Byte) (next : ℕ) (data : List Byte)
  deriving DecidableEq

/-- `thread_wakeup` of the threads that wait for their turn. -/
def Place.wakeSeqno : Place Byte → Place Byte
  | .lock seqno m _ => .lock seqno m false
  | p => p

/-- `thread_wakeup` of the threads that wait for the writers. -/
def Place.wakeWriters : Place Byte → Place Byte
  | .waitForWriters seqno offset _ => .waitForWriters seqno offset false
  | p => p

/-- `struct dstruct`, with the lock of its map; how many messages have been received, and where the
threads are. -/
structure Pager (T σ Byte : Type) where
  received : ℕ
  seqno : ℕ
  waitingSeqno : Bool
  waitingWrite : Bool
  readers : ℕ
  writers : ℕ
  errors : ℕ
  dpager : Dpager
  readLocks : ℕ
  writeLocked : Bool
  part : Part
  device : σ
  place : T → Place Byte

inductive Event (T : Type)
  | receive (t : T)
  | turn (t : T)
  deriving DecidableEq

def init (objectSize size : ℕ) (device : σ) : Pager T σ Byte where
  received := 0
  seqno := 0
  waitingSeqno := false
  waitingWrite := false
  readers := 0
  writers := 0
  errors := 0
  dpager := pagerAlloc objectSize
  readLocks := 0
  writeLocked := false
  part := partCreate size
  device := device
  place := fun _ => .idle

/-- The map has no second-level map for a page. -/
def missing (pager : Dpager) (fPage : ℕ) : Bool :=
  match pager.map with
  | .indirect tables => tables[fPage / pagemapEntries]? = some none
  | .direct _ => false

/-- A second-level map without blocks is put down, whatever was there. -/
def putTable (pager : Dpager) (fPage : ℕ) : Dpager :=
  match pager.map with
  | .indirect tables =>
    { pager with
      map := .indirect
        (tables.set (fPage / pagemapEntries) (some (.replicate pagemapEntries none))) }
  | .direct _ => pager

namespace Pager
variable [DecidableEq T] (dev : Device σ Byte) (msgs : List (Request Byte)) (s : Pager T σ Byte)
  (t : T)

def moves (p : Place Byte) : Pager T σ Byte := { s with place := update s.place t p }

/-- `pager_port_unlock` -/
def portUnlock : Pager T σ Byte :=
  if s.waitingSeqno then
    { s with
      seqno := s.seqno + 1
      waitingSeqno := false
      place := fun u => (s.place u).wakeSeqno }
  else { s with seqno := s.seqno + 1 }

/-- `pager_port_finish_write` -/
def finishWrite : Pager T σ Byte :=
  if s.writers - 1 = 0 ∧ s.waitingWrite then
    { s with
      writers := s.writers - 1
      waitingWrite := false
      place := fun u => (s.place u).wakeWriters }
  else { s with writers := s.writers - 1 }

/-- `pager_port_finish_read`, after the reply. Nobody waits for the readers of a live object. -/
def finishRead : Pager T σ Byte := { s.moves t .idle with readers := s.readers - 1 }

/-- The next turn of the loop of `data_initialize` or `data_write`. -/
def nextPage (seqno : ℕ) (ifAbsent : Bool) : List (ℕ × List Byte) → Pager T σ Byte
  | [] => (s.moves t .idle).finishWrite
  | page :: rest =>
    s.moves t (if ifAbsent then .hasPage ⟨seqno, ifAbsent, page, rest⟩
      else .writeOffset ⟨seqno, ifAbsent, page, rest⟩)

/-- The message has its turn. -/
def starts (seqno : ℕ) : Request Byte → Pager T σ Byte
  | .dataRequest offset _ => s.moves t (.waitForWriters seqno offset false)
  | .dataInitialize offset data =>
    Pager.nextPage { s with writers := s.writers + 1 }.portUnlock t seqno true
      (pagesOf offset data)
  | .dataWrite offset data =>
    Pager.nextPage { s with writers := s.writers + 1 }.portUnlock t seqno false
      (pagesOf offset data)

/-- `pager_write_offset` has the map in which it looks up the page. -/
def assigns (job : Job Byte) (pager : Dpager) : Option (Pager T σ Byte) :=
  match pagerWriteWithin pager (atop job.page.1) s.part with
  | .error _ => none
  | .ok (block, dpager, part) =>
    some { s.moves t (.writing job (block * pageSize) job.page.2) with dpager, part }

/-- A thread goes on to where it may block next, and the reply that it sends on the way, with the
number of the message. Where it is blocked it stays; it does not go on after a panic. -/
def turn : Option (Option (ℕ × Reply Byte) × Pager T σ Byte) :=
  match s.place t with
  | .idle | .lock _ _ true | .waitForWriters _ _ true => some (none, s)
  | .lock seqno m false =>
    if s.seqno ≠ seqno then
      some (none, { s.moves t (.lock seqno m true) with waitingSeqno := true })
    else some (none, s.starts t seqno m)
  | .waitForWriters seqno offset false =>
    if s.writers ≠ 0 then
      some (none, { s.moves t (.waitForWriters seqno offset true) with waitingWrite := true })
    else
      let s := Pager.portUnlock { s with readers := s.readers + 1 }
      if s.errors ≠ 0 then some (some (seqno, .dataError offset), s.finishRead t)
      else some (none, s.moves t (.readOffset seqno offset))
  | .readOffset seqno offset =>
    if s.writeLocked then some (none, s)
    else
      match pagerReadOffset s.dpager (atop offset) with
      | .error _ => none
      | .ok none => some (some (seqno, .dataUnavailable offset), s.finishRead t)
      | .ok (some block) =>
        some (none, s.moves t (.reading seqno offset true [] (block * pageSize)))
  | .reading seqno offset firstTime done next =>
    match dev.pRead s.device next (pageSize - done.length) with
    | (none, device) => some (some (seqno, .dataError offset), { s.finishRead t with device })
    | (some piece, device) =>
      if pageSize - done.length < piece.length then none
      else if pageSize - done.length = piece.length then
        some (some (seqno, Server.replyTo offset (.success firstTime (done ++ piece))),
          { s.finishRead t with device })
      else
        some (none, { s.moves t
          (.reading seqno offset false (done ++ piece) (next + piece.length)) with device })
  | .hasPage job =>
    if s.writeLocked then some (none, s)
    else
      match pagerReadOffset s.dpager (atop job.page.1) with
      | .error _ => none
      | .ok none => some (none, s.moves t (.writeOffset job))
      | .ok (some _) => some (none, s.nextPage t job.seqno job.ifAbsent job.rest)
  | .writeOffset job =>
    if s.writeLocked then some (none, s)
    else if s.dpager.size ≤ atop job.page.1 then some (none, s.moves t (.extend job))
    else if missing s.dpager (atop job.page.1) then
      some (none, { s.moves t (.indirect job) with readLocks := s.readLocks + 1 })
    else (s.assigns t job s.dpager).map fun s => (none, s)
  | .extend job =>
    if s.writeLocked ∨ s.readLocks ≠ 0 then some (none, s)
    else some (none, { s.moves t (.extending job) with writeLocked := true })
  | .extending job =>
    match pagerExtend s.dpager (atop job.page.1 + 1) with
    | .error _ => none
    | .ok dpager =>
      some (none, { s.moves t (.writeOffset job) with dpager, writeLocked := false })
  | .indirect job =>
    (s.assigns t job (putTable s.dpager (atop job.page.1))).map fun s =>
      (none, { s with readLocks := s.readLocks - 1 })
  | .writing job next data =>
    match dev.pWrite s.device next data with
    | (none, device) =>
      some (none, Pager.nextPage { s with device, errors := s.errors + 1 } t job.seqno
        job.ifAbsent job.rest)
    | (some wsize, device) =>
      if data.length < wsize then none
      else if data.length = wsize then
        some (none, Pager.nextPage { s with device } t job.seqno job.ifAbsent job.rest)
      else some (none, { s.moves t (.writing job (next + wsize) (data.drop wsize)) with device })

/-- The message is received with its sequence number; its length is looked at first. -/
def receive : Option (Option (ℕ × Reply Byte) × Pager T σ Byte) :=
  match s.place t, msgs[s.received]? with
  | .idle, some m =>
    if m.panics then none
    else some (none, { s.moves t (.lock s.received m false) with received := s.received + 1 })
  | _, _ => some (none, s)

def step : Event T → Option (Option (ℕ × Reply Byte) × Pager T σ Byte)
  | .receive t => s.receive msgs t
  | .turn t => s.turn dev t

end Pager

end

/-! ## What the threads should do -/

section
variable [PageSize]

/-- The pages that a message writes. -/
def Request.pages : Request Byte → List (ℕ × List Byte)
  | .dataRequest _ _ => []
  | .dataInitialize offset data | .dataWrite offset data => pagesOf offset data

def Request.ifAbsent : Request Byte → Bool
  | .dataInitialize _ _ => true
  | _ => false

def Request.Writes (m : Request Byte) (fPage : ℕ) : Prop := ∃ page ∈ m.pages, atop page.1 = fPage

/-- What a page becomes. -/
def put (ifAbsent : Bool) (old : Option (List Byte)) (data : List Byte) : Option (List Byte) :=
  if ifAbsent then old.or (some data) else some data

/-- What a message does to the pages of the object. -/
def Request.after (store : ℕ → Option (List Byte)) (m : Request Byte) : ℕ → Option (List Byte) :=
  m.pages.foldl (fun store page =>
    update store (atop page.1) (put m.ifAbsent (store (atop page.1)) page.2)) store

/-- The pages of the object after the messages before one. -/
def contents (msgs : List (Request Byte)) (seqno : ℕ) : ℕ → Option (List Byte) :=
  (msgs.take seqno).foldl Request.after fun _ => none

/-- What the kernel sends: whole pages, and a request for a page between any two writes of it. -/
structure Sent (msgs : List (Request Byte)) : Prop where
  whole : ∀ m ∈ msgs, m.panics = false ∧ ∀ page ∈ m.pages, page.2.length = pageSize
  once : ∀ m ∈ msgs, (m.pages.map fun page => atop page.1).Nodup
  separated : ∀ (i j : ℕ) (m m' : Request Byte) (fPage : ℕ), i < j → msgs[i]? = some m →
    msgs[j]? = some m' → m.Writes fPage → m'.Writes fPage → ∃ k offset length, i < k ∧ k < j ∧
      msgs[k]? = some (.dataRequest offset length) ∧ atop offset = fPage

/-- The right reply to a request. -/
def Answers (store : ℕ → Option (List Byte)) (offset : ℕ) (reply : Reply Byte) : Prop :=
  match store (atop offset) with
  | some data => reply = .dataSupply offset data ∨ reply = .dataProvided offset data
  | none => reply = .dataUnavailable offset

/-- Each block that has been handed out is that of one page; no thread sleeps whose turn it is. -/
structure Paged (s : Pager T σ Byte) : Prop where
  blocks : ∀ b, s.part.used b = true → ∃! fPage, s.dpager.block fPage = some b
  turns : ∀ t seqno m, s.place t = .lock seqno m true → s.seqno ≠ seqno
  writers : ∀ t seqno offset, s.place t = .waitForWriters seqno offset true → s.writers ≠ 0

/-- What an event should do. -/
def spec (msgs : List (Request Byte)) (_ : Unit) (_ : Event T) (reply : Option (ℕ × Reply Byte))
    (_ : Unit) (s' : Pager T σ Byte) : Prop :=
  (∀ r ∈ reply, ∃ offset length, msgs[r.1]? = some (.dataRequest offset length) ∧
    Answers (contents msgs r.1) offset r.2) ∧ Paged s'

/-- The offset that a thread reads at. -/
def Place.reads : Place Byte → Option ℕ
  | .readOffset _ offset | .reading _ offset _ _ _ => some offset
  | _ => none

/-- Nobody reads the page. -/
def Unread (s : Pager T σ Byte) (fPage : ℕ) : Prop :=
  ∀ t, ∀ offset ∈ (s.place t).reads, atop offset ≠ fPage

/-- A page that has no block finds one, and nobody reads it. -/
def Room (s : Pager T σ Byte) (fPage : ℕ) : Prop :=
  s.dpager.block fPage = none → s.part.free ≠ 0 ∧ Unread s fPage

/-- The turns that find the map as the other threads should have left it: pages that are looked up
are in the map, a second-level map is put down where there is none, and a page is not written
while it is read. -/
def Fits (s : Pager T σ Byte) : Event T → Prop
  | .receive _ => True
  | .turn t =>
    match s.place t with
    | .readOffset _ offset => s.writeLocked = false → atop offset < s.dpager.size
    | .hasPage job => s.writeLocked = false → atop job.page.1 < s.dpager.size
    | .writeOffset job => s.writeLocked = false → atop job.page.1 < s.dpager.size →
        missing s.dpager (atop job.page.1) = false → Room s (atop job.page.1)
    | .indirect job => missing s.dpager (atop job.page.1) = true ∧ Room s (atop job.page.1)
    | .writing job _ _ => Unread s (atop job.page.1)
    | _ => True

variable [Fintype T]

instance (s : Pager T σ Byte) (fPage : ℕ) : Decidable (Unread s fPage) :=
  inferInstanceAs (Decidable (∀ _, ∀ _ ∈ _, _))

instance (s : Pager T σ Byte) (fPage : ℕ) : Decidable (Room s fPage) :=
  inferInstanceAs (Decidable (_ → _))

instance (s : Pager T σ Byte) : DecidablePred (Fits s)
  | .receive _ => isTrue trivial
  | .turn t => by
    unfold Fits
    dsimp only
    split <;> infer_instance

end

/-! ## The order of the messages -/

section Order
variable [PageSize] {msgs : List (Request Byte)}

def Job.pages (job : Job Byte) : List (ℕ × List Byte) := job.page :: job.rest

def Job.Writes (job : Job Byte) (fPage : ℕ) : Prop := ∃ page ∈ job.pages, atop page.1 = fPage

/-- A message that has started and whose pages are being written; since then no request has. -/
structure Job.Of (msgs : List (Request Byte)) (seqno : ℕ) (job : Job Byte) : Prop where
  lt : job.seqno < seqno
  message : ∃ m, msgs[job.seqno]? = some m ∧ m.ifAbsent = job.ifAbsent ∧ job.pages <:+ m.pages
  alone : ∀ k offset length, job.seqno < k → k < seqno →
    msgs[k]? ≠ some (.dataRequest offset length)

theorem contents_succ {seqno : ℕ} {m : Request Byte} (h : msgs[seqno]? = some m) :
    contents msgs (seqno + 1) = m.after (contents msgs seqno) := by
  rw [contents, contents, take_add_one, h, foldl_append]
  rfl

theorem foldl_put_of_ne {ifAbsent : Bool} {fPage : ℕ} (pages : List (ℕ × List Byte))
    (store : ℕ → Option (List Byte)) (h : ∀ page ∈ pages, atop page.1 ≠ fPage) :
    pages.foldl (fun store page => update store (atop page.1)
      (put ifAbsent (store (atop page.1)) page.2)) store fPage = store fPage := by
  induction pages generalizing store with
  | nil => rfl
  | cons page pages ih =>
    rw [foldl_cons, ih _ fun q hq => h q (mem_cons_of_mem page hq),
      update_of_ne (h page mem_cons_self).symm]

variable {store : ℕ → Option (List Byte)} {page : ℕ × List Byte}

theorem after_of_not_writes {m : Request Byte} {fPage : ℕ}
    (h : ¬m.Writes fPage) : m.after store fPage = store fPage :=
  foldl_put_of_ne m.pages store fun page hpage heq => h ⟨page, hpage, heq⟩

theorem after_of_mem {m : Request Byte}
    (honce : (m.pages.map fun page => atop page.1).Nodup) (h : page ∈ m.pages) :
    m.after store (atop page.1) = put m.ifAbsent (store (atop page.1)) page.2 := by
  unfold Request.after
  generalize m.pages = pages at honce h
  induction pages generalizing store with
  | nil => exact absurd h not_mem_nil
  | cons q pages ih =>
    rw [map_cons, nodup_cons] at honce
    rw [foldl_cons]
    rcases mem_cons.1 h with rfl | h
    · have hrest : ∀ q ∈ pages, atop q.1 ≠ atop page.1 := fun q hq heq =>
        honce.1 (mem_map.2 ⟨q, hq, heq⟩)
      rw [foldl_put_of_ne _ _ hrest, update_self]
    · have hne : atop page.1 ≠ atop q.1 := fun heq =>
        honce.1 (mem_map.2 ⟨page, h, heq⟩)
      rw [ih honce.2 h, update_of_ne hne]

theorem contents_eq {a b fPage : ℕ} (hab : a ≤ b)
    (h : ∀ k m, a ≤ k → k < b → msgs[k]? = some m → ¬m.Writes fPage) :
    contents msgs b fPage = contents msgs a fPage := by
  induction b, hab using Nat.le_induction with
  | base => rfl
  | succ b hab ih =>
    have hb : contents msgs (b + 1) fPage = contents msgs b fPage := by
      cases hm : msgs[b]? with
      | none => rw [contents, contents, take_add_one, hm, Option.toList_none, append_nil]
      | some m => rw [contents_succ hm, after_of_not_writes (h b m hab (Nat.lt_succ_self b) hm)]
    rw [hb, ih fun k m hk hkb => h k m hk (Nat.lt_succ_of_lt hkb)]

variable {seqno fPage : ℕ} {job job' : Job Byte} {m : Request Byte}

theorem Job.Of.succ (h : job.Of msgs seqno)
    (hm : ∀ offset length, msgs[seqno]? ≠ some (.dataRequest offset length)) :
    job.Of msgs (seqno + 1) where
  lt := Nat.lt_succ_of_lt h.lt
  message := h.message
  alone k offset length hk hlt := by
    rcases Nat.lt_succ_iff_lt_or_eq.1 hlt with hlt | rfl
    · exact h.alone k offset length hk hlt
    · exact hm offset length

theorem Job.Of.writes (h : job.Of msgs seqno) (hw : job.Writes fPage) :
    ∃ m, msgs[job.seqno]? = some m ∧ m.Writes fPage := by
  obtain ⟨m, hm, -, hpages⟩ := h.message
  obtain ⟨page, hpage, heq⟩ := hw
  exact ⟨m, hm, page, hpages.subset hpage, heq⟩

theorem Job.Of.not_writes (h : job.Of msgs seqno) (hsent : Sent msgs) {k : ℕ}
    (hk : job.seqno < k) (hle : k ≤ seqno) (hm : msgs[k]? = some m) (hw : job.Writes fPage) :
    ¬m.Writes fPage := by
  intro hmw
  obtain ⟨m', hm', hw'⟩ := h.writes hw
  obtain ⟨i, offset, length, hi, hik, hreq, -⟩ := hsent.separated _ _ m' m fPage hk hm' hm hw' hmw
  exact h.alone i offset length hi (hik.trans_le hle) hreq

theorem Job.Of.disjoint (h : job.Of msgs seqno) (h' : job'.Of msgs seqno) (hsent : Sent msgs)
    (hne : job.seqno ≠ job'.seqno) (hw : job.Writes fPage) : ¬job'.Writes fPage := by
  intro hw'
  obtain ⟨m, hm, hmw⟩ := h.writes hw
  obtain ⟨m', hm', hmw'⟩ := h'.writes hw'
  rcases Nat.lt_or_gt_of_ne hne with hlt | hlt
  · exact h.not_writes hsent hlt (Nat.le_of_lt h'.lt) hm' hw hmw'
  · exact h'.not_writes hsent hlt (Nat.le_of_lt h.lt) hm hw' hmw

theorem Job.Of.goal (h : job.Of msgs seqno) (hsent : Sent msgs)
    (hpage : page ∈ job.pages) : contents msgs seqno (atop page.1) =
      put job.ifAbsent (contents msgs job.seqno (atop page.1)) page.2 := by
  obtain ⟨m, hm, hifAbsent, hpages⟩ := h.message
  have hw : job.Writes (atop page.1) := ⟨page, hpage, rfl⟩
  rw [contents_eq (a := job.seqno + 1) h.lt fun k m' hk hlt hm' =>
      h.not_writes hsent hk (Nat.le_of_lt hlt) hm' hw,
    contents_succ hm, after_of_mem (hsent.once m (mem_of_getElem? hm)) (hpages.subset hpage),
    hifAbsent]

theorem Job.Of.length (h : job.Of msgs seqno) (hsent : Sent msgs)
    (hpage : page ∈ job.pages) : page.2.length = pageSize := by
  obtain ⟨m, hm, -, hpages⟩ := h.message
  exact (hsent.whole m (mem_of_getElem? hm)).2 page (hpages.subset hpage)

theorem Job.Of.once (h : job.Of msgs seqno) (hsent : Sent msgs) :
    (job.pages.map fun page => atop page.1).Nodup := by
  obtain ⟨m, hm, -, hpages⟩ := h.message
  exact (hsent.once m (mem_of_getElem? hm)).sublist (hpages.sublist.map _)

theorem Job.Of.rest (h : job.Of msgs seqno) {rest : List (ℕ × List Byte)}
    (hrest : job.rest = page :: rest) :
    Job.Of msgs seqno ⟨job.seqno, job.ifAbsent, page, rest⟩ where
  lt := h.lt
  message := by
    obtain ⟨m, hm, hifAbsent, hpages⟩ := h.message
    refine ⟨m, hm, hifAbsent, List.IsSuffix.trans ?_ hpages⟩
    rw [Job.pages, Job.pages, hrest]
    exact suffix_cons _ _
  alone := h.alone

end Order

/-! ## Where the threads are -/

def Place.number : Place Byte → Option ℕ
  | .idle => none
  | .lock seqno _ _ | .waitForWriters seqno _ _ | .readOffset seqno _ | .reading seqno _ _ _ _ =>
    some seqno
  | .hasPage job | .writeOffset job | .extend job | .extending job | .indirect job
  | .writing job _ _ => some job.seqno

def Place.job : Place Byte → Option (Job Byte)
  | .hasPage job | .writeOffset job | .extend job | .extending job | .indirect job
  | .writing job _ _ => some job
  | _ => none

@[simp] theorem wakeSeqno_number (p : Place Byte) : p.wakeSeqno.number = p.number := by
  cases p <;> rfl

@[simp] theorem wakeWriters_number (p : Place Byte) : p.wakeWriters.number = p.number := by
  cases p <;> rfl

@[simp] theorem wakeSeqno_job (p : Place Byte) : p.wakeSeqno.job = p.job := by cases p <;> rfl

@[simp] theorem wakeWriters_job (p : Place Byte) : p.wakeWriters.job = p.job := by cases p <;> rfl

variable {job : Job Byte} {p : Place Byte}

theorem wakeSeqno_indirect (h : p.wakeSeqno = .indirect job) :
    p = .indirect job := by cases p <;> first | exact h | cases h

theorem wakeWriters_indirect (h : p.wakeWriters = .indirect job) : p = .indirect job := by
  cases p <;> first | exact h | cases h

section Control
variable [PageSize]

/-- A request with its number. -/
def IsRequest (msgs : List (Request Byte)) (seqno offset : ℕ) : Prop :=
  ∃ length, msgs[seqno]? = some (.dataRequest offset length)

/-- What the order of the messages says of a thread. -/
def Ordered (msgs : List (Request Byte)) (seqno : ℕ) (waitingSeqno waitingWrite : Bool)
    (writers : ℕ) : Place Byte → Prop
  | .idle => True
  | .lock k m asleep => seqno ≤ k ∧ msgs[k]? = some m ∧
      (asleep = true → seqno ≠ k ∧ waitingSeqno = true)
  | .waitForWriters k offset asleep => k = seqno ∧ IsRequest msgs k offset ∧
      (asleep = true → writers ≠ 0 ∧ waitingWrite = true)
  | .readOffset k offset | .reading k offset _ _ _ => k < seqno ∧ IsRequest msgs k offset
  | .hasPage job | .writeOffset job | .extend job | .extending job | .indirect job
  | .writing job _ _ => job.Of msgs seqno

/-- What it says of them all. -/
structure Control (msgs : List (Request Byte)) (received seqno : ℕ)
    (waitingSeqno waitingWrite : Bool) (writers : ℕ) (place : T → Place Byte) : Prop where
  le : seqno ≤ received
  lt : ∀ t, ∀ n ∈ (place t).number, n < received
  distinct : ∀ t u n, (place t).number = some n → (place u).number = some n → t = u
  ordered : ∀ t, Ordered msgs seqno waitingSeqno waitingWrite writers (place t)

variable [DecidableEq T] {msgs : List (Request Byte)} {received seqno writers : ℕ}
  {waitingSeqno waitingWrite : Bool} {place : T → Place Byte} {t : T} {p : Place Byte}

omit [DecidableEq T] in
theorem Control.of_job {job : Job Byte}
    (h : Control msgs received seqno waitingSeqno waitingWrite writers place)
    (hjob : (place t).job = some job) : job.Of msgs seqno := by
  have ht := h.ordered t
  cases hp : place t <;> rw [hp] at ht hjob
  case idle | lock | waitForWriters | readOffset | reading => exact nomatch hjob
  all_goals
    obtain rfl := some.inj hjob
    exact ht

theorem Control.moves
    (h : Control msgs received seqno waitingSeqno waitingWrite writers place)
    (hn : ∀ n ∈ p.number, (place t).number = some n)
    (hord : Ordered msgs seqno waitingSeqno waitingWrite writers p) :
    Control msgs received seqno waitingSeqno waitingWrite writers (update place t p) where
  le := h.le
  lt u n hu := by
    by_cases hut : u = t
    · subst hut
      rw [update_self] at hu
      exact h.lt u n (hn n hu)
    · rw [update_of_ne hut] at hu
      exact h.lt u n hu
  distinct u v n hu hv := by
    by_cases hut : u = t <;> by_cases hvt : v = t
    · rw [hut, hvt]
    · subst hut
      rw [update_self] at hu
      rw [update_of_ne hvt] at hv
      exact h.distinct u v n (hn n hu) hv
    · subst hvt
      rw [update_self] at hv
      rw [update_of_ne hut] at hu
      exact h.distinct u v n hu (hn n hv)
    · rw [update_of_ne hut] at hu
      rw [update_of_ne hvt] at hv
      exact h.distinct u v n hu hv
  ordered u := by
    by_cases hut : u = t
    · subst hut
      rwa [update_self]
    · rw [update_of_ne hut]
      exact h.ordered u

theorem Control.receive {m : Request Byte}
    (h : Control msgs received seqno waitingSeqno waitingWrite writers place)
    (hm : msgs[received]? = some m) :
    Control msgs (received + 1) seqno waitingSeqno waitingWrite writers
      (update place t (.lock received m false)) where
  le := Nat.le_succ_of_le h.le
  lt u n hu := by
    by_cases hut : u = t
    · subst hut
      rw [update_self] at hu
      obtain rfl := some.inj hu
      exact Nat.lt_succ_self _
    · rw [update_of_ne hut] at hu
      exact Nat.lt_succ_of_lt (h.lt u n hu)
  distinct u v n hu hv := by
    by_cases hut : u = t <;> by_cases hvt : v = t
    · rw [hut, hvt]
    · subst hut
      rw [update_self] at hu
      rw [update_of_ne hvt] at hv
      obtain rfl := some.inj hu
      exact absurd (h.lt v _ hv) (Nat.lt_irrefl _)
    · subst hvt
      rw [update_self] at hv
      rw [update_of_ne hut] at hu
      obtain rfl := some.inj hv
      exact absurd (h.lt u _ hu) (Nat.lt_irrefl _)
    · rw [update_of_ne hut] at hu
      rw [update_of_ne hvt] at hv
      exact h.distinct u v n hu hv
  ordered u := by
    by_cases hut : u = t
    · subst hut
      rw [update_self]
      exact ⟨h.le, hm, nofun⟩
    · rw [update_of_ne hut]
      exact h.ordered u

variable {writers' : ℕ}

section
omit [DecidableEq T]

theorem Control.change {seqno' : ℕ} {waitingSeqno' waitingWrite' : Bool}
    (h : Control msgs received seqno waitingSeqno waitingWrite writers place)
    (wake : Place Byte → Place Byte)
    (hle : seqno' ≤ received) (hnumber : ∀ p, (wake p).number = p.number)
    (hord : ∀ t, Ordered msgs seqno waitingSeqno waitingWrite writers (place t) →
      Ordered msgs seqno' waitingSeqno' waitingWrite' writers' (wake (place t))) :
    Control msgs received seqno' waitingSeqno' waitingWrite' writers' fun t => wake (place t) where
  le := hle
  lt t n hn := h.lt t n (by rwa [hnumber] at hn)
  distinct t u n ht hu := h.distinct t u n (by rwa [hnumber] at ht) (by rwa [hnumber] at hu)
  ordered t := hord t (h.ordered t)

/-- `waiting_seqno` is set. -/
theorem Control.waitSeqno
    (h : Control msgs received seqno waitingSeqno waitingWrite writers place) :
    Control msgs received seqno true waitingWrite writers place := by
  refine h.change id h.le (fun _ => rfl) fun t ht => ?_
  rw [id]
  cases hp : place t <;> rw [hp] at ht
  case lock k m asleep => exact ⟨ht.1, ht.2.1, fun hs => ⟨(ht.2.2 hs).1, rfl⟩⟩
  all_goals exact ht

/-- `waiting_write` is set. -/
theorem Control.waitWrite
    (h : Control msgs received seqno waitingSeqno waitingWrite writers place) :
    Control msgs received seqno waitingSeqno true writers place := by
  refine h.change id h.le (fun _ => rfl) fun t ht => ?_
  rw [id]
  cases hp : place t <;> rw [hp] at ht
  case waitForWriters k offset asleep => exact ⟨ht.1, ht.2.1, fun hs => ⟨(ht.2.2 hs).1, rfl⟩⟩
  all_goals exact ht

theorem Control.startWrite
    (h : Control msgs received seqno waitingSeqno waitingWrite writers place) :
    Control msgs received seqno waitingSeqno waitingWrite (writers + 1) place := by
  refine h.change id h.le (fun _ => rfl) fun t ht => ?_
  rw [id]
  cases hp : place t <;> rw [hp] at ht
  case waitForWriters k offset asleep =>
    exact ⟨ht.1, ht.2.1, fun hs => ⟨Nat.succ_ne_zero _, (ht.2.2 hs).2⟩⟩
  all_goals exact ht

theorem Control.endWrite (h : Control msgs received seqno waitingSeqno waitingWrite writers place)
    (hnone : ¬(writers' = 0 ∧ waitingWrite = true)) :
    Control msgs received seqno waitingSeqno waitingWrite writers' place := by
  refine h.change id h.le (fun _ => rfl) fun t ht => ?_
  rw [id]
  cases hp : place t <;> rw [hp] at ht
  case waitForWriters k offset asleep =>
    refine ⟨ht.1, ht.2.1, fun hs => ⟨fun hzero => hnone ⟨hzero, (ht.2.2 hs).2⟩, (ht.2.2 hs).2⟩⟩
  all_goals exact ht

theorem Control.lastWrite
    (h : Control msgs received seqno waitingSeqno waitingWrite writers place) :
    Control msgs received seqno waitingSeqno false writers' fun t => (place t).wakeWriters := by
  refine h.change _ h.le wakeWriters_number fun t ht => ?_
  cases hp : place t <;> rw [hp] at ht
  case waitForWriters k offset asleep => exact ⟨ht.1, ht.2.1, nofun⟩
  all_goals exact ht

end

/-- `pager_port_unlock`, by the thread whose turn it is. -/
theorem Control.unlock
    (h : Control msgs received seqno waitingSeqno waitingWrite writers place)
    (ht : (place t).number = some seqno)
    (hjobs : ∀ u job, (place u).job = some job →
      ∀ offset length, msgs[seqno]? ≠ some (.dataRequest offset length))
    (hn : ∀ n ∈ p.number, n = seqno)
    (hord : Ordered msgs (seqno + 1) false waitingWrite writers p) :
    Control msgs received (seqno + 1) false waitingWrite writers
      (update (fun u => (place u).wakeSeqno) t p) where
  le := h.lt t seqno ht
  lt u n hu := by
    by_cases hut : u = t
    · subst hut
      rw [update_self] at hu
      rw [hn n hu]
      exact h.lt u seqno ht
    · rw [update_of_ne hut, wakeSeqno_number] at hu
      exact h.lt u n hu
  distinct u v n hu hv := by
    have hplace : ∀ u, (update (fun u => (place u).wakeSeqno) t p u).number = some n →
        (place u).number = some n := by
      intro u hu
      by_cases hut : u = t
      · subst hut
        rw [update_self] at hu
        rw [hn n hu]
        exact ht
      · rwa [update_of_ne hut, wakeSeqno_number] at hu
    exact h.distinct u v n (hplace u hu) (hplace v hv)
  ordered u := by
    by_cases hut : u = t
    · subst hut
      rwa [update_self]
    · rw [update_of_ne hut]
      have hne : ∀ n, (place u).number = some n → n ≠ seqno := fun n hun heq =>
        hut (h.distinct u t seqno (heq ▸ hun) ht)
      have hu := h.ordered u
      have hjob := hjobs u
      cases hp : place u <;> rw [hp] at hu hne hjob
      case idle => trivial
      case lock k m asleep =>
        exact ⟨Nat.lt_of_le_of_ne hu.1 (hne k rfl).symm, hu.2.1, nofun⟩
      case waitForWriters k offset asleep => exact absurd hu.1 (hne k rfl)
      case readOffset | reading => exact ⟨Nat.lt_succ_of_lt hu.1, hu.2⟩
      all_goals exact Job.Of.succ hu (hjob _ rfl)

end Control

/-! ## The pages -/

section Pages
variable [PageSize]

/-- The block of each page and what is in it. -/
def view (pager : Dpager) (bytes : σ → ℕ → Byte) (device : σ) (fPage : ℕ) :
    Option (ℕ × List Byte) :=
  (pager.block fPage).map fun block => (block, pageAt bytes device block)

def held (view : ℕ → Option (ℕ × List Byte)) (fPage : ℕ) : Option (List Byte) :=
  (view fPage).map Prod.snd

/-- The page that is being written is to be written, and the rest is as the message found it. -/
structure Pending (msgs : List (Request Byte)) (view : ℕ → Option (ℕ × List Byte))
    (job : Job Byte) : Prop where
  absent : job.ifAbsent = true → contents msgs job.seqno (atop job.page.1) = none
  rest : ∀ page ∈ job.rest, held view (atop page.1) = contents msgs job.seqno (atop page.1)

/-- What the pages are to a thread. -/
def Shown (msgs : List (Request Byte)) (view : ℕ → Option (ℕ × List Byte)) : Place Byte → Prop
  | .readOffset k offset => held view (atop offset) = contents msgs k (atop offset)
  | .reading k offset _ done next =>
    ∃ block page, view (atop offset) = some (block, page) ∧
      contents msgs k (atop offset) = some page ∧ next = block * pageSize + done.length ∧
      done = page.take done.length ∧ done.length < pageSize
  | .hasPage job => job.ifAbsent = true ∧
      ∀ page ∈ job.pages, held view (atop page.1) = contents msgs job.seqno (atop page.1)
  | .writeOffset job | .extend job | .extending job | .indirect job => Pending msgs view job
  | .writing job next data => Pending msgs view job ∧
      ∃ block page n, view (atop job.page.1) = some (block, page) ∧
        next = block * pageSize + n ∧ data = job.page.2.drop n ∧ n < pageSize ∧
        page.take n = job.page.2.take n
  | _ => True

/-- A page that nobody writes is as the messages that have started leave it. -/
structure Pages (msgs : List (Request Byte)) (seqno : ℕ) (view : ℕ → Option (ℕ × List Byte))
    (place : T → Place Byte) : Prop where
  quiet : ∀ fPage, (∀ t, ∀ job ∈ (place t).job, ¬job.Writes fPage) →
    held view fPage = contents msgs seqno fPage
  shown : ∀ t, Shown msgs view (place t)

def Place.Touches (p : Place Byte) (fPage : ℕ) : Prop :=
  (∃ offset ∈ p.reads, atop offset = fPage) ∨ ∃ job ∈ p.job, job.Writes fPage

variable {msgs : List (Request Byte)} {seqno : ℕ} {view view' : ℕ → Option (ℕ × List Byte)}
  {place : T → Place Byte} {t : T} {p : Place Byte} {m : Request Byte}

theorem Pending.congr {job : Job Byte} (h : Pending msgs view job)
    (hview : ∀ fPage, job.Writes fPage → view' fPage = view fPage) : Pending msgs view' job where
  absent := h.absent
  rest page hpage := by
    rw [held, hview _ ⟨page, mem_cons_of_mem _ hpage, rfl⟩]
    exact h.rest page hpage

theorem Shown.congr (h : Shown msgs view p)
    (hview : ∀ fPage, p.Touches fPage → view' fPage = view fPage) : Shown msgs view' p := by
  have hread : ∀ offset ∈ p.reads, view' (atop offset) = view (atop offset) :=
    fun offset hoffset => hview _ (Or.inl ⟨offset, hoffset, rfl⟩)
  have hjob : ∀ job ∈ p.job, ∀ fPage, job.Writes fPage → view' fPage = view fPage :=
    fun job hjob fPage hw => hview _ (Or.inr ⟨job, hjob, hw⟩)
  cases p with
  | idle | lock | waitForWriters => trivial
  | readOffset k offset =>
    change (view' _).map _ = _
    rw [hread offset rfl]
    exact h
  | reading k offset firstTime done next =>
    obtain ⟨block, page, hpage, hrest⟩ := h
    exact ⟨block, page, (hread offset rfl).trans hpage, hrest⟩
  | hasPage job =>
    refine ⟨h.1, fun page hpage => ?_⟩
    rw [held, hjob job rfl _ ⟨page, hpage, rfl⟩]
    exact h.2 page hpage
  | writeOffset job | extend job | extending job | indirect job =>
    exact Pending.congr h (hjob job rfl)
  | writing job next data =>
    obtain ⟨hpending, block, page, n, hpage, hrest⟩ := h
    refine ⟨hpending.congr (hjob job rfl), block, page, n, ?_, hrest⟩
    rw [hjob job rfl _ ⟨job.page, mem_cons_self, rfl⟩]
    exact hpage

theorem Shown.wakeSeqno (h : Shown msgs view p) : Shown msgs view p.wakeSeqno := by
  cases p <;> exact h

theorem Shown.wakeWriters (h : Shown msgs view p) : Shown msgs view p.wakeWriters := by
  cases p <;> exact h

theorem Pages.wakeWriters (h : Pages msgs seqno view place) :
    Pages msgs seqno view fun t => (place t).wakeWriters where
  quiet fPage hnone := h.quiet fPage fun t job hjob => hnone t job (by rwa [wakeWriters_job])
  shown t := (h.shown t).wakeWriters

variable [DecidableEq T]

theorem Pages.moves (h : Pages msgs seqno view place)
    (hothers : ∀ u, u ≠ t → ∀ fPage, (place u).Touches fPage → view' fPage = view fPage)
    (hquiet : ∀ fPage, (∀ job ∈ p.job, ¬job.Writes fPage) →
      (∀ job ∈ (place t).job, ¬job.Writes fPage) ∧ view' fPage = view fPage)
    (hshown : Shown msgs view' p) : Pages msgs seqno view' (update place t p) where
  quiet fPage hnone := by
    have ht := hnone t
    rw [update_self] at ht
    obtain ⟨hold, hview⟩ := hquiet fPage ht
    rw [held, hview]
    refine h.quiet fPage fun u => ?_
    by_cases hut : u = t
    · rw [hut]
      exact hold
    · have hu := hnone u
      rwa [update_of_ne hut] at hu
  shown u := by
    by_cases hut : u = t
    · subst hut
      rwa [update_self]
    · rw [update_of_ne hut]
      exact (h.shown u).congr (hothers u hut)

theorem Pages.same (h : Pages msgs seqno view place) (hjob : p.job = (place t).job)
    (hshown : Shown msgs view p) : Pages msgs seqno view (update place t p) :=
  h.moves (fun _ _ _ _ => rfl) (fun _ hnone => ⟨hjob ▸ hnone, rfl⟩) hshown

omit [DecidableEq T] in
theorem Pages.start (h : Pages msgs seqno view place) (hm : msgs[seqno]? = some m)
    (ht : (place t).job = none) {fPage : ℕ}
    (hnone : ∀ u, u ≠ t → ∀ job ∈ (place u).job, ¬job.Writes fPage) (hnot : ¬m.Writes fPage) :
    held view fPage = contents msgs (seqno + 1) fPage := by
  rw [contents_succ hm, after_of_not_writes hnot]
  refine h.quiet fPage fun u job hjob => ?_
  by_cases hut : u = t
  · rw [hut, ht] at hjob
    exact absurd hjob (Option.not_mem_none job)
  · exact hnone u hut job hjob

end Pages

/-! ## The map and the partition -/

section Disk

/-- The blocks that have been handed out are those of the pages, each of one page. -/
structure Disk (total : ℕ) (dpager : Dpager) (part : Part) : Prop where
  fits : dpager.Fits
  total : part.totalSize = total
  marks : ∃ taken, part.Marks taken ∧ ∀ b, b ∈ taken ↔ ∃ fPage, dpager.block fPage = some b
  inj : ∀ i j b, dpager.block i = some b → dpager.block j = some b → i = j

variable {total fPage : ℕ} {dpager : Dpager} {part : Part}

theorem disk_init (objectSize size : ℕ) :
    Disk size (pagerAlloc objectSize) (partCreate size) where
  fits := Dpager.fits_pagerAlloc objectSize
  total := rfl
  marks := ⟨∅, Part.marks_create size, fun b => by simp [Dpager.block_pagerAlloc]⟩
  inj i j b hi := by simp [Dpager.block_pagerAlloc] at hi

theorem Disk.lt (h : Disk total dpager part) {b : ℕ} (hb : dpager.block fPage = some b) :
    b < total := by
  obtain ⟨taken, hmarks, htaken⟩ := h.marks
  exact h.total ▸ hmarks.lt b ((htaken b).2 ⟨fPage, hb⟩)

theorem Disk.blocks (h : Disk total dpager part) (b : ℕ) (hb : part.used b = true) :
    ∃! fPage, dpager.block fPage = some b := by
  obtain ⟨taken, hmarks, htaken⟩ := h.marks
  obtain ⟨fPage, hpage⟩ := (htaken b).1 ((hmarks.used b).1 hb)
  exact ⟨fPage, hpage, fun j hj => h.inj j fPage b hj hpage⟩

/-- `pager_extend` -/
theorem Disk.extend (h : Disk total dpager part) (newSize : ℕ) :
    ∃ dpager', pagerExtend dpager newSize = .ok dpager' ∧ Disk total dpager' part ∧
      dpager'.block = dpager.block ∧ dpager.size ≤ dpager'.size := by
  obtain ⟨dpager', hextend, hfits, hblock, -, hsize⟩ := h.fits.extend newSize
  refine ⟨dpager', hextend, ⟨hfits, h.total, ?_, ?_⟩, hblock, hsize⟩
  · rw [hblock]
    exact h.marks
  · rw [hblock]
    exact h.inj

/-- `pager_write_offset`, of a page in the map: the page has its block, or one that nobody has. -/
theorem Disk.assigns (h : Disk total dpager part) (hsize : fPage < dpager.size)
    (hroom : dpager.block fPage = none → part.free ≠ 0) :
    ∃ b dpager' part', pagerWriteWithin dpager fPage part = .ok (b, dpager', part') ∧
      Disk total dpager' part' ∧ dpager'.block = update dpager.block fPage (some b) ∧
      dpager'.size = dpager.size ∧ ∀ c, dpager.block fPage = some c → c = b := by
  obtain ⟨taken, hmarks, htaken⟩ := h.marks
  cases hblock : dpager.block fPage with
  | some b =>
    have hassign : blockOrAlloc (dpager.block fPage) part = .ok (b, part) := by rw [hblock]; rfl
    obtain ⟨dpager', hwrite, hfits, hblocks, hsize'⟩ := h.fits.writeWithin hsize hassign
    have hsame : dpager'.block = dpager.block := by
      rw [hblocks, ← hblock, update_eq_self]
    refine ⟨b, dpager', part, hwrite, ⟨hfits, h.total, ?_, ?_⟩, hblocks, hsize',
      fun c hc => (some.inj hc).symm⟩
    · rw [hsame]
      exact h.marks
    · rw [hsame]
      exact h.inj
  | none =>
    obtain ⟨b, part', halloc, hfree, hmarks', htotal, -⟩ := hmarks.alloc (hroom hblock)
    have hassign : blockOrAlloc (dpager.block fPage) part = .ok (b, part') := by
      simp only [hblock, blockOrAlloc, halloc]
    obtain ⟨dpager', hwrite, hfits, hblocks, hsize'⟩ := h.fits.writeWithin hsize hassign
    have hnew : ∀ i, dpager.block i ≠ some b := fun i hi => hfree ((htaken b).2 ⟨i, hi⟩)
    refine ⟨b, dpager', part', hwrite, ⟨hfits, htotal.trans h.total, ?_, ?_⟩, hblocks, hsize',
      fun c hc => by cases hc⟩
    · refine ⟨_, hmarks', fun c => ?_⟩
      rw [Finset.mem_insert, htaken, hblocks]
      constructor
      · rintro (rfl | ⟨i, hi⟩)
        · exact ⟨fPage, update_self ..⟩
        · have hne : i ≠ fPage := fun heq => by simp [heq, hblock] at hi
          exact ⟨i, by rwa [update_of_ne hne]⟩
      · rintro ⟨i, hi⟩
        by_cases hne : i = fPage
        · rw [hne, update_self] at hi
          exact Or.inl (some.inj hi).symm
        · rw [update_of_ne hne] at hi
          exact Or.inr ⟨i, hi⟩
    · intro i j c hi hj
      rw [hblocks] at hi hj
      by_cases hie : i = fPage <;> by_cases hje : j = fPage
      · rw [hie, hje]
      · rw [hie, update_self] at hi
        rw [update_of_ne hje, ← some.inj hi] at hj
        exact absurd hj (hnew j)
      · rw [hje, update_self] at hj
        rw [update_of_ne hie, ← some.inj hj] at hi
        exact absurd hi (hnew i)
      · rw [update_of_ne hie] at hi
        rw [update_of_ne hje] at hj
        exact h.inj i j c hi hj

theorem Disk.putTable (h : Disk total dpager part) (hmissing : missing dpager fPage = true) :
    Disk total (putTable dpager fPage) part ∧ (putTable dpager fPage).block = dpager.block ∧
      (putTable dpager fPage).size = dpager.size := by
  obtain ⟨map, size⟩ := dpager
  cases map with
  | direct blocks => exact absurd hmissing Bool.false_ne_true
  | indirect tables =>
    have hnone : tables[fPage / pagemapEntries]? = some none := by simpa [missing] using hmissing
    have hblock : (ParallelPaging.putTable ⟨.indirect tables, size⟩ fPage).block =
        Dpager.block ⟨.indirect tables, size⟩ := by
      funext j
      simp only [ParallelPaging.putTable, Dpager.block, List.getElem?_set]
      by_cases hj : fPage / pagemapEntries = j / pagemapEntries
      · rw [if_pos hj, ← hj, hnone]
        have hlt := (List.getElem?_eq_some_iff.1 hnone).1
        simp only [if_pos hlt, Option.join_some, bind_some, Option.bind_none,
          Option.join_none, getElem?_replicate]
        split <;> rfl
      · rw [if_neg hj]
    refine ⟨⟨?_, h.total, by rw [hblock]; exact h.marks, by rw [hblock]; exact h.inj⟩, hblock, rfl⟩
    obtain ⟨hpos, hind, hlen, htables⟩ := h.fits
    refine ⟨hpos, hind, List.length_set.trans hlen, fun table htable => ?_⟩
    rcases List.mem_or_eq_of_mem_set htable with htable | htable
    · exact htables table htable
    · rw [some.inj htable, length_replicate]

end Disk

/-! ## The transfers -/

section Transfers
variable [PageSize] {bytes : σ → ℕ → Byte} {dev : Device σ Byte} {device device' : σ}
  {dpager : Dpager} {part : Part} {total b n fPage : ℕ} {data page : List Byte}

theorem length_pageAt : (pageAt bytes device b).length = pageSize := by simp [pageAt]

variable {k : ℕ}

theorem getElem?_pageAt (hk : k < pageSize) :
    (pageAt bytes device b)[k]? = some (bytes device (b * pageSize + k)) := by
  simp [pageAt, hk]

theorem take_append_piece {done : List Byte} (hdone : done = (pageAt bytes device b).take done.length)
    (hn : done.length + n ≤ pageSize) :
    done ++ (List.range n).map (fun k => bytes device (b * pageSize + done.length + k)) =
      (pageAt bytes device b).take (done.length + n) := by
  refine ext_getElem? fun k => ?_
  rw [getElem?_take]
  rcases Nat.lt_or_ge k done.length with hk | hk
  · rw [getElem?_append_left hk, if_pos (by omega), hdone, getElem?_take,
      if_pos (hdone ▸ hk)]
  · rw [getElem?_append_right hk, getElem?_map]
    split
    · rename_i hlt
      rw [getElem?_pageAt (by omega), getElem?_range (by omega), map_some]
      congr 2
      omega
    · rw [getElem?_eq_none (by rw [length_range]; omega), map_none]

theorem view_write (hdisk : Disk total dpager part) (hb : dpager.block fPage = some b)
    (hn : n + k ≤ pageSize) (hbytes : ∀ a, a < b * pageSize + n ∨ b * pageSize + n + k ≤ a →
      bytes device' a = bytes device a) {j : ℕ} (hj : j ≠ fPage) :
    view dpager bytes device' j = view dpager bytes device j := by
  rw [view, view]
  cases hc : dpager.block j with
  | none => rfl
  | some c =>
    have hne : c ≠ b := fun heq => hj (hdisk.inj j fPage b (heq ▸ hc) hb)
    rw [map_some, map_some]
    refine congrArg (fun p => some (c, p)) (map_congr_left fun i hi => hbytes _ ?_)
    have hi' := mem_range.1 hi
    -- two blocks have no byte in common
    rcases Nat.lt_or_gt_of_ne hne with hlt | hlt
    · have := Nat.mul_le_mul_right pageSize (Nat.succ_le_of_lt hlt)
      rw [Nat.succ_mul] at this
      omega
    · have := Nat.mul_le_mul_right pageSize (Nat.succ_le_of_lt hlt)
      rw [Nat.succ_mul] at this
      omega

theorem take_write (hpage : page.length = pageSize) (hdata : data = page.drop n)
    (hbefore : (pageAt bytes device b).take n = page.take n) (hk : k ≤ data.length)
    (hn : n < pageSize)
    (hbytes : ∀ a, bytes device' a = if b * pageSize + n ≤ a ∧ a < b * pageSize + n + k then
        data[a - (b * pageSize + n)]?.getD (bytes device a)
      else bytes device a) :
    (pageAt bytes device' b).take (n + k) = page.take (n + k) := by
  have hlen : data.length = pageSize - n := by rw [hdata, length_drop, hpage]
  refine ext_getElem? fun i => ?_
  rw [getElem?_take, getElem?_take]
  split
  swap
  · rfl
  rename_i hi
  have hip : i < pageSize := by omega
  rw [getElem?_pageAt hip, hbytes]
  rcases Nat.lt_or_ge i n with hin | hin
  · have hold := congrArg (·[i]?) hbefore
    simp only [getElem?_take, if_pos hin, getElem?_pageAt hip] at hold
    rw [if_neg (by omega), hold]
  · have hlt : i < page.length := by omega
    have hget : data[i - n]? = some page[i] := by
      rw [hdata, getElem?_drop, Nat.add_sub_cancel' hin, getElem?_eq_getElem]
    rw [if_pos (by omega), show b * pageSize + i - (b * pageSize + n) = i - n by omega, hget,
      getD_some, getElem?_eq_getElem]

end Transfers

/-! ## The pager -/

section Steps
variable [PageSize] [Fintype T] [DecidableEq T] {bytes : σ → ℕ → Byte} {dev : Device σ Byte}
  {msgs : List (Request Byte)} {total : ℕ} {s : Pager T σ Byte} {t : T}

def writes (p : Place Byte) : Bool := p.job.isSome

/-- What holds between any two turns. -/
structure Inv (bytes : σ → ℕ → Byte) (msgs : List (Request Byte)) (total : ℕ)
    (s : Pager T σ Byte) : Prop where
  disk : Disk total s.dpager s.part
  errors : s.errors = 0
  control : Control msgs s.received s.seqno s.waitingSeqno s.waitingWrite s.writers s.place
  count : s.writers = Counting.count writes s.place
  pages : Pages msgs s.seqno (view s.dpager bytes s.device) s.place
  covered : ∀ u job, s.place u = .indirect job → atop job.page.1 < s.dpager.size

omit [DecidableEq T] in
theorem Inv.paged (h : Inv bytes msgs total s) : Paged s where
  blocks := h.disk.blocks
  turns u k m hu := by
    have := h.control.ordered u
    rw [hu] at this
    exact (this.2.2 rfl).1
  writers u k offset hu := by
    have := h.control.ordered u
    rw [hu] at this
    exact (this.2.2 rfl).1

/-- A thread is to go on with the next page of a message. -/
structure Between (bytes : σ → ℕ → Byte) (msgs : List (Request Byte)) (total : ℕ)
    (s : Pager T σ Byte) (t : T) (k : ℕ) (ifAbsent : Bool) (rest : List (ℕ × List Byte)) :
    Prop where
  disk : Disk total s.dpager s.part
  errors : s.errors = 0
  control : ∀ p : Place Byte, (∀ n ∈ p.number, n = k) →
    Ordered msgs s.seqno s.waitingSeqno s.waitingWrite s.writers p →
    Control msgs s.received s.seqno s.waitingSeqno s.waitingWrite s.writers
      (update s.place t p)
  count : s.writers = Counting.count writes (update s.place t .idle) + 1
  job : ∀ page pages, rest = page :: pages → Job.Of msgs s.seqno ⟨k, ifAbsent, page, pages⟩
  quiet : ∀ fPage, (∀ u, u ≠ t → ∀ job ∈ (s.place u).job, ¬job.Writes fPage) →
    (∀ page ∈ rest, atop page.1 ≠ fPage) →
    held (view s.dpager bytes s.device) fPage = contents msgs s.seqno fPage
  shown : ∀ u, u ≠ t → Shown msgs (view s.dpager bytes s.device) (s.place u)
  rest : ∀ page ∈ rest, held (view s.dpager bytes s.device) (atop page.1) =
    contents msgs k (atop page.1)
  covered : ∀ u job, u ≠ t → s.place u = .indirect job → atop job.page.1 < s.dpager.size

variable {k : ℕ} {ifAbsent : Bool} {rest : List (ℕ × List Byte)}

variable {p : Place Byte} {m : Request Byte}

theorem Between.pages (h : Between bytes msgs total s t k ifAbsent rest)
    (hjob : ∀ page ∈ rest, ∃ job ∈ p.job, job.Writes (atop page.1))
    (hshown : Shown msgs (view s.dpager bytes s.device) p) :
    Pages msgs s.seqno (view s.dpager bytes s.device) (update s.place t p) where
  quiet fPage hnone := by
    refine h.quiet fPage (fun u hut job hu => hnone u job (by rwa [update_of_ne hut]))
      fun page hpage heq => ?_
    obtain ⟨job, hp, hw⟩ := hjob page hpage
    exact hnone t job (by rwa [update_self]) (heq ▸ hw)
  shown u := by
    by_cases hut : u = t
    · subst hut
      rwa [update_self]
    · rw [update_of_ne hut]
      exact h.shown u hut

omit [Fintype T] in
theorem covered_update {place : T → Place Byte} {size : ℕ}
    (h : ∀ u job, u ≠ t → place u = .indirect job → atop job.page.1 < size) {p : Place Byte}
    (hp : ∀ job, p = .indirect job → atop job.page.1 < size) (u : T) (job : Job Byte)
    (hu : update place t p u = .indirect job) : atop job.page.1 < size := by
  by_cases hut : u = t
  · subst hut
    rw [update_self] at hu
    exact hp job hu
  · rw [update_of_ne hut] at hu
    exact h u job hut hu

theorem Between.nextPage (h : Between bytes msgs total s t k ifAbsent rest) :
    Inv bytes msgs total (s.nextPage t k ifAbsent rest) := by
  cases rest with
  | nil =>
    have hidle := h.control .idle nofun trivial
    have hpages := h.pages (p := .idle) nofun trivial
    have hcount : s.writers - 1 = Counting.count writes (update s.place t .idle) := by
      rw [h.count, Nat.add_sub_cancel]
    have hcovered := covered_update h.covered (p := .idle) nofun
    rw [Pager.nextPage, Pager.finishWrite]
    split
    · refine ⟨h.disk, h.errors, hidle.lastWrite, ?_, hpages.wakeWriters, fun u job hu => ?_⟩
      · exact hcount.trans (Counting.count_congr fun u => by rw [writes, writes, wakeWriters_job]; rfl)
      · exact hcovered u job (wakeWriters_indirect hu)
    · rename_i hnone
      exact ⟨h.disk, h.errors, hidle.endWrite hnone, hcount, hpages, hcovered⟩
  | cons page rest =>
    have hof := h.job page rest rfl
    have hcount : ∀ p : Place Byte, writes p = true →
        s.writers = Counting.count writes (update s.place t p) := by
      intro p hp
      have := Counting.count_enter (f := update s.place t .idle) (t := t) hp
        (by rw [update_self]; rfl)
      rw [update_idem] at this
      rw [this]
      exact h.count
    rw [Pager.nextPage]
    cases ifAbsent with
    | true =>
      refine ⟨h.disk, h.errors, h.control _ (by simp [Place.number]) hof, hcount _ rfl, h.pages ?_ ?_,
        covered_update h.covered nofun⟩
      · exact fun q hq => ⟨_, rfl, q, hq, rfl⟩
      · exact ⟨rfl, h.rest⟩
    | false =>
      refine ⟨h.disk, h.errors, h.control _ (by simp [Place.number]) hof, hcount _ rfl, h.pages ?_ ?_,
        covered_update h.covered nofun⟩
      · exact fun q hq => ⟨_, rfl, q, hq, rfl⟩
      · exact ⟨nofun, fun q hq => h.rest q (mem_cons_of_mem _ hq)⟩

omit [Fintype T] [DecidableEq T] in
theorem portUnlock_eq (h : Control msgs s.received s.seqno s.waitingSeqno s.waitingWrite s.writers
    s.place) : s.portUnlock = { s with
      seqno := s.seqno + 1
      waitingSeqno := false
      place := fun u => (s.place u).wakeSeqno } := by
  rw [Pager.portUnlock]
  split
  · rfl
  · rename_i hwaiting
    have hfalse : s.waitingSeqno = false := by simpa using hwaiting
    have hawake : (fun u => (s.place u).wakeSeqno) = s.place := by
      funext u
      have hu := h.ordered u
      cases hp : s.place u with
      | lock k m asleep =>
        rw [hp] at hu
        cases asleep with
        | false => rfl
        | true => exact absurd (hu.2.2 rfl).2 hwaiting
      | _ => rfl
    rw [hawake, ← hfalse]

theorem Inv.moves (h : Inv bytes msgs total s)
    (hn : ∀ n ∈ p.number, (s.place t).number = some n)
    (hord : Ordered msgs s.seqno s.waitingSeqno s.waitingWrite s.writers p)
    (hjob : p.job = (s.place t).job) (hshown : Shown msgs (view s.dpager bytes s.device) p)
    (hcovered : ∀ job, p = .indirect job → atop job.page.1 < s.dpager.size) :
    Inv bytes msgs total (s.moves t p) where
  disk := h.disk
  errors := h.errors
  control := h.control.moves hn hord
  count := h.count.trans (Counting.count_same (by rw [writes, writes, hjob])).symm
  pages := h.pages.same hjob hshown
  covered := covered_update (fun u job _ => h.covered u job) hcovered

omit [PageSize] in
theorem count_wake {place : T → Place Byte} (hp : p.job = none) (ht : (place t).job = none) :
    Counting.count writes place =
      Counting.count writes (update (fun u => (place u).wakeSeqno) t p) := by
  refine Counting.count_congr fun u => ?_
  by_cases hut : u = t
  · rw [hut, update_self, writes, writes, ht, hp]
  · rw [update_of_ne hut, writes, writes, wakeSeqno_job]

theorem Inv.between (h : Inv bytes msgs total s) (hsent : Sent msgs)
    (hplace : s.place t = .lock s.seqno m false)
    (hwrite : ∀ offset length, m ≠ .dataRequest offset length) :
    Between bytes msgs total (Pager.portUnlock { s with writers := s.writers + 1 }) t s.seqno
      m.ifAbsent m.pages := by
  have ht := h.control.ordered t
  rw [hplace] at ht
  have hm := ht.2.1
  have hnumber : (s.place t).number = some s.seqno := by rw [hplace]; rfl
  have hjob : (s.place t).job = none := by rw [hplace]; rfl
  have hreq : ∀ offset length, msgs[s.seqno]? ≠ some (.dataRequest offset length) :=
    fun offset length heq => hwrite offset length (some.inj (hm.symm.trans heq))
  have hstart := h.control.startWrite
  rw [portUnlock_eq hstart]
  refine ⟨h.disk, h.errors, fun p hn hord => hstart.unlock hnumber (fun _ _ _ => hreq) hn hord,
    ?_, fun page pages heq => ?_, fun fPage hnone hpages => ?_, fun u _ => ?_, fun page hpage => ?_,
    fun u job _ hu => h.covered u job (wakeSeqno_indirect hu)⟩
  · exact congrArg (· + 1) (h.count.trans (count_wake rfl hjob))
  · exact ⟨Nat.lt_succ_self _, ⟨m, hm, rfl, by rw [Job.pages, heq]⟩, fun k _ _ hk hlt =>
      absurd (Nat.le_of_lt_succ hlt) (Nat.not_le_of_lt hk)⟩
  · refine h.pages.start hm hjob (fun u hut job hu => hnone u hut job ?_) fun hw => ?_
    · exact (wakeSeqno_job _).trans hu
    · obtain ⟨page, hpage, heq⟩ := hw
      exact hpages page hpage heq
  · exact (h.pages.shown u).wakeSeqno
  · refine h.pages.quiet _ fun u job hu hw => ?_
    have hof := h.control.of_job hu
    exact hof.not_writes hsent hof.lt (Nat.le_refl _) hm hw ⟨page, hpage, rfl⟩

theorem Inv.starts (h : Inv bytes msgs total s) (hsent : Sent msgs)
    (hplace : s.place t = .lock s.seqno m false) : Inv bytes msgs total (s.starts t s.seqno m) := by
  cases m with
  | dataRequest offset length =>
    have ht := h.control.ordered t
    rw [hplace] at ht
    refine h.moves (p := .waitForWriters s.seqno offset false) ?_ ⟨rfl, ⟨length, ht.2.1⟩, nofun⟩
      ?_ trivial nofun
    · rw [hplace]
      exact fun _ hn => hn
    · rw [hplace]
      rfl
  | dataInitialize offset data => exact (h.between hsent hplace nofun).nextPage
  | dataWrite offset data => exact (h.between hsent hplace nofun).nextPage

end Steps

section Turns
variable [PageSize] [Fintype T] [DecidableEq T] {bytes : σ → ℕ → Byte} {dev : Device σ Byte}
  {msgs : List (Request Byte)} {total : ℕ} {s : Pager T σ Byte} {t : T} {job : Job Byte}

omit [PageSize] in
theorem number_of_job {p : Place Byte} (h : p.job = some job) : p.number = some job.seqno := by
  cases p
  case idle | lock | waitForWriters | readOffset | reading => exact nomatch h
  all_goals
    obtain rfl := some.inj h
    rfl

omit [DecidableEq T] in
theorem Inv.alone (h : Inv bytes msgs total s) (hsent : Sent msgs)
    (hjob : (s.place t).job = some job) {fPage : ℕ} (hw : job.Writes fPage) {u : T} (hut : u ≠ t) :
    ∀ job' ∈ (s.place u).job, ¬job'.Writes fPage := by
  intro job' hjob'
  refine (h.control.of_job hjob).disjoint (h.control.of_job hjob') hsent (fun heq => hut ?_) hw
  exact h.control.distinct u t _ (number_of_job hjob') (heq ▸ number_of_job hjob)

variable {seqno : ℕ}

omit [Fintype T] [DecidableEq T] in
theorem Job.Of.rest_ne (h : job.Of msgs seqno) (hsent : Sent msgs) {page : ℕ × List Byte}
    (hpage : page ∈ job.rest) : atop page.1 ≠ atop job.page.1 := by
  intro heq
  have honce := h.once hsent
  rw [Job.pages, map_cons, nodup_cons] at honce
  exact honce.1 (mem_map.2 ⟨page, hpage, heq⟩)

omit [Fintype T] [DecidableEq T] in
theorem Pending.away {view view' : ℕ → Option (ℕ × List Byte)}
    (h : Pending msgs view job) (hof : job.Of msgs seqno) (hsent : Sent msgs)
    (hview : ∀ fPage, fPage ≠ atop job.page.1 → view' fPage = view fPage) :
    Pending msgs view' job where
  absent := h.absent
  rest page hpage := by
    rw [held, hview _ (hof.rest_ne hsent hpage)]
    exact h.rest page hpage

/-- A page is done: the thread goes on with those behind it. -/
theorem Inv.done (h : Inv bytes msgs total s) (hsent : Sent msgs)
    (hjob : (s.place t).job = some job) {device' : σ}
    (hview : ∀ fPage, fPage ≠ atop job.page.1 →
      view s.dpager bytes device' fPage = view s.dpager bytes s.device fPage)
    (hothers : ∀ u, u ≠ t → ∀ fPage, (s.place u).Touches fPage →
      view s.dpager bytes device' fPage = view s.dpager bytes s.device fPage)
    (hdone : held (view s.dpager bytes device') (atop job.page.1) =
      contents msgs s.seqno (atop job.page.1))
    (hrest : ∀ page ∈ job.rest, held (view s.dpager bytes s.device) (atop page.1) =
      contents msgs job.seqno (atop page.1)) :
    Between bytes msgs total { s with device := device' } t job.seqno job.ifAbsent job.rest where
  disk := h.disk
  errors := h.errors
  control p hn hord := h.control.moves (fun n hnp => by rw [hn n hnp, number_of_job hjob]) hord
  count := by
    have hw : writes (s.place t) = true := by rw [writes, hjob]; rfl
    exact h.count.trans (Counting.count_leave rfl hw).symm
  job page pages heq := (h.control.of_job hjob).rest heq
  quiet fPage hnone hpages := by
    by_cases hq : fPage = atop job.page.1
    · rw [hq]
      exact hdone
    · change (view s.dpager bytes device' fPage).map _ = _
      rw [hview fPage hq]
      refine h.pages.quiet fPage fun u j hj => ?_
      by_cases hut : u = t
      · rw [hut, hjob] at hj
        obtain rfl := some.inj hj
        rintro ⟨page, hpage, heq⟩
        rcases mem_cons.1 hpage with rfl | hpage
        · exact hq heq.symm
        · exact hpages page hpage heq
      · exact hnone u hut j hj
  shown u hut := (h.pages.shown u).congr (hothers u hut)
  rest page hpage := by
    change (view s.dpager bytes device' _).map _ = _
    rw [hview _ ((h.control.of_job hjob).rest_ne hsent hpage)]
    exact hrest page hpage
  covered u j _ hu := h.covered u j hu

theorem Inv.assigns (h : Inv bytes msgs total s) (hsent : Sent msgs)
    (hjob : (s.place t).job = some job)
    (hpending : Pending msgs (view s.dpager bytes s.device) job) {pager : Dpager}
    (hdisk : Disk total pager s.part) (hblock : pager.block = s.dpager.block)
    (hpsize : pager.size = s.dpager.size) (hsize : atop job.page.1 < s.dpager.size)
    (hroom : Room s (atop job.page.1)) :
    ∃ s', s.assigns t job pager = some s' ∧ Inv bytes msgs total s' := by
  obtain ⟨b, dpager', part', hwrite, hdisk', hblock', hsize', hold⟩ :=
    hdisk.assigns (hpsize.symm ▸ hsize) fun hnone => (hroom (hblock ▸ hnone)).1
  rw [hblock] at hblock' hold
  have hof := h.control.of_job hjob
  have hview : ∀ fPage, fPage ≠ atop job.page.1 →
      view dpager' bytes s.device fPage = view s.dpager bytes s.device fPage := by
    intro fPage hne
    rw [view, view, hblock', update_of_ne hne]
  have hothers : ∀ u, u ≠ t → ∀ fPage, (s.place u).Touches fPage →
      view dpager' bytes s.device fPage = view s.dpager bytes s.device fPage := by
    intro u hut fPage htouch
    by_cases hq : fPage = atop job.page.1
    · subst hq
      rcases htouch with ⟨offset, hoffset, heq⟩ | ⟨j, hj, hw⟩
      · cases hc : s.dpager.block (atop job.page.1) with
        | none => exact absurd heq ((hroom hc).2 u offset hoffset)
        | some c => rw [view, view, hblock', update_self, hc, hold c hc]
      · exact absurd hw (h.alone hsent hjob ⟨job.page, mem_cons_self, rfl⟩ hut j hj)
    · exact hview fPage hq
  refine ⟨{ s.moves t (.writing job (b * pageSize) job.page.2) with
    dpager := dpager', part := part' }, ?_, ?_⟩
  · simp only [Pager.assigns, hwrite]
  · refine ⟨hdisk', h.errors, h.control.moves ?_ hof, ?_, h.pages.moves hothers ?_ ?_,
      covered_update (fun u j _ hu => ?_) nofun⟩
    · rw [number_of_job hjob]
      exact fun _ hn => hn
    · exact h.count.trans (Counting.count_same (by rw [writes, writes, hjob]; rfl)).symm
    · intro fPage hnone
      have hnot : ¬job.Writes fPage := hnone job rfl
      refine ⟨fun j hj => ?_, hview fPage fun heq => hnot ⟨job.page, mem_cons_self, heq.symm⟩⟩
      rw [hjob] at hj
      rwa [← some.inj hj]
    · refine ⟨hpending.away hof hsent hview, b, pageAt bytes s.device b, 0, ?_, rfl, rfl,
        pageSize_pos, rfl⟩
      change view dpager' bytes s.device _ = _
      rw [view, hblock', update_self, map_some]
    · change _ < dpager'.size
      rw [hsize', hpsize]
      exact h.covered u j hu

theorem Inv.writing (h : Inv bytes msgs total s) (hsent : Sent msgs)
    (hdev : dev.Reliable bytes (total * pageSize)) {next : ℕ} {data : List Byte}
    (hplace : s.place t = .writing job next data) (hunread : Unread s (atop job.page.1)) :
    ∃ s', s.turn dev t = some (none, s') ∧ Inv bytes msgs total s' := by
  have hjob : (s.place t).job = some job := by rw [hplace]; rfl
  have hof := h.control.of_job hjob
  have hshown := h.pages.shown t
  rw [hplace] at hshown
  obtain ⟨hpending, b, page, n, hpage, hnext, hdata, hn, hbefore⟩ := hshown
  obtain ⟨c, hblock, hpair⟩ := map_eq_some_iff.1 hpage
  obtain ⟨rfl, rfl⟩ := Prod.mk.inj hpair
  have hlength := hof.length hsent mem_cons_self
  have hlen : data.length = pageSize - n := by rw [hdata, length_drop, hlength]
  have hlimit : next + data.length ≤ total * pageSize := by
    have := Nat.mul_le_mul_right pageSize (Nat.succ_le_of_lt (h.disk.lt hblock))
    rw [Nat.succ_mul] at this
    omega
  obtain ⟨wsize, device', hwrite, hpos, hle, hbytes⟩ := hdev.write s.device next data
    (length_pos_iff.1 (by omega)) hlimit
  rw [hnext] at hbytes
  have hview : ∀ fPage, fPage ≠ atop job.page.1 →
      view s.dpager bytes device' fPage = view s.dpager bytes s.device fPage := by
    intro fPage hne
    refine view_write h.disk hblock (n := n) (k := wsize) (by omega) (fun a ha => ?_) hne
    rw [hbytes, if_neg (by omega)]
  have hothers : ∀ u, u ≠ t → ∀ fPage, (s.place u).Touches fPage →
      view s.dpager bytes device' fPage = view s.dpager bytes s.device fPage := by
    intro u hut fPage htouch
    refine hview fPage fun heq => ?_
    rcases htouch with ⟨offset, hoffset, hread⟩ | ⟨j, hj, hw⟩
    · exact hunread u offset hoffset (hread.trans heq)
    · exact h.alone hsent hjob ⟨job.page, mem_cons_self, heq.symm⟩ hut j hj hw
  have hafter := take_write hlength hdata hbefore hle hn hbytes
  rw [Pager.turn, hplace]
  simp only [hwrite, if_neg (Nat.not_lt_of_le hle)]
  split
  · rename_i heq
    refine ⟨_, rfl, (h.done hsent hjob hview hothers ?_ hpending.rest).nextPage⟩
    have hfull : n + wsize = pageSize := by omega
    rw [hfull, take_of_length_le (length_pageAt).le,
      take_of_length_le hlength.le] at hafter
    rw [held, view, hblock, map_some, map_some, hafter, hof.goal hsent mem_cons_self, put]
    split
    · rename_i habsent
      rw [hpending.absent habsent, none_or]
    · rfl
  · refine ⟨_, rfl, h.disk, h.errors, h.control.moves ?_ hof, ?_, h.pages.moves hothers ?_ ?_,
      covered_update (fun u j _ hu => h.covered u j hu) nofun⟩
    · rw [number_of_job hjob]
      exact fun _ hn => hn
    · exact h.count.trans (Counting.count_same (by rw [writes, writes, hjob]; rfl)).symm
    · intro fPage hnone
      have hnot : ¬job.Writes fPage := hnone job rfl
      refine ⟨fun j hj => ?_, hview fPage fun heq => hnot ⟨job.page, mem_cons_self, heq.symm⟩⟩
      rw [hjob] at hj
      rwa [← some.inj hj]
    · refine ⟨hpending.away hof hsent hview, c, pageAt bytes device' c, n + wsize, ?_, ?_, ?_, ?_,
        hafter⟩
      · change view s.dpager bytes device' _ = _
        rw [view, hblock, map_some]
      · rw [hnext, Nat.add_assoc]
      · rw [hdata, drop_drop]
      · omega

end Turns

section Replies
variable [PageSize] [Fintype T] [DecidableEq T] {bytes : σ → ℕ → Byte} {dev : Device σ Byte}
  {msgs : List (Request Byte)} {total : ℕ} {s : Pager T σ Byte} {t : T} {job : Job Byte}

/-- The reply to a request is the right one. -/
def RightReply (msgs : List (Request Byte)) (reply : Option (ℕ × Reply Byte)) : Prop :=
  ∀ r ∈ reply, ∃ offset length, msgs[r.1]? = some (.dataRequest offset length) ∧
    Answers (contents msgs r.1) offset r.2

/-- A turn goes as it should. -/
def Goes (bytes : σ → ℕ → Byte) (msgs : List (Request Byte)) (total : ℕ)
    (turn : Option (Option (ℕ × Reply Byte) × Pager T σ Byte)) : Prop :=
  ∃ reply s', turn = some (reply, s') ∧ RightReply msgs reply ∧ Inv bytes msgs total s'

omit [DecidableEq T] in
theorem Goes.silent {s' : Pager T σ Byte} (h : Inv bytes msgs total s') :
    Goes bytes msgs total (some (none, s')) := ⟨none, s', rfl, nofun, h⟩

omit [DecidableEq T] in
theorem Goes.reply {s' : Pager T σ Byte} {k offset length : ℕ} {reply : Reply Byte}
    (hreq : msgs[k]? = some (.dataRequest offset length))
    (hanswer : Answers (contents msgs k) offset reply) (h : Inv bytes msgs total s') :
    Goes bytes msgs total (some (some (k, reply), s')) := by
  refine ⟨_, s', rfl, fun r hr => ?_, h⟩
  obtain rfl := some.inj hr
  exact ⟨offset, length, hreq, hanswer⟩

omit [Fintype T] [DecidableEq T] in
theorem view_of_bytes {device' : σ} (hbytes : bytes device' = bytes s.device) :
    view s.dpager bytes device' = view s.dpager bytes s.device := by
  funext fPage
  simp only [view, pageAt, hbytes]

omit [DecidableEq T] in
theorem Inv.device (h : Inv bytes msgs total s) {device' : σ}
    (hbytes : bytes device' = bytes s.device) :
    Inv bytes msgs total { s with device := device' } where
  disk := h.disk
  errors := h.errors
  control := h.control
  count := h.count
  pages := by
    rw [view_of_bytes hbytes]
    exact h.pages
  covered := h.covered

theorem Inv.finishRead (h : Inv bytes msgs total s) (hjob : (s.place t).job = none) :
    Inv bytes msgs total (s.finishRead t) :=
  have hm := h.moves (t := t) (p := .idle) nofun trivial hjob.symm trivial nofun
  ⟨hm.disk, hm.errors, hm.control, hm.count, hm.pages, hm.covered⟩

variable {k offset : ℕ}

theorem Inv.readOffset (h : Inv bytes msgs total s) (hplace : s.place t = .readOffset k offset)
    (hsize : s.writeLocked = false → atop offset < s.dpager.size) :
    Goes bytes msgs total (s.turn dev t) := by
  have hord := h.control.ordered t
  have hshown := h.pages.shown t
  rw [hplace] at hord hshown
  obtain ⟨length, hreq⟩ := hord.2
  rw [Pager.turn, hplace]
  simp only
  split
  · exact Goes.silent h
  · rename_i hlock
    rw [h.disk.fits.read (hsize (Bool.eq_false_of_not_eq_true hlock))]
    cases hblock : s.dpager.block (atop offset) with
    | none =>
      refine Goes.reply hreq ?_ (h.finishRead (by rw [hplace]; rfl))
      have hnone : contents msgs k (atop offset) = none := by
        rw [← hshown, held, view, hblock]
        rfl
      rw [Answers, hnone]
    | some b =>
      have hview : view s.dpager bytes s.device (atop offset) =
          some (b, pageAt bytes s.device b) := by rw [view, hblock, map_some]
      refine Goes.silent (h.moves ?_ hord (by rw [hplace]; rfl) ?_ nofun)
      · rw [hplace]
        exact fun _ hn => hn
      · refine ⟨b, _, hview, ?_, rfl, rfl, pageSize_pos⟩
        rw [← hshown, held, hview, map_some]

theorem Inv.reading (h : Inv bytes msgs total s) (hdev : dev.Reliable bytes (total * pageSize))
    {next : ℕ} {firstTime : Bool} {done : List Byte}
    (hplace : s.place t = .reading k offset firstTime done next) :
    Goes bytes msgs total (s.turn dev t) := by
  have hord := h.control.ordered t
  have hshown := h.pages.shown t
  rw [hplace] at hord hshown
  obtain ⟨length, hreq⟩ := hord.2
  obtain ⟨b, page, hpage, hcontents, hnext, hdone, hlt⟩ := hshown
  obtain ⟨c, hblock, hpair⟩ := map_eq_some_iff.1 hpage
  obtain ⟨rfl, rfl⟩ := Prod.mk.inj hpair
  have hlimit : next + (pageSize - done.length) ≤ total * pageSize := by
    have := Nat.mul_le_mul_right pageSize (Nat.succ_le_of_lt (h.disk.lt hblock))
    rw [Nat.succ_mul] at this
    omega
  obtain ⟨n, device', hread, hpos, hle, hbytes⟩ := hdev.read s.device next
    (pageSize - done.length) (by omega) hlimit
  rw [hnext] at hread
  have hpiece := take_append_piece (n := n) hdone (by omega)
  rw [Pager.turn, hplace]
  simp only [hnext, hread, length_map, length_range, if_neg (Nat.not_lt_of_le hle), hpiece]
  split
  · rename_i heq
    refine Goes.reply hreq ?_ ((h.device hbytes).finishRead (by rw [hplace]; rfl))
    rw [show done.length + n = pageSize by omega, take_of_length_le length_pageAt.le, Answers,
      hcontents]
    cases firstTime with
    | true => exact Or.inl rfl
    | false => exact Or.inr rfl
  · refine Goes.silent ((h.device hbytes).moves ?_ hord (by rw [hplace]; rfl) ?_ nofun)
    · rw [hplace]
      exact fun _ hn => hn
    · rw [Shown]
      refine ⟨c, _, (congrFun (view_of_bytes hbytes) _).trans hpage, hcontents, ?_⟩
      rw [length_take, length_pageAt, Nat.min_eq_left (by omega)]
      exact ⟨by omega, rfl, by omega⟩

theorem Inv.hasPage (h : Inv bytes msgs total s) (hsent : Sent msgs)
    (hplace : s.place t = .hasPage job)
    (hsize : s.writeLocked = false → atop job.page.1 < s.dpager.size) :
    Goes bytes msgs total (s.turn dev t) := by
  have hjob : (s.place t).job = some job := by rw [hplace]; rfl
  have hof := h.control.of_job hjob
  have hshown := h.pages.shown t
  rw [hplace] at hshown
  have hfound := hshown.2 job.page mem_cons_self
  have hrest := fun page hpage => hshown.2 page (mem_cons_of_mem _ hpage)
  rw [Pager.turn, hplace]
  simp only
  split
  · exact Goes.silent h
  · rename_i hlock
    rw [h.disk.fits.read (hsize (Bool.eq_false_of_not_eq_true hlock))]
    cases hblock : s.dpager.block (atop job.page.1) with
    | none =>
      refine Goes.silent (h.moves ?_ hof hjob.symm ⟨fun _ => ?_, hrest⟩ nofun)
      · rw [hplace]
        exact fun _ hn => hn
      · rw [← hfound, held, view, hblock]
        rfl
    | some b =>
      refine Goes.silent (h.done hsent hjob (fun _ _ => rfl) (fun _ _ _ _ => rfl) ?_ hrest).nextPage
      rw [hof.goal hsent mem_cons_self, ← hfound, held, view, hblock, hshown.1]
      rfl

theorem Inv.writeOffset (h : Inv bytes msgs total s) (hsent : Sent msgs)
    (hplace : s.place t = .writeOffset job)
    (hroom : s.writeLocked = false → atop job.page.1 < s.dpager.size →
      missing s.dpager (atop job.page.1) = false → Room s (atop job.page.1)) :
    Goes bytes msgs total (s.turn dev t) := by
  have hjob : (s.place t).job = some job := by rw [hplace]; rfl
  have hof := h.control.of_job hjob
  have hnumber : ∀ n ∈ some job.seqno, (s.place t).number = some n := by
    rw [hplace]
    exact fun _ hn => hn
  have hpending : Pending msgs (view s.dpager bytes s.device) job := by
    have hshown := h.pages.shown t
    rwa [hplace] at hshown
  rw [Pager.turn, hplace]
  simp only
  split
  · exact Goes.silent h
  rename_i hlock
  split
  · exact Goes.silent (h.moves hnumber hof hjob.symm hpending nofun)
  rename_i hsize
  have hlt := Nat.lt_of_not_le hsize
  split
  · have hm := h.moves (t := t) (p := .indirect job) hnumber hof hjob.symm hpending
      fun j hj => by
        obtain rfl := Place.indirect.inj hj
        exact hlt
    exact Goes.silent ⟨hm.disk, hm.errors, hm.control, hm.count, hm.pages, hm.covered⟩
  · rename_i hmissing
    obtain ⟨s', hassigns, hinv⟩ := h.assigns hsent hjob hpending h.disk rfl rfl hlt
      (hroom (Bool.eq_false_of_not_eq_true hlock) hlt (Bool.eq_false_of_not_eq_true hmissing))
    rw [hassigns]
    exact Goes.silent hinv

theorem Inv.extend (h : Inv bytes msgs total s) (hplace : s.place t = .extend job) :
    Goes bytes msgs total (s.turn dev t) := by
  have hjob : (s.place t).job = some job := by rw [hplace]; rfl
  have hshown := h.pages.shown t
  rw [hplace] at hshown
  rw [Pager.turn, hplace]
  simp only
  split
  · exact Goes.silent h
  · have hm := h.moves (t := t) (p := .extending job) (by rw [hplace]; exact fun _ hn => hn)
      (h.control.of_job hjob) hjob.symm hshown nofun
    exact Goes.silent ⟨hm.disk, hm.errors, hm.control, hm.count, hm.pages, hm.covered⟩

theorem Inv.extending (h : Inv bytes msgs total s) (hplace : s.place t = .extending job) :
    Goes bytes msgs total (s.turn dev t) := by
  have hjob : (s.place t).job = some job := by rw [hplace]; rfl
  have hshown := h.pages.shown t
  rw [hplace] at hshown
  obtain ⟨dpager', hextend, hdisk, hblock, hsize⟩ := h.disk.extend (atop job.page.1 + 1)
  have hview : view dpager' bytes s.device = view s.dpager bytes s.device := by
    funext fPage
    simp only [view, hblock]
  have hm := h.moves (t := t) (p := .writeOffset job) (by rw [hplace]; exact fun _ hn => hn)
    (h.control.of_job hjob) hjob.symm hshown nofun
  rw [Pager.turn, hplace]
  simp only [hextend]
  refine Goes.silent ⟨hdisk, hm.errors, hm.control, hm.count, ?_, fun u j hu =>
    (hm.covered u j hu).trans_le hsize⟩
  change Pages msgs s.seqno (view dpager' bytes s.device) _
  rw [hview]
  exact hm.pages

theorem Inv.indirect (h : Inv bytes msgs total s) (hsent : Sent msgs)
    (hplace : s.place t = .indirect job) (hmissing : missing s.dpager (atop job.page.1) = true)
    (hroom : Room s (atop job.page.1)) : Goes bytes msgs total (s.turn dev t) := by
  have hjob : (s.place t).job = some job := by rw [hplace]; rfl
  have hpending : Pending msgs (view s.dpager bytes s.device) job := by
    have hshown := h.pages.shown t
    rwa [hplace] at hshown
  obtain ⟨hdisk, hblock, hsize⟩ := h.disk.putTable hmissing
  obtain ⟨s', hassigns, hinv⟩ := h.assigns hsent hjob hpending hdisk hblock hsize
    (h.covered t job hplace) hroom
  rw [Pager.turn, hplace]
  simp only [hassigns]
  exact Goes.silent ⟨hinv.disk, hinv.errors, hinv.control, hinv.count, hinv.pages, hinv.covered⟩

theorem Inv.lock (h : Inv bytes msgs total s) (hsent : Sent msgs) {m : Request Byte}
    (hplace : s.place t = .lock k m false) : Goes bytes msgs total (s.turn dev t) := by
  have hord := h.control.ordered t
  rw [hplace] at hord
  rw [Pager.turn, hplace]
  simp only
  split
  · rename_i hne
    refine Goes.silent ⟨h.disk, h.errors, h.control.waitSeqno.moves ?_ ⟨hord.1, hord.2.1, fun _ =>
      ⟨hne, rfl⟩⟩, ?_, h.pages.same (by rw [hplace]; rfl) trivial,
      covered_update (fun u j _ => h.covered u j) nofun⟩
    · rw [hplace]
      exact fun _ hn => hn
    · exact h.count.trans (Counting.count_same (by rw [hplace]; rfl)).symm
  · rename_i heq
    obtain rfl := not_not.1 heq
    exact Goes.silent (h.starts hsent hplace)

theorem Inv.waitForWriters (h : Inv bytes msgs total s)
    (hplace : s.place t = .waitForWriters k offset false) :
    Goes bytes msgs total (s.turn dev t) := by
  have hord := h.control.ordered t
  rw [hplace] at hord
  obtain ⟨rfl, hreq, -⟩ := hord
  obtain ⟨length, hm⟩ := hreq
  have hnumber : (s.place t).number = some s.seqno := by rw [hplace]; rfl
  have hjob : (s.place t).job = none := by rw [hplace]; rfl
  rw [Pager.turn, hplace]
  simp only
  split
  · rename_i hne
    refine Goes.silent ⟨h.disk, h.errors, h.control.waitWrite.moves ?_ ⟨rfl, ⟨length, hm⟩, fun _ =>
      ⟨hne, rfl⟩⟩, ?_, h.pages.same hjob.symm trivial,
      covered_update (fun u j _ => h.covered u j) nofun⟩
    · rw [hplace]
      exact fun _ hn => hn
    · exact h.count.trans (Counting.count_same (by rw [hplace]; rfl)).symm
  · -- no page is being written
    rename_i hzero
    have hnone : ∀ u, (s.place u).job = none := fun u => by
      have hu := Counting.eq_false_of_count_eq_zero (h.count.symm.trans (not_not.1 hzero)) u
      simpa [writes] using hu
    have hno : ∀ {u : T} {j : Job Byte}, (s.place u).job ≠ some j := fun {u j} hu =>
      some_ne_none j (hu.symm.trans (hnone u))
    have hcontrol : Control msgs s.received s.seqno s.waitingSeqno s.waitingWrite s.writers s.place :=
      h.control
    rw [portUnlock_eq (s := { s with readers := s.readers + 1 }) hcontrol]
    simp only [h.errors]
    refine Goes.silent ⟨h.disk, rfl, hcontrol.unlock hnumber (fun u j hu => absurd hu hno)
      (fun n hn => (some.inj hn).symm) ⟨Nat.lt_succ_self _, length, hm⟩, ?_,
      ⟨fun fPage _ => ?_, fun u => ?_⟩,
      covered_update (fun u j _ hu => h.covered u j (wakeSeqno_indirect hu)) nofun⟩
    · exact h.count.trans (count_wake rfl hjob)
    · refine h.pages.start hm hjob (fun u _ j hu => absurd hu hno) ?_
      rintro ⟨page, hpage, -⟩
      exact absurd hpage not_mem_nil
    · change Shown msgs _ (update (fun u => (s.place u).wakeSeqno) t _ u)
      by_cases hut : u = t
      · rw [hut, update_self]
        exact h.pages.quiet _ fun u j hu => absurd hu hno
      · rw [update_of_ne hut]
        exact (h.pages.shown u).wakeSeqno

theorem Inv.turn (h : Inv bytes msgs total s) (hsent : Sent msgs)
    (hdev : dev.Reliable bytes (total * pageSize)) (hfits : Fits s (.turn t)) :
    Goes bytes msgs total (s.turn dev t) := by
  cases hplace : s.place t with
  | idle =>
    rw [Pager.turn, hplace]
    exact Goes.silent h
  | lock k m asleep =>
    cases asleep with
    | true =>
      rw [Pager.turn, hplace]
      exact Goes.silent h
    | false => exact h.lock hsent hplace
  | waitForWriters k offset asleep =>
    cases asleep with
    | true =>
      rw [Pager.turn, hplace]
      exact Goes.silent h
    | false => exact h.waitForWriters hplace
  | readOffset k offset =>
    rw [Fits, hplace] at hfits
    exact h.readOffset hplace hfits
  | reading k offset firstTime done next => exact h.reading hdev hplace
  | hasPage job =>
    rw [Fits, hplace] at hfits
    exact h.hasPage hsent hplace hfits
  | writeOffset job =>
    rw [Fits, hplace] at hfits
    exact h.writeOffset hsent hplace hfits
  | extend job => exact h.extend hplace
  | extending job => exact h.extending hplace
  | indirect job =>
    rw [Fits, hplace] at hfits
    exact h.indirect hsent hplace hfits.1 hfits.2
  | writing job next data =>
    rw [Fits, hplace] at hfits
    obtain ⟨s', hturn, hinv⟩ := h.writing hsent hdev hplace hfits
    rw [hturn]
    exact Goes.silent hinv

theorem Inv.receive (h : Inv bytes msgs total s) (hsent : Sent msgs) :
    Goes bytes msgs total (s.receive msgs t) := by
  rw [Pager.receive]
  split
  · rename_i m hplace hm
    have hwhole := (hsent.whole m (mem_of_getElem? hm)).1
    rw [hwhole]
    refine Goes.silent ⟨h.disk, h.errors, h.control.receive hm, ?_,
      h.pages.same (by rw [hplace]; rfl) trivial, covered_update (fun u j _ => h.covered u j) nofun⟩
    exact h.count.trans (Counting.count_same (by rw [hplace]; rfl)).symm
  · exact Goes.silent h

omit [DecidableEq T] in
theorem inv_init (objectSize size : ℕ) (device : σ) :
    Inv bytes msgs size (init objectSize size device : Pager T σ Byte) where
  disk := disk_init objectSize size
  errors := rfl
  control := ⟨Nat.le_refl 0, fun _ _ => nofun, fun _ _ _ => nofun, fun _ => trivial⟩
  count := by
    have hnone : Counting.count writes (fun _ : T => (.idle : Place Byte)) = 0 := by
      simp [Counting.count, writes, Place.job]
    exact hnone.symm
  pages := ⟨fun fPage _ => by simp [held, view, init, contents, Dpager.block_pagerAlloc],
    fun _ => trivial⟩
  covered _ _ := nofun

end Replies

/-- Two pages of one second-level map, one of them written again after a request for it. -/
def twoWrites : List (Request ℕ) :=
  [.dataWrite 0 [5, 6], .dataWrite 2 [7, 8], .dataRequest 0 2, .dataWrite 0 [9, 9],
    .dataRequest 0 2]

theorem sent_twoWrites : letI := twoBytes
    Sent twoWrites := by
  let _ := twoBytes
  refine ⟨by decide, by decide, fun i j m m' fPage hij hm hm' hw hw' => ?_⟩
  have hbetween : ∀ j < 5, ∀ i < j, ∀ m ∈ twoWrites[i]?, ∀ m' ∈ twoWrites[j]?, ∀ page ∈ m.pages,
      ∀ page' ∈ m'.pages, atop page'.1 = atop page.1 → i < 2 ∧ 2 < j ∧ atop page.1 = atop 0 := by
    decide
  have hj : j < 5 := (List.getElem?_eq_some_iff.1 hm').1
  obtain ⟨page, hpage, rfl⟩ := hw
  obtain ⟨page', hpage', heq⟩ := hw'
  obtain ⟨hi, hj, hzero⟩ := hbetween j hj i hij m hm m' hm' page hpage page' hpage' heq
  exact ⟨2, 0, 2, hi, hj, rfl, hzero.symm⟩

/-- Each thread waits for the other's second-level map. -/
def inTurn : List (Event (Fin 2)) :=
  [.receive 0, .receive 1, .turn 1, .turn 0, .turn 1, .turn 0, .turn 0, .turn 1, .turn 0, .turn 1,
    .turn 0, .turn 1, .turn 0, .receive 1, .receive 0, .turn 0, .turn 1, .turn 1, .turn 1, .turn 1,
    .turn 1, .turn 0, .turn 0, .turn 0, .turn 0, .turn 0, .receive 1, .turn 1, .turn 1, .turn 1,
    .turn 1, .turn 1]

/-- Two threads put down the second-level map, one over the other. -/
def overlapping : List (Event (Fin 2)) :=
  [.receive 0, .receive 1, .turn 0, .turn 1, .turn 0, .turn 1, .turn 0, .turn 1, .turn 0, .turn 1,
    .turn 0, .turn 1, .receive 0, .turn 0, .turn 0, .turn 0]

theorem inTurn_fits : letI := twoBytes
    Runs.Along (Pager.step byteDevice twoWrites) Fits
      (init 256 8 fun _ => 0 : Pager (Fin 2) (ℕ → ℕ) ℕ) inTurn := by decide +kernel

/-- The reply says that there is no page. -/
def saysNone : ℕ × Reply ℕ → Bool
  | (_, .dataUnavailable _) => true
  | _ => false

theorem overlapping_loses : letI := twoBytes
    ¬Runs.Along (Pager.step byteDevice twoWrites)
      (fun s e => ∀ q ∈ Pager.step byteDevice twoWrites s e, ∀ r ∈ q.1, saysNone r = false)
      (init 256 8 fun _ => 0 : Pager (Fin 2) (ℕ → ℕ) ℕ) overlapping := by decide +kernel

end MachKernel.Boot.ParallelPaging
