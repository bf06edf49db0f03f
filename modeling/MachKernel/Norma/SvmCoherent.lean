import MachKernel.Lib.BitSets
import MachKernel.Norma.Svm

/-! Coherence of shared memory: no kernel writes a page that another kernel has. -/

namespace MachKernel.Norma

open BitSets Function List Option Page

/-! What a kernel may have of a page, over the messages that are on their way to it. -/

/-- Every access that a kernel has, or comes to have by the messages to it. -/
def peak (held : VmProt) : List Message → VmProt
  | [] => held
  | m :: ms => held ||| peak (m.take held) ms

/-- One access is at most another, as regards writing and as regards having any. -/
structure Below (a b : VmProt) : Prop where
  writes : Writes a → Writes b
  any : a ≠ 0 → b ≠ 0

instance (a b : VmProt) : Decidable (Below a b) :=
  decidable_of_iff ((Writes a → Writes b) ∧ (a ≠ 0 → b ≠ 0))
    ⟨fun h => ⟨h.1, h.2⟩, fun h => ⟨h.1, h.2⟩⟩

section Access

variable {a b c : VmProt} {held : VmProt} {ms : List Message} {m : Message}

theorem Writes.within (h : Writes a) (hab : Within a b) : Writes b :=
  (hab.and vmProtWrite).ne_zero h

theorem below_of_within (h : Within a b) : Below a b := ⟨fun hw => hw.within h, h.ne_zero⟩

theorem below_refl (a : VmProt) : Below a a := ⟨id, id⟩

theorem Below.trans (h : Below a b) (h' : Below b c) : Below a c :=
  ⟨fun ha => h'.writes (h.writes ha), fun ha => h'.any (h.any ha)⟩

theorem Below.eq_zero (h : Below a 0) : a = 0 := by
  by_contra ha
  exact h.any ha rfl

theorem writes_or : Writes (a ||| b) ↔ Writes a ∨ Writes b := by
  rw [Writes, BitVec.and_or_distrib_right]
  exact (not_congr BitVec.or_eq_zero_iff).trans not_and_or

theorem Below.or (h : Below a c) (h' : Below b c) : Below (a ||| b) c where
  writes := fun hab => (writes_or.1 hab).elim h.writes h'.writes
  any := fun hab => by
    by_cases ha : a = 0
    · refine h'.any fun hb => hab ?_
      rw [ha, hb]
      exact BitVec.or_zero
    · exact h.any ha

theorem granted_append : granted held (ms ++ [m]) = m.take (granted held ms) := by
  rw [granted, foldl_append]
  rfl

theorem peak_append : peak held (ms ++ [m]) = peak held ms ||| m.take (granted held ms) := by
  induction ms generalizing held with
  | nil => rfl
  | cons m' ms ih =>
    simp only [cons_append, peak, ih, granted, foldl_cons]
    exact (BitVec.or_assoc _ _ _).symm

theorem held_within_peak (held : VmProt) (ms : List Message) : Within held (peak held ms) := by
  cases ms with
  | nil => exact within_refl held
  | cons m ms => exact within_or_left _ _

theorem granted_within_peak (held : VmProt) (ms : List Message) :
    Within (granted held ms) (peak held ms) := by
  induction ms generalizing held with
  | nil => exact within_refl held
  | cons m ms ih => exact (ih (m.take held)).trans (within_or_right _ _)

theorem take_lock_within (h : m.isLock) (held : VmProt) : Within (m.take held) held := by
  cases m with
  | lockRequest shouldClean shouldFlush lockValue =>
    rw [Message.take]
    split
    · exact zero_within held
    · exact and_within_left _ _
  | _ => cases h

theorem take_mono (m : Message) (h : Within a b) : Within (m.take a) (m.take b) := by
  cases m with
  | lockRequest shouldClean shouldFlush lockValue =>
    simp only [Message.take]
    split
    · exact within_refl _
    · exact h.and _
  | _ => exact within_refl _

theorem granted_mono (ms : List Message) (h : Within a b) :
    Within (granted a ms) (granted b ms) := by
  induction ms generalizing a b with
  | nil => exact h
  | cons m ms ih => exact ih (take_mono m h)

theorem peak_mono (ms : List Message) (h : Within a b) : Within (peak a ms) (peak b ms) := by
  induction ms generalizing a b with
  | nil => exact h
  | cons m ms ih =>
    exact (h.trans (within_or_left _ _)).or ((ih (take_mono m h)).trans (within_or_right _ _))

end Access

/-! The condition: what a kernel asks for, and what becomes of it. -/

section Fits

variable {K P : Type} [DecidableEq K] [DecidableEq P] (kobjs : List K)

/-- A kernel comes to have some access: it has had no more, and where the answer has raised what
was asked for, or nothing was asked for, no other kernel is in its way. -/
def Page.GrantFits (s : Page K) (k : K) (r : Request K) (data : Data) : Prop :=
  Below (peak (s.held k) (s.inbox k)) (accessTo r data) ∧
    (r.needsData ∧ data = .unavailable ∨ r.desiredAccess = 0 → ∀ k' ∈ kobjs, k' ≠ k →
      (Writes (accessTo r data) → s.kprot k' = 0) ∧ ¬Writes (s.kprot k'))

instance (s : Page K) (k : K) (r : Request K) (data : Data) :
    Decidable (s.GrantFits kobjs k r data) :=
  inferInstanceAs (Decidable (_ ∧ (_ → _)))

def Page.SatisfyFits (s : Page K) (r : Request K) (data : Data) : Prop :=
  match r.kobj with
  | .kernel k => ¬s.needsPager r data → s.GrantFits kobjs k r data
  | _ => True

instance (s : Page K) (r : Request K) (data : Data) : Decidable (s.SatisfyFits kobjs r data) := by
  unfold SatisfyFits
  split <;> infer_instance

/-- A request is processed: its kernel asks for less than it may write only when it has less, and a
writer that is to read on has nothing but read and write access. -/
def Page.TurnFits (s : Page K) (r : Request K) : Prop :=
  match r.kobj with
  | .kernel k =>
    if Writes r.desiredAccess then True
    else if r.desiredAccess ≠ 0 ∧ Writes s.prot then
      if Writes (s.kprot k) then
        Within (granted (s.held k) (s.inbox k)) r.desiredAccess ∧
          Below (peak (s.held k) (s.inbox k)) r.desiredAccess
      else ∀ w ∈ s.writer kobjs,
        Within (granted (s.held w) (s.inbox w)) (vmProtRead ||| vmProtWrite)
    else s.SatisfyFits kobjs r .none
  | _ => True

instance (s : Page K) (r : Request K) : Decidable (s.TurnFits kobjs r) := by
  unfold TurnFits
  split <;> infer_instance

def ProcessFits : List (Request K) → Page K → Prop
  | [], _ => True
  | r :: rs, s => s.TurnFits kobjs r ∧ match s.processTurn kobjs r with
    | .waits .. => True
    | .leaves s => ProcessFits rs s

instance decidableProcessFits : ∀ (rs : List (Request K)) (s : Page K),
    Decidable (ProcessFits kobjs rs s)
  | [], _ => isTrue trivial
  | r :: rs, s => by
    unfold ProcessFits
    have (s : Page K) : Decidable (ProcessFits kobjs rs s) := decidableProcessFits rs s
    cases s.processTurn kobjs r <;> infer_instance

def Page.TailFits (s : Page K) : Tail K → Prop
  | .done => True
  | .process rs => ProcessFits kobjs rs s
  | .satisfy r rs data => r.kCount = 0 ∧ r.mCount = 0 → s.SatisfyFits kobjs r data ∧
    match s.satisfyRequest r data with
    | .waits .. => True
    | .leaves s => ProcessFits kobjs rs s

instance (s : Page K) : ∀ t, Decidable (s.TailFits kobjs t)
  | .done => isTrue trivial
  | .process rs => decidableProcessFits kobjs rs s
  | .satisfy r rs data => by
    unfold TailFits
    dsimp only
    cases s.satisfyRequest r data <;> infer_instance

/-- The condition on an event. -/
def Mobj.Fits (s : Mobj K P) : Event K P → Prop
  | .page p e => ((s.pages p).handle s.kobjs e).1.TailFits s.kobjs ((s.pages p).handle s.kobjs e).2
  | _ => True

instance (s : Mobj K P) : DecidablePred s.Fits
  | .page .. => inferInstanceAs (Decidable (TailFits ..))
  | .init _ | .terminate _ => isTrue trivial

end Fits

/-! What the table says of the kernels, and what they have. -/

/-- Of one kernel: the access in the table, the messages to it, what it has, and the number of its
lock requests that have not been completed. -/
structure Knows (p : VmProt) (ms : List Message) (a : VmProt) (n : ℕ) : Prop where
  counted : ms.countP Message.isLock ≤ n
  -- nothing is granted behind a lock request
  ordered : ms.Pairwise fun m m' => m.isLock → m'.isLock
  recorded : Within (granted a ms) p
  settled : (∀ m ∈ ms, ¬m.isLock) → Below (peak a ms) p

section Knows

variable {p p' a a' : VmProt} {ms : List Message} {m : Message} {n : ℕ}

theorem Knows.fresh : Knows 0 [] 0 n where
  counted := Nat.zero_le n
  ordered := List.Pairwise.nil
  recorded := within_refl _
  settled := fun _ => below_refl _

theorem Knows.no_locks (h : Knows p ms a 0) : ∀ m ∈ ms, ¬m.isLock := by
  have := h.counted
  rwa [Nat.le_zero, countP_eq_zero] at this

theorem Knows.lock (h : Knows p ms a n) (hm : m.isLock)
    (hleft : Within (m.take (granted a ms)) p') : Knows p' (ms ++ [m]) a (n + 1) where
  counted := by
    rw [countP_append]
    exact Nat.add_le_add h.counted countP_le_length
  ordered := pairwise_append.2 ⟨h.ordered, pairwise_singleton _ _, fun _ _ m' hm' _ =>
    mem_singleton.1 hm' ▸ hm⟩
  recorded := granted_append ▸ hleft
  settled := fun hno => absurd hm (hno m (mem_append_right _ (mem_singleton_self m)))

theorem peak_lock (hm : m.isLock) : Within (peak a (ms ++ [m])) (peak a ms) := by
  rw [peak_append]
  exact (within_refl _).or ((take_lock_within hm _).trans (granted_within_peak _ _))

theorem Knows.grant (h : Knows p ms a 0) (hm : ¬m.isLock)
    (hgives : Within (m.take (granted a ms)) p') (hbelow : Below (peak a ms) p') :
    Knows p' (ms ++ [m]) a 0 where
  counted := by
    rw [countP_append, countP_singleton, if_neg hm]
    exact h.counted
  ordered := pairwise_append.2 ⟨h.ordered, pairwise_singleton _ _, fun m' hm' _ _ hl =>
    absurd hl (h.no_locks m' hm')⟩
  recorded := granted_append ▸ hgives
  settled := fun _ => peak_append ▸ hbelow.or (below_of_within hgives)

theorem Knows.take (h : Knows p (m :: ms) a n) : Knows p ms (m.take a) n where
  counted := (countP_cons ▸ Nat.le_add_right _ _ : _ ≤ _).trans h.counted
  ordered := (pairwise_cons.1 h.ordered).2
  recorded := h.recorded
  settled := fun hno => by
    by_cases hm : m.isLock
    · -- only lock requests come behind a lock request
      have hnil : ms = [] := eq_nil_iff_forall_not_mem.2 fun m' hm' =>
        hno m' hm' ((pairwise_cons.1 h.ordered).1 m' hm' hm)
      subst hnil
      exact below_of_within h.recorded
    · have := h.settled (by simpa [hm] using hno)
      exact (below_of_within (within_or_right _ _)).trans this

theorem Knows.give_up (h : Knows p ms a n) (ha : Within a' a) : Knows p ms a' n where
  counted := h.counted
  ordered := h.ordered
  recorded := (granted_mono ms ha).trans h.recorded
  settled := fun hno => (below_of_within (peak_mono ms ha)).trans (h.settled hno)

end Knows

section Told

variable {K : Type} [DecidableEq K]

structure Told (kobjs : List K) (kprot : K → VmProt) (inbox : K → List Message) (held : K → VmProt)
    (locks : List K) : Prop where
  knows : ∀ k, Knows (kprot k) (inbox k) (held k) (locks.count k)
  apart : ∀ k k', k ≠ k' → Writes (peak (held k) (inbox k)) → peak (held k') (inbox k') = 0
  table : ∀ k k', k ≠ k' → Writes (kprot k) → kprot k' = 0
  attached : ∀ k, k ∉ kobjs → kprot k = 0 ∧ held k = 0 ∧ inbox k = []

variable {kobjs : List K} {kprot : K → VmProt} {inbox : K → List Message} {held : K → VmProt}
  {locks : List K} {k : K} {m : Message} {p a : VmProt} {ms : List Message}

theorem Told.update (h : Told kobjs kprot inbox held locks) (hk : k ∈ kobjs) {locks' : List K}
    (hknows : Knows p ms a (locks'.count k)) (hlocks : ∀ x, x ≠ k → locks.count x = locks'.count x)
    (hpeak : ∀ x, x ≠ k → (Writes (peak a ms) → peak (held x) (inbox x) = 0) ∧
      (Writes (peak (held x) (inbox x)) → peak a ms = 0))
    (hprot : ∀ x, x ≠ k → (Writes p → kprot x = 0) ∧ (Writes (kprot x) → p = 0)) :
    Told kobjs (Function.update kprot k p) (Function.update inbox k ms) (Function.update held k a)
      locks' := by
  refine ⟨fun x => ?_, fun x y hxy hw => ?_, fun x y hxy hw => ?_, fun x hx => ?_⟩
  · by_cases hx : x = k
    · subst hx
      simpa only [update_self] using hknows
    · simpa only [update_of_ne hx, hlocks x hx] using h.knows x
  · by_cases hx : x = k
    · subst hx
      simp only [update_self, update_of_ne hxy.symm] at hw ⊢
      exact (hpeak y hxy.symm).1 hw
    · simp only [update_of_ne hx] at hw
      by_cases hy : y = k
      · subst hy
        simp only [update_self]
        exact (hpeak x hx).2 hw
      · simp only [update_of_ne hy]
        exact h.apart x y hxy hw
  · by_cases hx : x = k
    · subst hx
      rw [update_self] at hw
      rw [update_of_ne hxy.symm]
      exact (hprot y hxy.symm).1 hw
    · rw [update_of_ne hx] at hw
      by_cases hy : y = k
      · subst hy
        rw [update_self]
        exact (hprot x hx).2 hw
      · rw [update_of_ne hy]
        exact h.table x y hxy hw
  · have hne : x ≠ k := fun hxk => hx (hxk ▸ hk)
    simp only [update_of_ne hne]
    exact h.attached x hx

theorem Told.lower (h : Told kobjs kprot inbox held locks) (hk : k ∈ kobjs) {locks' : List K}
    (hknows : Knows p ms a (locks'.count k)) (hlocks : ∀ x, x ≠ k → locks.count x = locks'.count x)
    (hpeak : Within (peak a ms) (peak (held k) (inbox k))) (hprot : Below p (kprot k)) :
    Told kobjs (Function.update kprot k p) (Function.update inbox k ms) (Function.update held k a)
      locks' := by
  refine h.update hk hknows hlocks (fun x hx => ⟨fun hw => ?_, fun hw => ?_⟩)
    fun x hx => ⟨fun hw => ?_, fun hw => ?_⟩
  · exact h.apart k x hx.symm (hw.within hpeak)
  · exact Within.eq_zero (h.apart x k hx hw ▸ hpeak)
  · exact h.table k x hx.symm (hprot.writes hw)
  · exact Below.eq_zero (h.table x k hx hw ▸ hprot)

theorem Told.lock (h : Told kobjs kprot inbox held locks) (hk : k ∈ kobjs) (hm : m.isLock)
    (hp : Below p (kprot k)) (hleft : Within (m.take (granted (held k) (inbox k))) p) :
    Told kobjs (Function.update kprot k p) (Function.update inbox k (inbox k ++ [m])) held
      (k :: locks) := by
  have hknows := (h.knows k).lock hm hleft
  rw [← count_cons_self] at hknows
  have := h.lower hk hknows (fun x hx => (count_cons_of_ne hx.symm).symm) (peak_lock hm) hp
  rwa [update_eq_self] at this

theorem Told.grant (h : Told kobjs kprot inbox held []) (hk : k ∈ kobjs) (hm : ¬m.isLock)
    (hgives : Within (m.take (granted (held k) (inbox k))) p)
    (hbelow : Below (peak (held k) (inbox k)) p) (hwrites : ∀ x, x ≠ k → Writes p → kprot x = 0)
    (hany : ∀ x, x ≠ k → p ≠ 0 → ¬Writes (kprot x)) :
    Told kobjs (Function.update kprot k p) (Function.update inbox k (inbox k ++ [m])) held [] := by
  have hsettled : ∀ x, Below (peak (held x) (inbox x)) (kprot x) := fun x =>
    (h.knows x).settled (h.knows x).no_locks
  have hknows := (h.knows k).grant hm hgives hbelow
  have hself : Below (peak (held k) (inbox k ++ [m])) p :=
    hknows.settled hknows.no_locks
  have := h.update hk hknows (fun x _ => rfl) (fun x hx => ⟨fun hw => ?_, fun hw => ?_⟩)
    fun x hx => ⟨hwrites x hx, fun hw => ?_⟩
  · rwa [update_eq_self] at this
  · exact Below.eq_zero (hwrites x hx (hself.writes hw) ▸ hsettled x)
  · have hp : p = 0 := by
      by_contra hp
      exact hany x hx hp ((hsettled x).writes hw)
    exact Below.eq_zero (hp ▸ hself)
  · by_contra hp
    exact hany x hx hp hw

theorem Told.correct (h : Told kobjs kprot inbox held locks) (hw : Writes (kprot k))
    (hgranted : Within (granted (held k) (inbox k)) p)
    (hbelow : Below (peak (held k) (inbox k)) p) :
    Told kobjs (Function.update kprot k p) inbox held locks := by
  have hk : k ∈ kobjs := by
    by_contra hk
    exact hw.ne_zero (h.attached k hk).1
  have hzero : ∀ x, x ≠ k → kprot x = 0 := fun x hx => h.table k x hx.symm hw
  have hknows := h.knows k
  have := h.update hk ⟨hknows.counted, hknows.ordered, hgranted, fun _ => hbelow⟩
    (fun x _ => rfl) (fun x hx => ⟨h.apart k x hx.symm, h.apart x k hx⟩)
    fun x hx => ⟨fun _ => hzero x hx, fun hwx => absurd (hzero x hx) hwx.ne_zero⟩
  rwa [update_eq_self, update_eq_self] at this

theorem Told.take (h : Told kobjs kprot inbox held locks) (hk : k ∈ kobjs)
    (hinbox : inbox k = m :: ms) :
    Told kobjs kprot (Function.update inbox k ms) (Function.update held k (m.take (held k)))
      locks := by
  have hknows := h.knows k
  have := h.lower hk (hinbox ▸ hknows).take (fun x _ => rfl)
    (hinbox ▸ within_or_right _ _) (below_refl _)
  rwa [update_eq_self] at this

theorem Told.discard (h : Told kobjs kprot inbox held locks) (hk : k ∈ kobjs) :
    Told kobjs kprot inbox (Function.update held k 0) locks := by
  have := h.lower hk ((h.knows k).give_up (zero_within _)) (fun x _ => rfl)
    (peak_mono _ (zero_within _)) (below_refl _)
  rwa [update_eq_self, update_eq_self] at this

theorem Told.completed (h : Told kobjs kprot inbox held locks)
    (hk : (inbox k).countP Message.isLock < locks.count k) :
    Told kobjs kprot inbox held (locks.erase k) where
  knows := fun x => by
    refine ⟨?_, (h.knows x).ordered, (h.knows x).recorded, (h.knows x).settled⟩
    by_cases hx : x = k
    · subst hx
      rw [count_erase_self]
      omega
    · rw [count_erase_of_ne hx]
      exact (h.knows x).counted
  apart := h.apart
  table := h.table
  attached := h.attached

theorem Told.attach (h : Told kobjs kprot inbox held locks) :
    Told (k :: kobjs) (Function.update kprot k 0) (Function.update inbox k [])
      (Function.update held k 0) locks := by
  have hcons : Told (k :: kobjs) kprot inbox held locks :=
    ⟨h.knows, h.apart, h.table, fun x hx => h.attached x fun hx' => hx (mem_cons_of_mem k hx')⟩
  exact hcons.lower (mem_cons_self) Knows.fresh (fun x _ => rfl) (zero_within _)
    (below_of_within (zero_within _))

end Told

/-! The invariant of a page. -/

section Inv

variable {K : Type} [DecidableEq K]

/-- The kernel whose request for writing is the first of a kernel: while it is processed, the
object's table does not have that kernel as a writer. -/
def excused : List (Request K) → Option K
  | [] => none
  | r :: rs => match r.kobj with
    | .kernel k => if Writes r.desiredAccess then some k else none
    | _ => excused rs

abbrev Page.AllTold (kobjs : List K) (s : Page K) : Prop :=
  Told kobjs s.kprot s.inbox s.held s.locks

structure Page.Base (kobjs : List K) (s : Page K) (x : Option K) : Prop where
  told : s.AllTold kobjs
  writer : Writes s.prot → ∃ k, Writes (s.kprot k)
  written : ∀ k, Writes (s.kprot k) → Writes s.prot ∨ x = some k

/-- No other kernel is in the way of the one that has made a request. -/
def Page.Ready (s : Page K) (r : Request K) : Prop :=
  ∀ k, r.kobj = .kernel k → ∀ x, x ≠ k →
    (Writes r.desiredAccess → s.kprot x = 0) ∧ (r.desiredAccess ≠ 0 → ¬Writes (s.kprot x))

/-- The lock requests that have not been completed were sent for the head of the queue. -/
def CountsLocks (locks : List K) : List (Request K) → Prop
  | [] => locks = []
  | r :: rs => r.kCount = locks.length ∧ ∀ r' ∈ rs, r'.kCount = 0

def Members (kobjs : List K) (rs : List (Request K)) : Prop :=
  ∀ r ∈ rs, ∀ k, r.kobj = .kernel k → k ∈ kobjs

structure Page.Inv (kobjs : List K) (s : Page K) : Prop where
  base : s.Base kobjs (excused s.request)
  counts : CountsLocks s.locks s.request
  members : Members kobjs s.request
  ready : ∀ r ∈ s.request.head?, s.Ready r

def TurnOk (kobjs : List K) (r : Request K) (x : Option K) : Turn K → Prop
  | .waits s r' => s.Base kobjs x ∧ r'.kCount = s.locks.length ∧ s.Ready r' ∧ r'.kobj = r.kobj ∧
      r'.desiredAccess = r.desiredAccess
  | .leaves s => s.Base kobjs (if r.kobj = .pager ∨ r.kobj = .nobody then x else none) ∧ s.locks = []

variable {kobjs : List K} {s : Page K} {x : Option K} {r : Request K} {rs : List (Request K)}
  {k : K} {data : Data}

theorem Page.Base.mono (h : s.Base kobjs none) (x : Option K) : s.Base kobjs x :=
  ⟨h.told, h.writer, fun k hk => (h.written k hk).imp id nofun⟩

theorem satisfyPagerRequest_ok (h : s.Base kobjs x) (hcount : r.kCount = s.locks.length)
    (hr : ∀ k, r.kobj ≠ .kernel k) : TurnOk kobjs r x (s.satisfyPagerRequest r) := by
  rw [satisfyPagerRequest]
  split
  · exact ⟨h, hcount, fun k hk => absurd hk (hr k), rfl, rfl⟩
  · rename_i hzero
    have hlocks : s.locks = [] := by
      rw [not_or, not_not, hcount] at hzero
      exact eq_nil_of_length_eq_zero (by exact_mod_cast hzero.1)
    refine ⟨?_, hlocks⟩
    rw [if_pos (by cases hk : r.kobj <;> simp_all)]
    exact ⟨h.told, h.writer, h.written⟩

omit [DecidableEq K] in
theorem granted_access (r : Request K) (data : Data) (a : VmProt) :
    Within ((if r.needsData = false then Message.unlocked (r.desiredAccess ^^^ vmProtAll)
      else match data with
        | .unavailable => .dataUnavailable
        | .error => .dataError
        | _ => .dataProvided (r.desiredAccess ^^^ vmProtAll)).take a) (accessTo r data) := by
  have hxor : r.desiredAccess ^^^ vmProtAll ^^^ vmProtAll = r.desiredAccess := by
    rw [BitVec.xor_assoc, BitVec.xor_self]
    exact BitVec.xor_zero
  cases hneeds : r.needsData <;> cases data <;>
    simp [Message.take, accessTo, hneeds, hxor, within_refl]
  exact zero_within _

theorem satisfyKernelRequest_ok (h : s.Base kobjs x) (hcount : r.kCount = s.locks.length)
    (hr : r.kobj = .kernel k) (hk : k ∈ kobjs) (hready : s.Ready r)
    (hfits : ¬s.needsPager r data → s.GrantFits kobjs k r data) :
    TurnOk kobjs r x (s.satisfyKernelRequest k r data) := by
  rw [satisfyKernelRequest]
  split
  · exact ⟨h, hcount, hready, rfl, rfl⟩
  · rename_i hzero
    split
    · exact ⟨⟨h.told, h.writer, h.written⟩, hcount, hready, rfl, rfl⟩
    · rename_i hneeds
      have hlocks : s.locks = [] := by
        rw [not_or, not_not, hcount] at hzero
        exact eq_nil_of_length_eq_zero (by exact_mod_cast hzero.1)
      have hfits := hfits hneeds
      have hothers : ∀ x, x ≠ k →
          (Writes (accessTo r data) → s.kprot x = 0) ∧ ¬Writes (s.kprot x) := by
        intro x hx
        by_cases hraised : r.needsData ∧ data = .unavailable ∨ r.desiredAccess = 0
        · by_cases hx' : x ∈ kobjs
          · exact hfits.2 hraised x hx' hx
          · have := (h.told.attached x hx').1
            exact ⟨fun _ => this, fun hw => hw.ne_zero this⟩
        · rw [not_or] at hraised
          rw [accessTo, if_neg hraised.1]
          exact ⟨(hready k hr x hx).1, (hready k hr x hx).2 hraised.2⟩
      have hnone : Told kobjs s.kprot s.inbox s.held [] := by
        have := h.told
        rwa [AllTold, hlocks] at this
      have htold := hnone.grant hk (by split_ifs <;> cases data <;> simp [Message.isLock])
        (granted_access r data _) hfits.1 (fun x hx => (hothers x hx).1) fun x hx _ => (hothers x hx).2
      rw [← hlocks] at htold
      refine ⟨⟨htold, fun hw => ⟨k, by simpa using hw⟩, fun x hw => Or.inl ?_⟩, hlocks⟩
      by_cases hx : x = k
      · simpa [hx] using hw
      · simp only [update_of_ne hx] at hw
        exact absurd hw (hothers x hx).2

theorem satisfyRequest_ok (h : s.Base kobjs x) (hcount : r.kCount = s.locks.length)
    (hmember : ∀ k, r.kobj = .kernel k → k ∈ kobjs) (hready : s.Ready r)
    (hfits : s.SatisfyFits kobjs r data) : TurnOk kobjs r x (s.satisfyRequest r data) := by
  rw [satisfyRequest]
  rw [SatisfyFits] at hfits
  split
  · rename_i k hk
    rw [hk] at hfits
    exact satisfyKernelRequest_ok h hcount hk (hmember k hk) hready hfits
  · rename_i hr
    exact satisfyPagerRequest_ok h hcount hr

theorem flushOthers_ok {kobj : K} {writing : Bool} {ks : List K} (hks : ∀ k ∈ ks, k ∈ kobjs)
    (h : s.AllTold kobjs)
    (hone : writing → ∀ y z, y ≠ kobj → z ≠ kobj → s.kprot y ≠ 0 → s.kprot z ≠ 0 → y = z) :
    let s' := (flushOthers kobj writing ks s).1
    s'.AllTold kobjs ∧ (∀ y, s'.kprot y = s.kprot y ∨ s'.kprot y = 0) ∧
      ∀ y ∈ ks, y ≠ kobj → s'.kprot y = 0 := by
  induction ks generalizing s with
  | nil => exact ⟨h, fun _ => Or.inl rfl, by simp⟩
  | cons k ks ih =>
    have hks' : ∀ k ∈ ks, k ∈ kobjs := fun k hk => hks k (mem_cons_of_mem _ hk)
    rw [flushOthers]
    split
    · rename_i hskip
      obtain ⟨h1, h2, h3⟩ := ih hks' h hone
      refine ⟨h1, h2, fun y hy hne => ?_⟩
      rcases mem_cons.1 hy with rfl | hy
      · exact (h2 y).elim (fun hy => hy.trans (hskip.resolve_left hne)) id
      · exact h3 y hy hne
    · rename_i hskip
      rw [not_or] at hskip
      have hlock : (s.lockRequest k vmProtNone writing true vmProtAll).AllTold kobjs :=
        h.lock (m := .lockRequest writing true vmProtAll) (hks k mem_cons_self) rfl
          (below_of_within (zero_within _)) (zero_within _)
      have hprot : ∀ y, (s.lockRequest k vmProtNone writing true vmProtAll).kprot y =
          if y = k then 0 else s.kprot y := fun y => update_apply _ _ _ _
      have hleft : ∀ y, (s.lockRequest k vmProtNone writing true vmProtAll).kprot y = s.kprot y ∨
          (s.lockRequest k vmProtNone writing true vmProtAll).kprot y = 0 := fun y => by
        rw [hprot y]
        split
        · exact Or.inr rfl
        · exact Or.inl rfl
      cases writing with
      | true =>
        simp only [if_true]
        refine ⟨hlock, hleft, fun y hy hne => ?_⟩
        rw [hprot y]
        split
        · rfl
        · -- there was one other kernel that had the page
          rename_i hyk
          by_contra hy0
          exact hyk (hone rfl y k hne hskip.1 hy0 hskip.2)
      | false =>
        simp only [Bool.false_eq_true, if_false]
        obtain ⟨h1, h2, h3⟩ := ih hks' hlock (by simp)
        refine ⟨h1, fun y => ?_, fun y hy hne => ?_⟩
        · rcases h2 y with hy | hy
          · exact (hleft y).imp hy.trans hy.trans
          · exact Or.inr hy
        · rcases mem_cons.1 hy with rfl | hy
          · exact (h2 y).elim (fun hy => hy.trans (by rw [hprot y, if_pos rfl])) id
          · exact h3 y hy hne

theorem lockAll_ok {shouldClean shouldFlush : Bool} {lockValue : VmProt} {ks : List K}
    (hks : ∀ k ∈ ks, k ∈ kobjs) (h : s.AllTold kobjs) :
    (lockAll shouldClean shouldFlush lockValue ks s).1.AllTold kobjs := by
  induction ks generalizing s with
  | nil => exact h
  | cons k ks ih =>
    rw [lockAll]
    have hks' : ∀ k ∈ ks, k ∈ kobjs := fun k hk => hks k (mem_cons_of_mem _ hk)
    split
    · exact ih hks' h
    · refine ih hks' (h.lock (m := .lockRequest shouldClean shouldFlush lockValue)
        (hks k mem_cons_self) rfl (below_of_within (and_within_left _ _)) ?_)
      rw [Message.take]
      split
      · exact zero_within _
      · exact (h.knows k).recorded.and _

theorem Page.Base.others_none (h : s.Base kobjs x) {w : K} (hw : Writes (s.kprot w)) :
    ∀ y, y ≠ w → s.kprot y = 0 := fun y hy => h.told.table w y hy.symm hw

theorem Page.Base.writer_ne_none (h : s.Base kobjs x) (hw : Writes s.prot) :
    s.writer kobjs ≠ none := by
  obtain ⟨w, hw⟩ := h.writer hw
  exact Page.writer_ne_none ⟨w, by_contra fun hk => hw.ne_zero (h.told.attached w hk).1, hw⟩

theorem processKernelRequest_ok (h : s.Base kobjs (excused [r])) (hcount : r.kCount = s.locks.length)
    (hr : r.kobj = .kernel k) (hk : k ∈ kobjs) (hfits : s.TurnFits kobjs r) :
    TurnOk kobjs r (excused [r]) (s.processKernelRequest kobjs k r) := by
  simp only [TurnFits, hr] at hfits
  have hexcused : excused [r] = if Writes r.desiredAccess then some k else none := by
    simp only [excused, hr]
  rw [processKernelRequest]
  split
  · -- the page is taken from all others
    rename_i hwrites
    rw [if_pos hwrites] at hexcused
    obtain ⟨h3, h2, -⟩ := flushOthers_tells k (Writes s.prot) kobjs
      { s with prot := vmProtNone }
    obtain ⟨h1, h5, h6⟩ := @flushOthers_ok K _ kobjs { s with prot := vmProtNone } k
      (Writes s.prot) kobjs (fun _ => id) h.told fun hw y z hy hz hy0 hz0 => by
        obtain ⟨w, hw⟩ := h.writer (by simpa using hw)
        have hyw : y = w := by_contra fun hne => hy0 (h.others_none hw y hne)
        have hzw : z = w := by_contra fun hne => hz0 (h.others_none hw z hne)
        rw [hyw, hzw]
    have hothers : ∀ y, y ≠ k →
        (flushOthers k (Writes s.prot) kobjs { s with prot := vmProtNone }).1.kprot y = 0 := by
      intro y hy
      by_cases hyk : y ∈ kobjs
      · exact h6 y hyk hy
      · exact (h5 y).elim (fun hy => hy.trans (h.told.attached y hyk).1) id
    have hbase : (flushOthers k (Writes s.prot) kobjs { s with prot := vmProtNone }).1.Base
        kobjs (excused [r]) := by
      refine ⟨h1, fun hw => ?_, fun y hw => Or.inr ?_⟩
      · rw [h2] at hw
        exact absurd rfl hw.ne_zero
      · rw [hexcused]
        by_contra hy
        exact hw.ne_zero (hothers y fun hyk => hy (congrArg some hyk.symm))
    have hready : ∀ n m, (flushOthers k (Writes s.prot) kobjs
        { s with prot := vmProtNone }).1.Ready { r with kCount := n, mCount := m } := by
      intro n m k' hk' y hy
      obtain rfl : k = k' := Client.kernel.inj (hr.symm.trans hk')
      exact ⟨fun _ => hothers y hy, fun _ hw => hw.ne_zero (hothers y hy)⟩
    dsimp only
    split
    · refine satisfyKernelRequest_ok hbase ?_ hr hk (hready _ _) fun _ => ⟨?_, fun hraised => ?_⟩
      · rw [h3, ← hcount]
      · exact ⟨fun _ => by simpa [accessTo] using hwrites, fun _ => by
          simpa [accessTo] using hwrites.ne_zero⟩
      · exact absurd (hraised.resolve_left (by simp)) hwrites.ne_zero
    · refine ⟨hbase, ?_, hready _ _, rfl, rfl⟩
      dsimp only
      rw [h3, ← hcount]
  · rename_i hwrites
    rw [if_neg hwrites] at hexcused hfits
    split
    · rename_i hread
      rw [if_pos hread] at hfits
      split
      · -- the writer itself asks for less
        rename_i hself
        rw [if_pos hself] at hfits
        have hothers := h.others_none hself
        refine satisfyKernelRequest_ok ⟨h.told.correct hself hfits.1 hfits.2, fun hw => ?_,
          fun y hw => ?_⟩ hcount hr hk ?_ fun _ => ⟨by simpa [accessTo] using hfits.2, ?_⟩
        · exact absurd hw hwrites
        · by_cases hy : y = k
          · subst hy
            simp only [update_self] at hw
            exact absurd hw hwrites
          · simp only [update_of_ne hy] at hw
            exact absurd (hothers y hy) hw.ne_zero
        · intro k' hk' y hy
          obtain rfl : k = k' := Client.kernel.inj (hr.symm.trans hk')
          simp only [update_of_ne hy]
          exact ⟨fun _ => hothers y hy, fun _ hw => hw.ne_zero (hothers y hy)⟩
        · exact fun hraised => absurd (hraised.resolve_left (by simp)) hread.1
      · rename_i hself
        rw [if_neg hself] at hfits
        split
        · rename_i hnone
          exact absurd hnone (h.writer_ne_none hread.2)
        · -- the writer keeps reading
          rename_i w hw
          have hw' := writer_some hw
          have hothers := h.others_none hw'.2
          have hprot : ∀ y, ¬Writes (Function.update s.kprot w vmProtRead y) := by
            intro y hwy
            by_cases hy : y = w
            · rw [hy, update_self] at hwy
              exact absurd hwy (by decide)
            · rw [update_of_ne hy] at hwy
              exact hwy.ne_zero (hothers y hy)
          have hread : ¬Writes vmProtRead := by decide
          refine ⟨⟨h.told.lock hw'.1 rfl ⟨fun hw => absurd hw hread, fun _ => hw'.2.ne_zero⟩ ?_,
            fun hw => absurd hw hread, fun y hwy => absurd hwy (hprot y)⟩, ?_, ?_, rfl, rfl⟩
          · have := (hfits w hw).and (~~~vmProtWrite)
            exact this.trans (by decide)
          · simp [lockRequest, hcount]
          · intro k' hk' y hy
            exact ⟨fun hw => absurd hw hwrites, fun _ => hprot y⟩
    · rename_i hread
      rw [if_neg hread] at hfits
      refine satisfyKernelRequest_ok h hcount hr hk ?_ ?_
      · intro k' hk' y hy
        refine ⟨fun hw => absurd hw hwrites, fun hany hwy => hread ⟨hany, ?_⟩⟩
        rw [hexcused] at h
        exact (h.written y hwy).resolve_right (by simp)
      · simpa only [SatisfyFits, hr] using hfits

theorem processPagerRequest_ok (h : s.Base kobjs x) (hcount : r.kCount = s.locks.length)
    (hr : ∀ k, r.kobj ≠ .kernel k) : TurnOk kobjs r x (s.processPagerRequest kobjs r) := by
  obtain ⟨hkobj, hk, hm, hdesired⟩ := settle_same r
  rw [processPagerRequest]
  generalize Page.settle r = r' at hkobj hk hm hdesired
  have hr' : ∀ k, r'.kobj ≠ .kernel k := fun k => hkobj ▸ hr k
  have hready : ∀ (s : Page K) (r'' : Request K), r''.kobj = r'.kobj → s.Ready r'' :=
    fun s r'' hr'' k hk' => absurd (hr''.symm.trans hk') (hr' k)
  have hresult : ∀ t, TurnOk kobjs r' x t → TurnOk kobjs r x t := by
    rintro (⟨s, r''⟩ | s) ht
    · exact ⟨ht.1, ht.2.1, ht.2.2.1, ht.2.2.2.1.trans hkobj, ht.2.2.2.2.trans hdesired⟩
    · exact ⟨hkobj ▸ ht.1, ht.2⟩
  refine hresult _ ?_
  dsimp only
  split
  · -- all kernels are told
    obtain ⟨h3, h2, -⟩ := lockAll_tells r'.shouldClean r'.shouldFlush r'.lockValue kobjs
      { s with prot := s.prot &&& ~~~r'.lockValue }
    have h1 := @lockAll_ok K _ kobjs { s with prot := s.prot &&& ~~~r'.lockValue } r'.shouldClean
      r'.shouldFlush r'.lockValue kobjs (fun _ => id) h.told
    have hprot : ∀ y, (lockAll r'.shouldClean r'.shouldFlush r'.lockValue kobjs
        { s with prot := s.prot &&& ~~~r'.lockValue }).1.kprot y =
          s.kprot y &&& ~~~r'.lockValue := by
      intro y
      rw [lockAll_kprot]
      split
      · rfl
      · rename_i hy
        rw [show s.kprot y = 0 from (h.told.attached y hy).1]
        exact BitVec.zero_and.symm
    have hbase : (lockAll r'.shouldClean r'.shouldFlush r'.lockValue kobjs
        { s with prot := s.prot &&& ~~~r'.lockValue }).1.Base kobjs x := by
      refine ⟨h1, fun hw => ?_, fun y hw => ?_⟩
      · rw [h2, writes_lowered] at hw
        obtain ⟨y, hy⟩ := h.writer hw.1
        exact ⟨y, by rw [hprot y, writes_lowered]; exact ⟨hy, hw.2⟩⟩
      · rw [hprot y, writes_lowered] at hw
        rw [h2, writes_lowered]
        exact (h.written y hw.1).imp (fun hs => ⟨hs, hw.2⟩) id
    split
    · exact satisfyPagerRequest_ok hbase (by rw [h3, ← hcount, ← hk]) hr'
    · exact ⟨hbase, by rw [h3, ← hcount, ← hk], hready _ _ rfl, rfl, rfl⟩
  · split
    · rename_i hclean
      split
      · rename_i hnone
        exact absurd hnone (h.writer_ne_none hclean.2)
      · -- the writer is told
        rename_i w hw
        have hw' := writer_some hw
        have hothers := h.others_none hw'.2
        have hlocked : (s.lockRequest w (s.kprot w &&& ~~~r'.lockValue) r'.shouldClean false
            r'.lockValue).AllTold kobjs :=
          h.told.lock hw'.1 rfl (below_of_within (and_within_left _ _))
            ((h.told.knows w).recorded.and _)
        refine ⟨⟨hlocked, fun hws => ⟨w, ?_⟩, fun y hwy => Or.inl ?_⟩, ?_, hready _ _ rfl, rfl, rfl⟩
        · simp only [writes_lowered] at hws
          simp only [lockRequest, update_self, writes_lowered]
          exact ⟨hw'.2, hws.2⟩
        · by_cases hy : y = w
          · subst hy
            simp only [lockRequest, update_self, writes_lowered] at hwy
            simp only [writes_lowered]
            exact ⟨hclean.2, hwy.2⟩
          · simp only [lockRequest, update_of_ne hy] at hwy
            exact absurd (hothers y hy) hwy.ne_zero
        · simp [lockRequest, hk, hcount]
    · exact satisfyPagerRequest_ok h (hk.trans hcount) hr'

theorem processTurn_ok (hbase : s.Base kobjs (excused (r :: rs))) (hcount : r.kCount = s.locks.length)
    (hmember : ∀ k, r.kobj = .kernel k → k ∈ kobjs) (hfits : s.TurnFits kobjs r) :
    TurnOk kobjs r (excused (r :: rs)) (s.processTurn kobjs r) := by
  rw [processTurn]
  split
  · rename_i k hk
    have hexcused : excused (r :: rs) = excused [r] := by simp only [excused, hk]
    rw [hexcused] at hbase ⊢
    exact processKernelRequest_ok hbase hcount hk (hmember k hk) hfits
  · rename_i hr
    exact processPagerRequest_ok hbase hcount hr

theorem Page.Base.next (h : s.Base kobjs (if r.kobj = .pager ∨ r.kobj = .nobody then
    excused (r :: rs) else none)) : s.Base kobjs (excused rs) := by
  cases hr : r.kobj with
  | kernel k =>
    rw [hr, if_neg (by simp)] at h
    exact h.mono _
  | pager | nobody => simpa [hr, excused] using h

omit [DecidableEq K] in
theorem excused_congr {r r' : Request K} (rs : List (Request K)) (hkobj : r'.kobj = r.kobj)
    (hdesired : r'.desiredAccess = r.desiredAccess) : excused (r' :: rs) = excused (r :: rs) := by
  simp only [excused, hkobj, hdesired]

theorem inv_of_waits {r' : Request K} (h : TurnOk kobjs r (excused (r :: rs)) (.waits s r'))
    (hrs : ∀ r ∈ rs, r.kCount = 0) (hmembers : Members kobjs (r :: rs)) :
    { s with request := r' :: rs }.Inv kobjs := by
  obtain ⟨hbase, hcount, hready, hkobj, hdesired⟩ := h
  refine ⟨?_, ⟨hcount, hrs⟩, fun y hy k hk => ?_, fun y hy => ?_⟩
  · have : excused (r' :: rs) = excused (r :: rs) := excused_congr rs hkobj hdesired
    exact ⟨hbase.told, hbase.writer, this ▸ hbase.written⟩
  · rcases mem_cons.1 hy with rfl | hy
    · exact hmembers r mem_cons_self k (hkobj ▸ hk)
    · exact hmembers y (mem_cons_of_mem _ hy) k hk
  · obtain rfl : r' = y := some.inj hy
    exact hready

theorem processRequest_inv (hbase : s.Base kobjs (excused rs)) (hcounts : CountsLocks s.locks rs)
    (hmembers : Members kobjs rs) (hfits : ProcessFits kobjs rs s) :
    (processRequest kobjs rs s).Inv kobjs := by
  induction rs generalizing s with
  | nil =>
    exact ⟨⟨hbase.told, hbase.writer, hbase.written⟩, hcounts, nofun, nofun⟩
  | cons r rs ih =>
    have hturn := processTurn_ok hbase hcounts.1 (hmembers r mem_cons_self) hfits.1
    have hnext := hfits.2
    rw [processRequest]
    cases ht : s.processTurn kobjs r with
    | waits s r' =>
      rw [ht] at hturn
      exact inv_of_waits hturn hcounts.2 hmembers
    | leaves s =>
      rw [ht] at hturn hnext
      refine ih hturn.1.next ?_ (fun y hy => hmembers y (mem_cons_of_mem _ hy)) hnext
      cases rs with
      | nil => exact hturn.2
      | cons r' rs =>
        refine ⟨?_, fun y hy => hcounts.2 y (mem_cons_of_mem _ hy)⟩
        rw [hcounts.2 r' mem_cons_self, hturn.2]
        rfl

/-- The state in which a handler makes its last call. -/
def TailOk (kobjs : List K) (s : Page K) : Tail K → Prop
  | .done => s.Inv kobjs
  | .process rs => s.Base kobjs (excused rs) ∧ CountsLocks s.locks rs ∧ Members kobjs rs
  | .satisfy r rs _ => s.Base kobjs (excused (r :: rs)) ∧ CountsLocks s.locks (r :: rs) ∧
      Members kobjs (r :: rs) ∧ s.Ready r

theorem tail_inv {t : Tail K} (h : TailOk kobjs s t) (hfits : s.TailFits kobjs t) :
    (s.tail kobjs t).Inv kobjs := by
  cases t with
  | done => exact h
  | process rs => exact processRequest_inv h.1 h.2.1 h.2.2 hfits
  | satisfy r rs data =>
    obtain ⟨hbase, hcounts, hmembers, hready⟩ := h
    rw [Page.tail, Page.satisfyHead]
    split
    · rename_i hzero
      obtain ⟨hsatisfy, hnext⟩ := hfits hzero
      have hturn := satisfyRequest_ok hbase hcounts.1 (hmembers r mem_cons_self) hready hsatisfy
      cases ht : s.satisfyRequest r data with
      | waits s r' =>
        rw [ht] at hturn
        exact inv_of_waits hturn hcounts.2 hmembers
      | leaves s' =>
        rw [ht] at hturn hnext
        refine processRequest_inv hturn.1.next ?_
          (fun y hy => hmembers y (mem_cons_of_mem _ hy)) hnext
        cases rs with
        | nil => exact hturn.2
        | cons r' rs =>
          refine ⟨?_, fun y hy => hcounts.2 y (mem_cons_of_mem _ hy)⟩
          rw [hcounts.2 r' mem_cons_self, hturn.2]
          rfl
    · exact inv_of_waits ⟨hbase, hcounts.1, hready, rfl, rfl⟩ hcounts.2 hmembers

theorem Page.Inv.congr {s' : Page K} (h : s.Inv kobjs) (hprot : s'.prot = s.prot)
    (hkprot : s'.kprot = s.kprot) (hinbox : s'.inbox = s.inbox) (hheld : s'.held = s.held)
    (hlocks : s'.locks = s.locks) (hrequest : s'.request = s.request) : s'.Inv kobjs := by
  obtain ⟨⟨htold, hwriter, hwritten⟩, hcounts, hmembers, hready⟩ := h
  refine ⟨⟨?_, ?_, ?_⟩, ?_, ?_, ?_⟩
  · rwa [AllTold, hkprot, hinbox, hheld, hlocks]
  · rwa [hprot, hkprot]
  · rwa [hprot, hkprot, hrequest]
  · rwa [hlocks, hrequest]
  · rwa [hrequest]
  · simpa only [hrequest, Page.Ready, hkprot] using hready

section
omit [DecidableEq K]

theorem excused_append (rs : List (Request K)) (r : Request K) :
    excused (rs ++ [r]) = excused rs ∨ excused rs = none := by
  induction rs with
  | nil => exact Or.inr rfl
  | cons r' rs ih =>
    cases hr : r'.kobj with
    | kernel k => simp [excused, hr]
    | pager | nobody => simpa only [cons_append, excused, hr] using ih

theorem excused_pager (hr : ∀ k, r.kobj ≠ .kernel k) (rs : List (Request K)) :
    excused (r :: rs) = excused rs := by
  cases hk : r.kobj with
  | kernel k => exact absurd hk (hr k)
  | pager | nobody => simp only [excused, hk]

theorem excused_insertPager (hr : ∀ k, r.kobj ≠ .kernel k) (rs : List (Request K)) :
    excused (insertPager r rs) = excused rs := by
  induction rs with
  | nil => exact excused_pager hr []
  | cons r' rs ih =>
    cases hk : r'.kobj with
    | kernel k => simp only [insertPager, hk, excused_pager hr]
    | pager | nobody => simp only [insertPager, hk, excused, ih]

end

theorem Page.Inv.svmRequest (h : s.Inv kobjs) (hk : k ∈ kobjs) (needsData : Bool)
    (access : VmProt) : TailOk kobjs (s.svmRequest k needsData access).1
      (s.svmRequest k needsData access).2 := by
  rw [Page.svmRequest]
  split
  · rename_i hnil
    have hnil : s.request = [] := hnil
    have hbase := h.base
    have hcounts := h.counts
    rw [hnil] at hbase hcounts
    refine ⟨⟨hbase.told, hbase.writer, (hbase.mono _).written⟩, ⟨?_, nofun⟩, fun y hy k' hk' => ?_⟩
    · change (0 : ℤ) = (s.locks.length : ℤ)
      rw [show s.locks = [] from hcounts]
      rfl
    · obtain rfl := mem_singleton.1 hy
      exact Client.kernel.inj hk' ▸ hk
  · rename_i hne
    have hne : s.request ≠ [] := hne
    refine ⟨⟨h.base.told, h.base.writer, ?_⟩, ?_, fun y hy k' hk' => ?_, fun y hy => ?_⟩
    · rcases excused_append s.request ⟨.kernel k, 0, 0, needsData, false, false, access, 0⟩ with
        he | he
      · exact he ▸ h.base.written
      · exact ((he ▸ h.base).mono _).written
    · have hcounts := h.counts
      cases hrs : s.request with
      | nil => exact absurd hrs hne
      | cons r rs =>
        rw [hrs] at hcounts
        simp only [Page.make, hrs]
        refine ⟨hcounts.1, fun y hy => ?_⟩
        rcases mem_append.1 hy with hy | hy
        · exact hcounts.2 y hy
        · rw [mem_singleton.1 hy]
    · rcases mem_append.1 hy with hy | hy
      · exact h.members y hy k' hk'
      · rw [mem_singleton.1 hy] at hk'
        exact Client.kernel.inj hk' ▸ hk
    · refine h.ready y ?_
      simpa [Page.make, head?_append_of_ne_nil _ hne] using hy

theorem Page.Inv.lockCompleted (h : s.Inv kobjs) (hk : s.mayComplete k) :
    TailOk kobjs (s.lockCompleted k).1 (s.lockCompleted k).2 := by
  have hmem : k ∈ s.locks := count_pos_iff.1 (Nat.zero_lt_of_lt hk)
  rw [Page.lockCompleted]
  obtain ⟨hbase, hcounts, hmembers, hready⟩ := h
  cases hrs : s.request with
  | nil =>
    rw [hrs] at hcounts
    rw [show s.locks = [] from hcounts] at hmem
    exact absurd hmem not_mem_nil
  | cons r rs =>
    rw [hrs] at hbase hcounts hmembers hready
    dsimp only
    refine ⟨⟨hbase.told.completed hk, hbase.writer, hbase.written⟩, ⟨?_, hcounts.2⟩, ?_,
      hready r rfl⟩
    · have := length_erase_of_mem hmem
      have hpos := length_pos_of_mem hmem
      have := hcounts.1
      simp only
      omega
    · intro y hy k' hk'
      rcases mem_cons.1 hy with rfl | hy
      · exact hmembers r mem_cons_self k' hk'
      · exact hmembers y (mem_cons_of_mem _ hy) k' hk'

theorem Page.Inv.dataFrom (h : s.Inv kobjs) (lock : VmProt) (data : Data) :
    TailOk kobjs (s.dataFrom lock data).1 (s.dataFrom lock data).2 := by
  rw [Page.dataFrom]
  cases hrs : s.request with
  | nil =>
    dsimp only
    exact h.congr rfl rfl rfl rfl rfl hrs.symm
  | cons r rs =>
    obtain ⟨hbase, hcounts, hmembers, hready⟩ := h
    rw [hrs] at hbase hcounts hmembers hready
    dsimp only
    refine ⟨⟨hbase.told, hbase.writer, hbase.written⟩, hcounts, ?_, hready r rfl⟩
    intro y hy k' hk'
    rcases mem_cons.1 hy with rfl | hy
    · exact hmembers r mem_cons_self k' hk'
    · exact hmembers y (mem_cons_of_mem _ hy) k' hk'

omit [DecidableEq K] in
theorem countsLocks_insertPager {locks : List K} (h : CountsLocks locks rs) (hrs : rs ≠ [])
    (hhead : ∀ k r', rs.head? = some r' → r'.kobj ≠ .kernel k) (hr : r.kCount = 0) :
    CountsLocks locks (insertPager r rs) := by
  cases rs with
  | nil => exact absurd rfl hrs
  | cons r' rs =>
    rw [insertPager_cons fun k => hhead k r' rfl]
    refine ⟨h.1, fun y hy => ?_⟩
    rcases mem_insertPager.1 hy with rfl | hy
    · exact hr
    · exact h.2 y hy

theorem Page.Inv.svmLockRequest (h : s.Inv kobjs) (shouldClean shouldFlush : Bool)
    (lockValue : VmProt) (robj : Bool) :
    TailOk kobjs (s.svmLockRequest shouldClean shouldFlush lockValue robj).1
      (s.svmLockRequest shouldClean shouldFlush lockValue robj).2 := by
  rw [Page.svmLockRequest]
  have hdone : ∀ lock, { s with lock := lock }.Inv kobjs := fun lock =>
    h.congr rfl rfl rfl rfl rfl rfl
  split
  · cases hrs : s.request with
    | nil =>
      have hdone := hdone lockValue
      rw [hrs] at hdone
      exact hdone
    | cons r0 rs =>
      have hdone := hdone lockValue
      obtain ⟨hbase, hcounts, hmembers, hready⟩ := h
      rw [hrs] at hbase hcounts hmembers hready hdone
      dsimp only
      split
      · split
        · refine ⟨⟨hbase.told, hbase.writer, hbase.written⟩, hcounts, ?_, hready r0 rfl⟩
          intro y hy k' hk'
          rcases mem_cons.1 hy with rfl | hy
          · exact hmembers r0 mem_cons_self k' hk'
          · exact hmembers y (mem_cons_of_mem _ hy) k' hk'
        · exact hdone
      · exact hdone
  · have hclient : ∀ k, (if robj then Client.pager else Client.nobody : Client K) ≠ .kernel k := by
      cases robj <;> simp
    generalize (if robj then Client.pager else Client.nobody : Client K) = client at hclient ⊢
    have hdone : (s.make client).Inv kobjs := h.congr rfl rfl rfl rfl rfl rfl
    obtain ⟨hbase, hcounts, hmembers, hready⟩ := hdone
    dsimp only
    cases hrs : (s.make client).request with
    | nil =>
      rw [hrs] at hbase hcounts
      refine ⟨?_, ⟨?_, by simp⟩, fun y hy k hk => ?_⟩
      · exact ⟨hbase.told, hbase.writer, (hbase.mono _).written⟩
      · change (0 : ℤ) = ((s.make client).locks.length : ℤ)
        rw [show (s.make client).locks = [] from hcounts]
        rfl
      · rw [mem_singleton.1 hy] at hk
        exact absurd hk (hclient k)
    | cons r0 rs =>
      rw [hrs] at hbase hcounts hmembers
      dsimp only
      split
      · refine ⟨?_, ⟨hcounts.1, fun y hy => ?_⟩, fun y hy k hk => ?_⟩
        · rw [excused_pager (by exact hclient), excused_congr rs (by rfl) (by rfl)]
          exact hbase
        · rcases mem_cons.1 hy with rfl | hy
          · rfl
          · exact hcounts.2 y hy
        · rcases mem_cons.1 hy with rfl | hy
          · exact absurd hk (hclient k)
          · rcases mem_cons.1 hy with rfl | hy
            · exact hmembers r0 mem_cons_self k hk
            · exact hmembers y (mem_cons_of_mem _ hy) k hk
      · rename_i hpager
        have hfirst : ∀ k r', (r0 :: rs).head? = some r' → r'.kobj ≠ .kernel k :=
          fun k r' hr' => some.inj hr' ▸ hpager k
        refine ⟨⟨hbase.told, hbase.writer, ?_⟩, countsLocks_insertPager hcounts (by simp) hfirst rfl,
          fun y hy k hk => ?_, fun y hy k hk => ?_⟩
        · rw [excused_insertPager hclient]
          exact hbase.written
        · rcases mem_insertPager.1 hy with rfl | hy
          · exact absurd hk (hclient k)
          · exact hmembers y hy k hk
        · have hy' : (Page.insertPager _ (r0 :: rs)).head? = some y := hy
          have hy0 : y = r0 := by
            rw [insertPager_cons hpager] at hy'
            exact (some.inj hy').symm
          exact absurd (hy0 ▸ hk) (hpager k)

theorem Page.Inv.handle (h : s.Inv kobjs) (e : PageEvent K) :
    TailOk kobjs (s.handle kobjs e).1 (s.handle kobjs e).2 := by
  have hasked : ∀ n, { s with asked := n }.Inv kobjs := fun n => h.congr rfl rfl rfl rfl rfl rfl
  cases e with
  | dataRequest k access | dataUnlock k access =>
    rw [Page.handle]
    split
    · rename_i hk
      exact h.svmRequest hk _ access
    · exact h
  | dataWrite k => exact h
  | lockCompleted k =>
    rw [Page.handle]
    split
    · rename_i hk
      exact h.lockCompleted hk.2
    · exact h
  | dataProvided lockValue =>
    rw [Page.handle]
    split
    · exact (hasked _).dataFrom _ _
    · exact h
  | dataUnavailable | dataError =>
    rw [Page.handle]
    split
    · exact (hasked _).dataFrom _ _
    · exact h
  | lockRequest shouldClean shouldFlush lockValue robj answers =>
    rw [Page.handle]
    split
    · split
      · exact (hasked _).svmLockRequest _ _ _ _
      · exact h
    · exact h.svmLockRequest _ _ _ _
  | take k =>
    rw [Page.handle]
    split
    · rename_i hk
      rw [Page.take]
      split
      · exact h
      · rename_i m ms hm
        exact ⟨⟨h.base.told.take hk hm, h.base.writer, h.base.written⟩, h.counts, h.members, h.ready⟩
    · exact h
  | discard k =>
    rw [Page.handle]
    split
    · rename_i hk
      exact ⟨⟨h.base.told.discard hk, h.base.writer, h.base.written⟩, h.counts, h.members, h.ready⟩
    · exact h

end Inv

section Runs

variable {K P : Type} [DecidableEq K] [DecidableEq P]

def Mobj.Inv (s : Mobj K P) : Prop := ∀ p, (s.pages p).Inv s.kobjs

/-- No kernel may write a page while another has it, whether what a kernel has is what it has taken
or what was last sent to it; and the table has at least what each kernel was left with. -/
structure Coherent (s : Mobj K P) : Prop where
  exclusive : ∀ p k k', k ≠ k' → Writes ((s.pages p).held k) → (s.pages p).held k' = 0
  sent : ∀ p k k', k ≠ k' → Writes (granted ((s.pages p).held k) ((s.pages p).inbox k)) →
    granted ((s.pages p).held k') ((s.pages p).inbox k') = 0
  recorded : ∀ p k, Within (granted ((s.pages p).held k) ((s.pages p).inbox k))
    ((s.pages p).kprot k)

def coherentSpec (_ : Unit) (_ : Event K P) (_ : Unit) (_ : Unit) (s' : Mobj K P) : Prop :=
  Coherent s'

omit [DecidableEq P] in
theorem Mobj.Inv.create : (Mobj.create : Mobj K P).Inv := by
  intro p
  have hnone : ¬Writes vmProtNone := by decide
  exact ⟨⟨⟨fun _ => Knows.fresh, fun _ _ _ _ => rfl, fun _ _ _ _ => rfl,
    fun _ _ => ⟨rfl, rfl, rfl⟩⟩, fun hw => absurd hw hnone, fun _ hw => absurd hw hnone⟩, rfl, nofun,
    nofun⟩

omit [DecidableEq P] in
theorem Mobj.Inv.coherent {s : Mobj K P} (h : s.Inv) : Coherent s where
  exclusive := fun p k k' hk hw => by
    have htold := (h p).base.told
    exact Within.eq_zero (htold.apart k k' hk (hw.within (held_within_peak _ _)) ▸
      held_within_peak _ _)
  sent := fun p k k' hk hw => by
    have htold := (h p).base.told
    exact Within.eq_zero (htold.table k k' hk (hw.within (htold.knows k).recorded) ▸
      (htold.knows k').recorded)
  recorded := fun p k => ((h p).base.told.knows k).recorded

theorem Mobj.Inv.event {s : Mobj K P} (h : s.Inv) {e : Event K P} (hfits : s.Fits e)
    (hstays : ∀ k, e ≠ .terminate k) : (s.event e).Inv := by
  cases e with
  | terminate k => exact absurd rfl (hstays k)
  | page p e =>
    intro q
    simp only [Mobj.event]
    by_cases hq : q = p
    · subst hq
      rw [update_self]
      exact tail_inv ((h q).handle e) hfits
    · rw [update_of_ne hq]
      exact h q
  | init k =>
    rw [Mobj.event]
    split
    · exact h
    · rename_i hk
      intro q
      obtain ⟨hbase, hcounts, hmembers, hready⟩ := h q
      have hkprot : Function.update (s.pages q).kprot k vmProtNone = (s.pages q).kprot := by
        rw [update_eq_self_iff]
        exact (hbase.told.attached k hk).1.symm
      refine ⟨⟨hbase.told.attach, ?_, ?_⟩, hcounts, fun y hy k' hk' =>
        mem_cons_of_mem _ (hmembers y hy k' hk'), fun y hy => ?_⟩
      · simp only [Page.attach, hkprot]
        exact hbase.writer
      · simp only [Page.attach, hkprot]
        exact hbase.written
      · simp only [Page.Ready, Page.attach, hkprot]
        exact hready y hy

/-- In a run of events that fit, in which no kernel leaves, the memory is coherent. -/
theorem svmRuns_coherent (es : List (Event K P)) (hstays : ∀ k, Event.terminate k ∉ es)
    (hes : Runs.Along Mobj.step Mobj.Fits Mobj.create es) :
    Runs.Does Mobj.step coherentSpec Mobj.create () es := by
  have hes' := hes.and (Q := fun e => ∀ k, e ≠ .terminate k) fun e he k hek => hstays k (hek ▸ he)
  refine Runs.Does.of_simulation (fun s _ => s.Inv) ?_ Mobj.Inv.create hes'
  intro s a e hinv hfits
  have hinv' := hinv.event hfits.1 hfits.2
  exact ⟨(), s.event e, (), rfl, hinv'.coherent, hinv'⟩

/-! Two kernels and a page. In the first run one writes the page after the other has read it, and
in the second the manager has no data for the other. -/

def shared : List (Event (Fin 2) Unit) :=
  [.init 0, .init 1, .page () (.dataRequest 0 vmProtRead), .page () (.dataProvided 0),
    .page () (.take 0)]

def written : List (Event (Fin 2) Unit) :=
  shared ++ [.page () (.dataRequest 1 (vmProtRead ||| vmProtWrite)), .page () (.take 0),
    .page () (.lockCompleted 0), .page () (.dataProvided 0), .page () (.take 1)]

theorem svmRuns_coherent_written : Runs.Does Mobj.step coherentSpec Mobj.create () written :=
  svmRuns_coherent written (by decide) (by decide +kernel)

def unavailable : List (Event (Fin 2) Unit) :=
  shared ++ [.page () (.dataRequest 1 vmProtRead), .page () .dataUnavailable, .page () (.take 1)]

/-- A kernel that has asked to read may write what another has. -/
theorem unavailable_not_coherent : ¬Runs.Does Mobj.step coherentSpec Mobj.create () unavailable := by
  intro h
  have hexcl : Runs.Along Mobj.step
      (fun s e => ∀ k k', k ≠ k' → Writes (((s.event e).pages ()).held k) →
        ((s.event e).pages ()).held k' = 0) Mobj.create unavailable :=
    h.along fun s a e r s' a' hstep hspec => by
      obtain rfl : s.event e = s' := congrArg Prod.snd (some.inj hstep)
      exact hspec.exclusive ()
  exact absurd hexcl (by decide +kernel)

end Runs

end MachKernel.Norma
