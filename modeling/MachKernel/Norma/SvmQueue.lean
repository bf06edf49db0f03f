import MachKernel.Norma.Svm

/-! The queues of requests for shared memory: that no request is stranded. -/

namespace MachKernel.Norma
open Function List Option Page

def Request.IsKernel {K : Type} (r : Request K) : Prop := ∃ k, r.kobj = .kernel k

section Queue

variable {K P : Type} [DecidableEq K] [DecidableEq P]

/-- The lock request of the manager is taken for what the kernel's request at the head waits for. -/
def Page.TakenForAnswer (s : Page K) (shouldClean shouldFlush : Bool) (lockValue : VmProt) :
    Prop :=
  lockValue &&& ~~~s.lock = 0 ∧ ¬shouldClean ∧ ¬shouldFlush ∧ ∃ r ∈ s.request.head?,
    (∃ k, r.kobj = .kernel k) ∧ lockValue &&& r.desiredAccess = 0 ∧ r.mCount > 0

instance (x : Client K) : Decidable (∃ k, x = .kernel k) :=
  match x with
  | .kernel k => isTrue ⟨k, rfl⟩
  | .pager | .nobody => isFalse nofun

instance (s : Page K) (shouldClean shouldFlush : Bool) (lockValue : VmProt) :
    Decidable (s.TakenForAnswer shouldClean shouldFlush lockValue) :=
  inferInstanceAs (Decidable (_ ∧ _ ∧ _ ∧ ∃ _ ∈ _, _))

/-- The condition on an event: a lock request by the manager is taken for an answer if it is one,
and a kernel that leaves has nothing to do with any page any more. -/
def Mobj.Serves (s : Mobj K P) : Event K P → Prop
  | .terminate k => ∀ p, (∀ r ∈ (s.pages p).request, r.kobj ≠ .kernel k) ∧ k ∉ (s.pages p).locks ∧
      ¬Writes ((s.pages p).kprot k)
  | .page p (.lockRequest shouldClean shouldFlush lockValue _ answers) => 0 < (s.pages p).asked →
      (answers ↔ (s.pages p).TakenForAnswer shouldClean shouldFlush lockValue)
  | _ => True

instance [Fintype P] (s : Mobj K P) : DecidablePred s.Serves
  | .terminate _ => inferInstanceAs (Decidable (∀ _, _))
  | .page _ (.lockRequest ..) => inferInstanceAs (Decidable (_ → _))
  | .init _ => isTrue trivial
  | .page _ (.dataRequest ..) | .page _ (.dataUnlock ..) | .page _ (.dataWrite ..)
  | .page _ (.lockCompleted ..) | .page _ (.dataProvided ..) | .page _ .dataUnavailable
  | .page _ .dataError | .page _ (.take ..) | .page _ (.discard ..) => isTrue trivial

/-- The queue of a page as it should be. -/
structure Page.Served (kobjs : List K) (s : Page K) : Prop where
  chain : ∃ ps ks, s.request = ps ++ ks ∧ (∀ r ∈ ps, ¬r.IsKernel) ∧ ∀ r ∈ ks, r.IsKernel
  members : ∀ r ∈ s.request, ∀ k, r.kobj = .kernel k → k ∈ kobjs
  pending : ∀ k ∈ s.locks, k ∈ kobjs
  counts : ∀ r ∈ s.request.head?, r.kCount = s.locks.length ∧ r.mCount = s.asked
  positive : ∀ r ∈ s.request.head?, 0 < r.kCount ∨ 0 < r.mCount
  answered : ∀ x, s.answered x + s.request.countP (·.kobj = x) = s.made x

def servedSpec (_ : Unit) (_ : Event K P) (_ : Unit) (_ : Unit) (s' : Mobj K P) : Prop :=
  ∀ p, (s'.pages p).Served s'.kobjs

/-! The invariant, and what processing a request leaves of it. -/

/-- The table has the writer, if there is one, and lock requests are with kernels of the object. -/
structure Page.Sane (kobjs : List K) (s : Page K) : Prop where
  writer : Writes s.prot → ∃ k ∈ kobjs, Writes (s.kprot k)
  pending : ∀ k ∈ s.locks, k ∈ kobjs

/-- What is to come is counted at the head. -/
def Counted (locks asked : ℤ) : List (Request K) → Prop
  | [] => locks = 0 ∧ asked = 0
  | r :: rs => r.kCount = locks ∧ r.mCount = asked ∧ ∀ r' ∈ rs, r'.kCount = 0 ∧ r'.mCount = 0

def Chained (rs : List (Request K)) : Prop :=
  rs.Pairwise fun r r' => r.IsKernel → r'.IsKernel

def KernelsOf (kobjs : List K) (rs : List (Request K)) : Prop :=
  ∀ r ∈ rs, ∀ k, r.kobj = .kernel k → k ∈ kobjs

/-- The requests that have been made are answered or in the queue. -/
def Kept (s : Page K) (rs : List (Request K)) : Prop :=
  ∀ x, s.answered x + rs.countP (·.kobj = x) = s.made x

structure Page.Queued (kobjs : List K) (s : Page K) : Prop where
  sane : s.Sane kobjs
  counted : Counted s.locks.length s.asked s.request
  chained : Chained s.request
  members : KernelsOf kobjs s.request
  positive : ∀ r ∈ s.request.head?, 0 < r.kCount ∨ 0 < r.mCount
  kept : Kept s s.request

/-- What becomes of a request that is processed or satisfied. -/
def TurnServes (kobjs : List K) (s : Page K) (r : Request K) : Turn K → Prop
  | .waits s' r' => s'.Sane kobjs ∧ r'.kCount = s'.locks.length ∧ r'.mCount = s'.asked ∧
      (0 < r'.kCount ∨ 0 < r'.mCount) ∧ r'.kobj = r.kobj ∧ s'.made = s.made ∧
      s'.answered = s.answered
  | .leaves s' => s'.Sane kobjs ∧ s'.locks = [] ∧ s'.asked = 0 ∧ s'.made = s.made ∧
      s'.answered = update s.answered r.kobj (s.answered r.kobj + 1)

variable {kobjs : List K} {s s' : Page K} {r : Request K} {rs : List (Request K)} {k : K}
  {data : Data}

theorem satisfyPagerRequest_serves (h : s.Sane kobjs) (hk : r.kCount = s.locks.length)
    (hm : r.mCount = s.asked) : TurnServes kobjs s r (s.satisfyPagerRequest r) := by
  rw [satisfyPagerRequest]
  split
  · exact ⟨h, hk, hm, by omega, rfl, rfl, rfl⟩
  · rename_i hzero
    have hlocks : s.locks = [] := eq_nil_of_length_eq_zero (by omega)
    have hasked : s.asked = 0 := by omega
    exact ⟨⟨h.writer, h.pending⟩, hlocks, hasked, rfl, rfl⟩

theorem satisfyKernelRequest_serves (h : s.Sane kobjs) (hk : r.kCount = s.locks.length)
    (hm : r.mCount = s.asked) (hmem : k ∈ kobjs) :
    TurnServes kobjs s r (s.satisfyKernelRequest k r data) := by
  rw [satisfyKernelRequest]
  split
  · exact ⟨h, hk, hm, by omega, rfl, rfl, rfl⟩
  · rename_i hzero
    split
    · refine ⟨⟨h.writer, h.pending⟩, hk, ?_, Or.inr ?_, rfl, rfl, rfl⟩ <;> dsimp only
      · rw [hm]
        push_cast
        rfl
      · omega
    · have hlocks : s.locks = [] := eq_nil_of_length_eq_zero (by omega)
      have hasked : s.asked = 0 := by omega
      exact ⟨⟨fun hw => ⟨k, hmem, by simpa using hw⟩, h.pending⟩, hlocks, hasked, rfl, rfl⟩

theorem satisfyRequest_serves (h : s.Sane kobjs) (hk : r.kCount = s.locks.length)
    (hm : r.mCount = s.asked) (hmem : ∀ k, r.kobj = .kernel k → k ∈ kobjs) :
    TurnServes kobjs s r (s.satisfyRequest r data) := by
  rw [satisfyRequest]
  split
  · rename_i k hkobj
    exact satisfyKernelRequest_serves h hk hm (hmem k hkobj)
  · exact satisfyPagerRequest_serves h hk hm

theorem locks_flushOthers (kobj : K) (writing : Bool) (ks : List K) (s : Page K) :
    ∀ x ∈ (flushOthers kobj writing ks s).1.locks, x ∈ ks ∨ x ∈ s.locks := by
  induction ks generalizing s with
  | nil => exact fun x hx => Or.inr hx
  | cons k ks ih =>
    rw [flushOthers]
    have hlock : ∀ x ∈ (s.lockRequest k vmProtNone writing true vmProtAll).locks,
        x = k ∨ x ∈ s.locks := fun x hx => mem_cons.1 hx
    split
    · exact fun x hx => (ih s x hx).imp (mem_cons_of_mem k) id
    · cases writing with
      | true =>
        exact fun x hx => (hlock x hx).imp (fun hxk => by rw [hxk]; exact mem_cons_self) id
      | false =>
        intro x hx
        rcases ih _ x hx with hx | hx
        · exact Or.inl (mem_cons_of_mem k hx)
        · exact (hlock x hx).imp (fun hxk => by rw [hxk]; exact mem_cons_self) id

theorem locks_lockAll (shouldClean shouldFlush : Bool) (lockValue : VmProt) (ks : List K)
    (s : Page K) : ∀ x ∈ (lockAll shouldClean shouldFlush lockValue ks s).1.locks,
      x ∈ ks ∨ x ∈ s.locks := by
  induction ks generalizing s with
  | nil => exact fun x hx => Or.inr hx
  | cons k ks ih =>
    rw [lockAll]
    split
    · exact fun x hx => (ih s x hx).imp (mem_cons_of_mem k) id
    · intro x hx
      rcases ih _ x hx with hx | hx
      · exact Or.inl (mem_cons_of_mem k hx)
      · rcases mem_cons.1 hx with rfl | hx
        · exact Or.inl mem_cons_self
        · exact Or.inr hx

theorem TurnServes.congr {t : Turn K} (h : TurnServes kobjs s' r t) (hmade : s'.made = s.made)
    (hanswered : s'.answered = s.answered) {r' : Request K} (hr : r'.kobj = r.kobj) :
    TurnServes kobjs s r' t := by
  cases t with
  | waits s'' r'' =>
    obtain ⟨h1, h2, h3, h4, h5, h6, h7⟩ := h
    exact ⟨h1, h2, h3, h4, h5.trans hr.symm, h6.trans hmade, h7.trans hanswered⟩
  | leaves s'' =>
    obtain ⟨h1, h2, h3, h4, h5⟩ := h
    refine ⟨h1, h2, h3, h4.trans hmade, ?_⟩
    rw [h5, hanswered, hr]

theorem processKernelRequest_serves (h : s.Sane kobjs) (hk : r.kCount = s.locks.length)
    (hm : r.mCount = s.asked) (hmem : k ∈ kobjs) :
    TurnServes kobjs s r (s.processKernelRequest kobjs k r) := by
  rw [processKernelRequest]
  split
  · obtain ⟨h1, h2, h3, h4, h5⟩ := flushOthers_tells k (Writes s.prot) kobjs
      { s with prot := vmProtNone }
    have hlocks := locks_flushOthers k (Writes s.prot) kobjs { s with prot := vmProtNone }
    dsimp only
    generalize flushOthers k (Writes s.prot) kobjs { s with prot := vmProtNone } = f
      at h1 h2 h3 h4 h5 hlocks ⊢
    have hsane : f.1.Sane kobjs := by
      refine ⟨fun hw => ?_, fun x hx => (hlocks x hx).elim id (h.pending x)⟩
      rw [h2] at hw
      exact absurd rfl hw.ne_zero
    have hkCount : r.kCount + f.2 = f.1.locks.length := by rw [h1, hk]
    have hmCount : r.mCount = f.1.asked := by rw [h3, hm]
    split
    · exact TurnServes.congr (r := { r with kCount := r.kCount + f.2 })
        (satisfyKernelRequest_serves hsane hkCount hmCount hmem) h4 h5 rfl
    · rename_i hzero
      refine ⟨hsane, hkCount, hmCount, ?_, rfl, h4, h5⟩
      dsimp only at hzero ⊢
      omega
  · rename_i hwrites
    split
    · rename_i hread
      split
      · have hsane : { s with
            kprot := update s.kprot k r.desiredAccess
            prot := r.desiredAccess }.Sane kobjs := ⟨fun hw => absurd hw hwrites, h.pending⟩
        exact (satisfyKernelRequest_serves hsane hk hm hmem).congr rfl rfl rfl
      · split
        · rename_i hnone
          exact absurd hnone (writer_ne_none (h.writer hread.2))
        · rename_i w hw
          have hw' := writer_some hw
          have hnot : ¬Writes vmProtRead := by decide
          refine ⟨⟨fun hw => absurd hw hnot, fun x hx => ?_⟩, ?_, hm, Or.inl ?_, rfl, rfl, rfl⟩
          · rcases mem_cons.1 hx with rfl | hx
            · exact hw'.1
            · exact h.pending x hx
          · simp [lockRequest, hk]
          · dsimp only
            omega
    · exact satisfyKernelRequest_serves h hk hm hmem

theorem processPagerRequest_serves (h : s.Sane kobjs) (hk : r.kCount = s.locks.length)
    (hm : r.mCount = s.asked) : TurnServes kobjs s r (s.processPagerRequest kobjs r) := by
  obtain ⟨hkobj, hk', hm', -⟩ := settle_same r
  rw [processPagerRequest]
  generalize Page.settle r = r' at hkobj hk' hm'
  rw [← hk'] at hk
  rw [← hm'] at hm
  suffices hserves : ∀ t, TurnServes kobjs s r' t → TurnServes kobjs s r t by
    refine hserves _ ?_
    dsimp only
    split
    · obtain ⟨h1, h2, h3, h4, h5⟩ := lockAll_tells r'.shouldClean r'.shouldFlush r'.lockValue
        kobjs { s with prot := s.prot &&& ~~~r'.lockValue }
      have hprot := lockAll_kprot r'.shouldClean r'.shouldFlush r'.lockValue kobjs
        { s with prot := s.prot &&& ~~~r'.lockValue }
      have hlocks := locks_lockAll r'.shouldClean r'.shouldFlush r'.lockValue kobjs
        { s with prot := s.prot &&& ~~~r'.lockValue }
      generalize lockAll r'.shouldClean r'.shouldFlush r'.lockValue kobjs
        { s with prot := s.prot &&& ~~~r'.lockValue } = f at h1 h2 h3 h4 h5 hprot hlocks ⊢
      have hsane : f.1.Sane kobjs := by
        refine ⟨fun hw => ?_, fun x hx => (hlocks x hx).elim id (h.pending x)⟩
        rw [h2, writes_lowered] at hw
        obtain ⟨w, hw', hwrites⟩ := h.writer hw.1
        refine ⟨w, hw', ?_⟩
        rw [hprot, if_pos hw', writes_lowered]
        exact ⟨hwrites, hw.2⟩
      have hkCount : r'.kCount + f.2 = f.1.locks.length := by rw [h1, hk]
      have hmCount : r'.mCount = f.1.asked := by rw [h3, hm]
      split
      · exact TurnServes.congr (r := { r' with kCount := r'.kCount + f.2 })
          (satisfyPagerRequest_serves hsane hkCount hmCount) h4 h5 rfl
      · rename_i hzero
        refine ⟨hsane, hkCount, hmCount, ?_, rfl, h4, h5⟩
        dsimp only at hzero ⊢
        omega
    · split
      · rename_i hclean
        split
        · rename_i hnone
          exact absurd hnone (writer_ne_none (h.writer hclean.2))
        · rename_i w hw
          have hw' := writer_some hw
          refine ⟨⟨fun hws => ⟨w, hw'.1, ?_⟩, fun x hx => ?_⟩, ?_, hm, Or.inl ?_, rfl, rfl, rfl⟩
          · simp only [writes_lowered] at hws
            simp only [lockRequest, update_self, writes_lowered]
            exact ⟨hw'.2, hws.2⟩
          · rcases mem_cons.1 hx with rfl | hx
            · exact hw'.1
            · exact h.pending x hx
          · simp [lockRequest, hk]
          · dsimp only
            omega
      · exact satisfyPagerRequest_serves h hk hm
  exact fun t ht => ht.congr rfl rfl hkobj.symm

theorem processTurn_serves (h : s.Sane kobjs) (hk : r.kCount = s.locks.length)
    (hm : r.mCount = s.asked) (hmem : ∀ k, r.kobj = .kernel k → k ∈ kobjs) :
    TurnServes kobjs s r (s.processTurn kobjs r) := by
  rw [processTurn]
  split
  · rename_i k hkobj
    exact processKernelRequest_serves h hk hm (hmem k hkobj)
  · exact processPagerRequest_serves h hk hm

omit [DecidableEq K] in
theorem Chained.congr {r' : Request K} (h : Chained (r :: rs)) (hkobj : r'.kobj = r.kobj) :
    Chained (r' :: rs) := by
  rw [Chained, pairwise_cons] at h ⊢
  exact ⟨fun y hy ⟨k, hk⟩ => h.1 y hy ⟨k, hkobj ▸ hk⟩, h.2⟩

theorem queued_of_waits {r' : Request K} (h : TurnServes kobjs s r (.waits s' r'))
    (hrs : ∀ r ∈ rs, r.kCount = 0 ∧ r.mCount = 0) (hchained : Chained (r :: rs))
    (hmembers : KernelsOf kobjs (r :: rs)) (hkept : Kept s (r :: rs)) :
    { s' with request := r' :: rs }.Queued kobjs := by
  obtain ⟨hsane, hk, hm, hpos, hkobj, hmade, hanswered⟩ := h
  refine ⟨⟨hsane.writer, hsane.pending⟩, ⟨hk, hm, hrs⟩, hchained.congr hkobj, fun y hy k hyk => ?_,
    fun y hy => ?_, fun x => ?_⟩
  · rcases mem_cons.1 hy with rfl | hy
    · exact hmembers r mem_cons_self k (hkobj ▸ hyk)
    · exact hmembers y (mem_cons_of_mem _ hy) k hyk
  · obtain rfl : r' = y := some.inj hy
    exact hpos
  · have := hkept x
    rw [countP_cons] at this ⊢
    rwa [hmade, hanswered, hkobj]

theorem Kept.leaves (h : Kept s (r :: rs)) (hmade : s'.made = s.made)
    (hanswered : s'.answered = update s.answered r.kobj (s.answered r.kobj + 1)) : Kept s' rs := by
  intro x
  have := h x
  rw [countP_cons] at this
  rw [hmade, hanswered, update_apply]
  by_cases hx : x = r.kobj
  · simp only [hx, decide_true, if_true] at this ⊢
    omega
  · simp only [hx, Ne.symm hx, decide_false, Bool.false_eq_true, if_false] at this ⊢
    exact this

omit [DecidableEq K] in
theorem Counted.next (h : ∀ r ∈ rs, r.kCount = 0 ∧ r.mCount = 0) : Counted 0 0 rs := by
  cases rs with
  | nil => exact ⟨rfl, rfl⟩
  | cons r rs =>
    have hr := h r mem_cons_self
    exact ⟨hr.1, hr.2, fun y hy => h y (mem_cons_of_mem _ hy)⟩

theorem processRequest_queued (hsane : s.Sane kobjs) (hcounted : Counted s.locks.length s.asked rs)
    (hchained : Chained rs) (hmembers : KernelsOf kobjs rs) (hkept : Kept s rs) :
    (processRequest kobjs rs s).Queued kobjs := by
  induction rs generalizing s with
  | nil => exact ⟨⟨hsane.writer, hsane.pending⟩, hcounted, hchained, hmembers, nofun, hkept⟩
  | cons r rs ih =>
    obtain ⟨hk, hm, hrs⟩ := hcounted
    have hturn := processTurn_serves hsane hk hm (hmembers r mem_cons_self)
    rw [processRequest]
    cases ht : s.processTurn kobjs r with
    | waits s' r' =>
      rw [ht] at hturn
      exact queued_of_waits hturn hrs hchained hmembers hkept
    | leaves s' =>
      rw [ht] at hturn
      obtain ⟨hsane', hlocks, hasked, hmade, hanswered⟩ := hturn
      refine ih hsane' ?_ (pairwise_cons.1 hchained).2
        (fun y hy => hmembers y (mem_cons_of_mem _ hy)) (hkept.leaves hmade hanswered)
      rw [hlocks, hasked]
      exact Counted.next hrs

/-- The state in which a handler makes its last call. -/
def TailServes (kobjs : List K) (s : Page K) : Tail K → Prop
  | .done => s.Queued kobjs
  | .process rs => s.Sane kobjs ∧ Counted s.locks.length s.asked rs ∧ Chained rs ∧
      KernelsOf kobjs rs ∧ Kept s rs
  | .satisfy r rs _ => s.Sane kobjs ∧ Counted s.locks.length s.asked (r :: rs) ∧
      Chained (r :: rs) ∧ KernelsOf kobjs (r :: rs) ∧ Kept s (r :: rs)

theorem tail_queued {t : Tail K} (h : TailServes kobjs s t) : (s.tail kobjs t).Queued kobjs := by
  cases t with
  | done => exact h
  | process rs => exact processRequest_queued h.1 h.2.1 h.2.2.1 h.2.2.2.1 h.2.2.2.2
  | satisfy r rs data =>
    obtain ⟨hsane, ⟨hk, hm, hrs⟩, hchained, hmembers, hkept⟩ := h
    rw [Page.tail, Page.satisfyHead]
    split
    · have hturn := @satisfyRequest_serves K _ kobjs s r data hsane hk hm (hmembers r mem_cons_self)
      cases ht : s.satisfyRequest r data with
      | waits s' r' =>
        rw [ht] at hturn
        exact queued_of_waits hturn hrs hchained hmembers hkept
      | leaves s' =>
        rw [ht] at hturn
        obtain ⟨hsane', hlocks, hasked, hmade, hanswered⟩ := hturn
        refine processRequest_queued hsane' ?_ (pairwise_cons.1 hchained).2
          (fun y hy => hmembers y (mem_cons_of_mem _ hy)) (hkept.leaves hmade hanswered)
        rw [hlocks, hasked]
        exact Counted.next hrs
    · refine queued_of_waits ⟨hsane, hk, hm, ?_, rfl, rfl, rfl⟩ hrs hchained hmembers hkept
      omega

theorem Page.Queued.congr (h : s.Queued kobjs) (hprot : s'.prot = s.prot)
    (hkprot : s'.kprot = s.kprot) (hlocks : s'.locks = s.locks) (hasked : s'.asked = s.asked)
    (hmade : s'.made = s.made) (hanswered : s'.answered = s.answered)
    (hrequest : s'.request = s.request) : s'.Queued kobjs := by
  obtain ⟨⟨hwriter, hpending⟩, hcounted, hchained, hmembers, hpositive, hkept⟩ := h
  refine ⟨⟨?_, ?_⟩, ?_, ?_, ?_, ?_, ?_⟩
  · rwa [hprot, hkprot]
  · rwa [hlocks]
  · rwa [hlocks, hasked, hrequest]
  · rwa [hrequest]
  · rwa [hrequest]
  · rwa [hrequest]
  · rwa [Kept, hmade, hanswered, hrequest]

theorem Kept.make (h : Kept s rs) {rs' : List (Request K)} (x : Client K)
    (hrs : ∀ y, rs'.countP (·.kobj = y) = rs.countP (·.kobj = y) + if x = y then 1 else 0) :
    Kept (s.make x) rs' := by
  intro y
  have := h y
  simp only [hrs y, Page.make, update_apply]
  by_cases hy : y = x
  · simp only [hy, if_true] at this ⊢
    omega
  · rw [if_neg hy, if_neg (Ne.symm hy)]
    exact this

omit [DecidableEq K] in
theorem chained_insertPager (hr : ¬r.IsKernel) (h : Chained rs) :
    Chained (insertPager r rs) := by
  induction rs with
  | nil => exact pairwise_singleton _ _
  | cons r' rs ih =>
    obtain ⟨hhead, htail⟩ := pairwise_cons.1 h
    by_cases hr' : r'.IsKernel
    · obtain ⟨k, hk⟩ := hr'
      simp only [insertPager, hk]
      exact pairwise_cons.2 ⟨fun _ _ hrk => absurd hrk hr, h⟩
    · rw [insertPager_cons fun k hk => hr' ⟨k, hk⟩]
      exact pairwise_cons.2 ⟨fun _ _ hrk => absurd hrk hr', ih htail⟩

omit [DecidableEq K] in
theorem countP_insertPager (p : Request K → Bool) :
    (insertPager r rs).countP p = (r :: rs).countP p := by
  induction rs with
  | nil => rfl
  | cons r' rs ih =>
    rw [insertPager]
    split
    · rfl
    · rw [countP_cons, ih]
      simp only [countP_cons]
      omega

theorem Page.Queued.svmRequest (h : s.Queued kobjs) (hk : k ∈ kobjs) (needsData : Bool)
    (access : VmProt) : TailServes kobjs (s.svmRequest k needsData access).1
      (s.svmRequest k needsData access).2 := by
  rw [Page.svmRequest]
  obtain ⟨hsane, hcounted, hchained, hmembers, hpositive, hkept⟩ := h
  split
  · rename_i hnil
    have hnil : s.request = [] := hnil
    rw [hnil] at hcounted hkept
    refine ⟨⟨hsane.writer, hsane.pending⟩, ⟨hcounted.1.symm, hcounted.2.symm, nofun⟩,
      pairwise_singleton _ _, fun y hy k' hk' => ?_, hkept.make _ fun y => ?_⟩
    · rw [mem_singleton.1 hy] at hk'
      exact Client.kernel.inj hk' ▸ hk
    · simp [countP_cons]
  · rename_i hne
    have hne : s.request ≠ [] := hne
    refine ⟨⟨hsane.writer, hsane.pending⟩, ?_, ?_, fun y hy k' hk' => ?_, fun y hy => ?_,
      hkept.make _ fun y => ?_⟩
    · cases hrs : s.request with
      | nil => exact absurd hrs hne
      | cons r rs =>
        rw [hrs] at hcounted
        simp only [Page.make, hrs]
        refine ⟨hcounted.1, hcounted.2.1, fun y hy => ?_⟩
        rcases mem_append.1 hy with hy | hy
        · exact hcounted.2.2 y hy
        · rw [mem_singleton.1 hy]
          exact ⟨rfl, rfl⟩
    · exact pairwise_append.2 ⟨hchained, pairwise_singleton _ _, fun _ _ y hy _ =>
        mem_singleton.1 hy ▸ ⟨k, rfl⟩⟩
    · rcases mem_append.1 hy with hy | hy
      · exact hmembers y hy k' hk'
      · rw [mem_singleton.1 hy] at hk'
        exact Client.kernel.inj hk' ▸ hk
    · refine hpositive y ?_
      simpa [Page.make, head?_append_of_ne_nil _ hne] using hy
    · simp [Page.make, countP_append, countP_cons]

theorem Page.Queued.lockCompleted (h : s.Queued kobjs) (hk : s.mayComplete k) :
    TailServes kobjs (s.lockCompleted k).1 (s.lockCompleted k).2 := by
  have hmem : k ∈ s.locks := count_pos_iff.1 (Nat.zero_lt_of_lt hk)
  have hpos := length_pos_of_mem hmem
  have herase := length_erase_of_mem hmem
  rw [Page.lockCompleted]
  obtain ⟨hsane, hcounted, hchained, hmembers, hpositive, hkept⟩ := h
  cases hrs : s.request with
  | nil =>
    rw [hrs] at hcounted
    have := hcounted.1
    omega
  | cons r rs =>
    rw [hrs] at hcounted hchained hmembers hkept
    dsimp only
    refine ⟨⟨hsane.writer, fun x hx => hsane.pending x (mem_of_mem_erase hx)⟩,
      ⟨?_, hcounted.2.1, hcounted.2.2⟩, ?_, ?_, ?_⟩
    · have := hcounted.1
      dsimp only
      omega
    · exact hchained.congr rfl
    · intro y hy k' hk'
      rcases mem_cons.1 hy with rfl | hy
      · exact hmembers r mem_cons_self k' hk'
      · exact hmembers y (mem_cons_of_mem _ hy) k' hk'
    · exact hkept

theorem Page.Queued.dataFrom (h : s.Queued kobjs) (hasked : 0 < s.asked) (lock : VmProt)
    (data : Data) : TailServes kobjs ({ s with asked := s.asked - 1 }.dataFrom lock data).1
      ({ s with asked := s.asked - 1 }.dataFrom lock data).2 := by
  rw [Page.dataFrom]
  obtain ⟨hsane, hcounted, hchained, hmembers, hpositive, hkept⟩ := h
  cases hrs : s.request with
  | nil =>
    rw [hrs] at hcounted
    have := hcounted.2
    omega
  | cons r rs =>
    rw [hrs] at hcounted hchained hmembers hkept
    dsimp only
    refine ⟨⟨hsane.writer, hsane.pending⟩, ⟨hcounted.1, ?_, hcounted.2.2⟩,
      hchained.congr rfl, ?_, hkept⟩
    · have := hcounted.2.1
      dsimp only
      omega
    · intro y hy k' hk'
      rcases mem_cons.1 hy with rfl | hy
      · exact hmembers r mem_cons_self k' hk'
      · exact hmembers y (mem_cons_of_mem _ hy) k' hk'

theorem Page.Queued.answeredBy (h : s.Queued kobjs) (hasked : 0 < s.asked)
    {shouldClean shouldFlush : Bool} {lockValue : VmProt}
    (htaken : s.TakenForAnswer shouldClean shouldFlush lockValue) (robj : Bool) :
    TailServes kobjs
      ({ s with asked := s.asked - 1 }.svmLockRequest shouldClean shouldFlush lockValue robj).1
      ({ s with asked := s.asked - 1 }.svmLockRequest shouldClean shouldFlush lockValue robj).2 := by
  obtain ⟨hlock, hclean, hflush, r0, hr0, ⟨k, hk⟩, hdesired, hm⟩ := htaken
  obtain ⟨hsane, hcounted, hchained, hmembers, hpositive, hkept⟩ := h
  cases hrs : s.request with
  | nil =>
    rw [hrs] at hr0
    exact absurd hr0 (by simp)
  | cons r rs =>
    rw [hrs] at hr0 hcounted hchained hmembers hkept
    obtain rfl : r = r0 := some.inj hr0
    rw [svmLockRequest, if_pos ⟨hlock, hclean, hflush⟩]
    simp only [hk]
    rw [if_pos ⟨hdesired, hm⟩]
    refine ⟨⟨hsane.writer, hsane.pending⟩, ⟨hcounted.1, ?_, hcounted.2.2⟩, ?_, ?_, ?_⟩
    · have := hcounted.2.1
      dsimp only
      omega
    · exact hchained.congr hk.symm
    · intro y hy k' hk'
      rcases mem_cons.1 hy with rfl | hy
      · exact hmembers r mem_cons_self k' (hk ▸ hk')
      · exact hmembers y (mem_cons_of_mem _ hy) k' hk'
    · simpa only [Kept, countP_cons, hk] using hkept

theorem Page.Queued.svmLockRequest (h : s.Queued kobjs) {shouldClean shouldFlush : Bool}
    {lockValue : VmProt} (htaken : ¬s.TakenForAnswer shouldClean shouldFlush lockValue)
    (robj : Bool) : TailServes kobjs (s.svmLockRequest shouldClean shouldFlush lockValue robj).1
      (s.svmLockRequest shouldClean shouldFlush lockValue robj).2 := by
  rw [Page.svmLockRequest]
  have hdone : ∀ lock, { s with lock := lock }.Queued kobjs := fun lock =>
    h.congr rfl rfl rfl rfl rfl rfl rfl
  split
  · rename_i hlower
    cases hrs : s.request with
    | nil =>
      have hdone := hdone lockValue
      rw [hrs] at hdone
      exact hdone
    | cons r0 rs =>
      have hdone := hdone lockValue
      rw [hrs] at hdone
      dsimp only
      split
      · rename_i k hk
        rw [if_neg fun hm => htaken ⟨hlower.1, hlower.2.1, hlower.2.2, r0, by rw [hrs]; rfl,
          ⟨k, hk⟩, hm.1, hm.2⟩]
        exact hdone
      · exact hdone
  · have hclient : ∀ k, (if robj then Client.pager else Client.nobody : Client K) ≠ .kernel k := by
      cases robj <;> simp
    generalize (if robj then Client.pager else Client.nobody : Client K) = client at hclient ⊢
    obtain ⟨hsane, hcounted, hchained, hmembers, hpositive, hkept⟩ := h
    have hsane' : (s.make client).Sane kobjs := ⟨hsane.writer, hsane.pending⟩
    have hrequest : (s.make client).request = s.request := rfl
    dsimp only
    rw [hrequest]
    cases hrs : s.request with
    | nil =>
      rw [hrs] at hcounted hkept
      refine ⟨hsane', ⟨hcounted.1.symm, hcounted.2.symm, by simp⟩, pairwise_singleton _ _,
        fun y hy k hk => ?_, hkept.make _ fun y => ?_⟩
      · rw [mem_singleton.1 hy] at hk
        exact absurd hk (hclient k)
      · simp [countP_cons]
    | cons r0 rs =>
      rw [hrs] at hcounted hchained hmembers hkept hpositive
      dsimp only
      split
      · rename_i k0 hk0
        refine ⟨hsane', ⟨hcounted.1, hcounted.2.1, fun y hy => ?_⟩, ?_, fun y hy k hk => ?_,
          hkept.make _ fun y => ?_⟩
        · rcases mem_cons.1 hy with rfl | hy
          · exact ⟨rfl, rfl⟩
          · exact hcounted.2.2 y hy
        · refine pairwise_cons.2 ⟨fun _ _ hkernel => ?_, hchained.congr rfl⟩
          exact absurd hkernel.choose_spec (hclient _)
        · rcases mem_cons.1 hy with rfl | hy
          · exact absurd hk (hclient k)
          · rcases mem_cons.1 hy with rfl | hy
            · exact hmembers r0 mem_cons_self k hk
            · exact hmembers y (mem_cons_of_mem _ hy) k hk
        · simp only [countP_cons]
          simp
      · rename_i hpager
        refine ⟨⟨hsane.writer, hsane.pending⟩, ?_, chained_insertPager
          (fun hkernel => hclient _ hkernel.choose_spec) hchained, fun y hy k hk => ?_, ?_,
            hkept.make _ fun y => ?_⟩
        · simp only [insertPager_cons hpager]
          refine ⟨hcounted.1, hcounted.2.1, fun y hy => ?_⟩
          rcases mem_insertPager.1 hy with rfl | hy
          · exact ⟨rfl, rfl⟩
          · exact hcounted.2.2 y hy
        · rcases mem_insertPager.1 hy with rfl | hy
          · exact absurd hk (hclient k)
          · exact hmembers y hy k hk
        · simp only [insertPager_cons hpager]
          exact hpositive
        · simp only [countP_insertPager, countP_cons]
          simp

theorem Page.Queued.handle (h : s.Queued kobjs) {e : PageEvent K}
    (hserves : ∀ shouldClean shouldFlush lockValue robj answers,
      e = .lockRequest shouldClean shouldFlush lockValue robj answers → 0 < s.asked →
        (answers ↔ s.TakenForAnswer shouldClean shouldFlush lockValue)) :
    TailServes kobjs (s.handle kobjs e).1 (s.handle kobjs e).2 := by
  cases e with
  | dataRequest k access | dataUnlock k access =>
    rw [Page.handle]
    split
    · rename_i hk
      exact h.svmRequest hk _ access
    · exact h
  | dataWrite k => exact h
  | lockCompleted k =>
    rw [Page.handle]
    split
    · rename_i hk
      exact h.lockCompleted hk.2
    · exact h
  | dataProvided lockValue =>
    rw [Page.handle]
    split
    · rename_i hasked
      exact h.dataFrom hasked _ _
    · exact h
  | dataUnavailable | dataError =>
    rw [Page.handle]
    split
    · rename_i hasked
      exact h.dataFrom hasked _ _
    · exact h
  | lockRequest shouldClean shouldFlush lockValue robj answers =>
    have hserves := hserves shouldClean shouldFlush lockValue robj answers rfl
    rw [Page.handle]
    split
    · rename_i hanswers
      split
      · rename_i hasked
        exact h.answeredBy hasked ((hserves hasked).1 hanswers) robj
      · exact h
    · rename_i hanswers
      refine h.svmLockRequest (fun htaken => hanswers ((hserves ?_).2 htaken)) robj
      -- the manager has been asked, as the head waits for it
      obtain ⟨-, -, -, r0, hr0, -, -, hm⟩ := htaken
      have hcounted := h.counted
      cases hrs : s.request with
      | nil =>
        rw [hrs] at hr0
        exact absurd hr0 (by simp)
      | cons r rs =>
        rw [hrs] at hr0 hcounted
        obtain rfl : r = r0 := some.inj hr0
        have := hcounted.2.1
        omega
  | take k =>
    rw [Page.handle]
    split
    · rw [Page.take]
      split
      · exact h
      · exact h.congr rfl rfl rfl rfl rfl rfl rfl
    · exact h
  | discard k =>
    rw [Page.handle]
    split
    · exact h.congr rfl rfl rfl rfl rfl rfl rfl
    · exact h

theorem Page.Queued.served (h : s.Queued kobjs) : s.Served kobjs where
  chain := by
    have hchained := h.chained
    generalize s.request = rs at hchained ⊢
    induction rs with
    | nil => exact ⟨[], [], rfl, nofun, nofun⟩
    | cons r rs ih =>
      obtain ⟨hhead, htail⟩ := pairwise_cons.1 hchained
      by_cases hr : r.IsKernel
      · refine ⟨[], r :: rs, rfl, nofun, fun y hy => ?_⟩
        rcases mem_cons.1 hy with rfl | hy
        · exact hr
        · exact hhead y hy hr
      · obtain ⟨ps, ks, rfl, hps, hks⟩ := ih htail
        refine ⟨r :: ps, ks, rfl, fun y hy => ?_, hks⟩
        rcases mem_cons.1 hy with rfl | hy
        · exact hr
        · exact hps y hy
  members := h.members
  pending := h.sane.pending
  counts := fun r hr => by
    have hcounted := h.counted
    cases hrs : s.request with
    | nil =>
      rw [hrs] at hr
      exact absurd hr (by simp)
    | cons r' rs =>
      rw [hrs] at hr hcounted
      obtain rfl : r' = r := some.inj hr
      exact ⟨hcounted.1, hcounted.2.1⟩
  positive := h.positive
  answered := h.kept

def Mobj.Queued (s : Mobj K P) : Prop := ∀ p, (s.pages p).Queued s.kobjs

omit [DecidableEq P] in
theorem Mobj.Queued.create : (Mobj.create : Mobj K P).Queued := fun _ =>
  ⟨⟨fun hw => absurd hw (by decide : ¬Writes vmProtNone), nofun⟩, ⟨rfl, rfl⟩, List.Pairwise.nil,
    nofun, nofun, fun _ => rfl⟩

theorem Page.Queued.attach (h : s.Queued kobjs) (hk : k ∉ kobjs) :
    (s.attach k).Queued (k :: kobjs) := by
  obtain ⟨⟨hwriter, hpending⟩, hcounted, hchained, hmembers, hpositive, hkept⟩ := h
  refine ⟨⟨fun hw => ?_, fun x hx => mem_cons_of_mem k (hpending x hx)⟩, hcounted, hchained,
    fun y hy k' hk' => mem_cons_of_mem k (hmembers y hy k' hk'), hpositive, fun x => ?_⟩
  · obtain ⟨w, hmem, hwrites⟩ := hwriter hw
    refine ⟨w, mem_cons_of_mem k hmem, ?_⟩
    simp only [Page.attach]
    have hwk : w ≠ k := by
      rintro rfl
      exact hk hmem
    rwa [update_of_ne hwk]
  · simp only [Page.attach, update_apply]
    by_cases hx : x = .kernel k
    · rw [if_pos hx, if_pos hx, hx, Nat.zero_add, countP_eq_zero]
      exact fun y hy hyk => hk (hmembers y hy k (by simpa using hyk))
    · rw [if_neg hx, if_neg hx]
      exact hkept x

theorem Page.Queued.terminate (h : s.Queued kobjs) (hrequest : ∀ r ∈ s.request, r.kobj ≠ .kernel k)
    (hlocks : k ∉ s.locks) (hwrites : ¬Writes (s.kprot k)) : s.Queued (kobjs.erase k) := by
  obtain ⟨⟨hwriter, hpending⟩, hcounted, hchained, hmembers, hpositive, hkept⟩ := h
  refine ⟨⟨fun hw => ?_, fun x hx => ?_⟩, hcounted, hchained, fun y hy k' hk' => ?_, hpositive,
    hkept⟩
  · obtain ⟨w, hw, hw'⟩ := hwriter hw
    have hwk : w ≠ k := by
      rintro rfl
      exact hwrites hw'
    exact ⟨w, (mem_erase_of_ne hwk).2 hw, hw'⟩
  · have hxk : x ≠ k := by
      rintro rfl
      exact hlocks hx
    exact (mem_erase_of_ne hxk).2 (hpending x hx)
  · have hkk : k' ≠ k := by
      rintro rfl
      exact hrequest y hy hk'
    exact (mem_erase_of_ne hkk).2 (hmembers y hy k' hk')

theorem Mobj.Queued.event {s : Mobj K P} (h : s.Queued) {e : Event K P} (hserves : s.Serves e) :
    (s.event e).Queued := by
  cases e with
  | init k =>
    rw [Mobj.event]
    split
    · exact h
    · rename_i hk
      exact fun p => (h p).attach hk
  | terminate k =>
    exact fun p => (h p).terminate (hserves p).1 (hserves p).2.1 (hserves p).2.2
  | page p e =>
    intro q
    simp only [Mobj.event]
    by_cases hq : q = p
    · subst hq
      rw [update_self]
      refine tail_queued ((h q).handle ?_)
      rintro shouldClean shouldFlush lockValue robj answers rfl hasked
      exact hserves hasked
    · rw [update_of_ne hq]
      exact h q

/-- In a run whose events fit, no request is stranded. -/
theorem svmRuns_serve (es : List (Event K P)) (hes : Runs.Along Mobj.step Mobj.Serves Mobj.create es) :
    Runs.Does Mobj.step servedSpec Mobj.create () es := by
  refine Runs.Does.of_simulation (fun s _ => s.Queued) ?_ Mobj.Queued.create hes
  intro s a e hqueued hserves
  have hqueued' := hqueued.event hserves
  exact ⟨(), s.event e, (), rfl, fun p => (hqueued' p).served, hqueued'⟩

/-! Two kernels and a page. In the first run the manager takes the page back before the second kernel
gets it, and the first leaves; in the second run the first leaves while it is the writer. -/

def handedOver : List (Event (Fin 2) Unit) :=
  [.init 0, .init 1, .page () (.dataRequest 0 vmProtRead), .page () (.dataProvided 0),
    .page () (.take 0), .page () (.dataRequest 1 (vmProtRead ||| vmProtWrite)),
    .page () (.lockRequest true true vmProtAll true false), .page () (.take 0),
    .page () (.lockCompleted 0), .page () (.dataProvided 0), .terminate 0]

theorem svmRuns_serve_handedOver : Runs.Does Mobj.step servedSpec Mobj.create () handedOver :=
  svmRuns_serve handedOver (by decide +kernel)

def writerLeaves : List (Event (Fin 2) Unit) :=
  [.init 0, .init 1, .page () (.dataRequest 0 (vmProtRead ||| vmProtWrite)),
    .page () (.dataProvided 0), .terminate 0, .page () (.dataRequest 1 vmProtRead)]

/-- The reader waits, and nothing is to come for it. -/
theorem writerLeaves_not_served : ¬Runs.Does Mobj.step servedSpec Mobj.create () writerLeaves := by
  intro h
  have hpositive : Runs.Along Mobj.step
      (fun s e => ∀ r ∈ ((s.event e).pages ()).request.head?, 0 < r.kCount ∨ 0 < r.mCount)
      Mobj.create writerLeaves :=
    h.along fun s a e r s' a' hstep hspec => by
      obtain rfl : s.event e = s' := congrArg Prod.snd (some.inj hstep)
      exact (hspec ()).positive
  exact absurd hpositive (by decide +kernel)

end Queue

end MachKernel.Norma
