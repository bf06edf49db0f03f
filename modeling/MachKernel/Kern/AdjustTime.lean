import Mathlib.Algebra.BigOperators.Group.List.Basic
import Mathlib.Tactic

/-! Gradual adjustment of the clock (`kern/mach_clock.c`). -/

namespace MachKernel.Kern.AdjustTime

/-- `time_value_t`. -/
structure TimeValue where
  seconds : ℤ
  microseconds : ℤ
  deriving DecidableEq

inductive KernReturn
  | invalidHost
  deriving DecidableEq

/-- What `mach_clock.c` keeps for the time of day. -/
structure Clock where
  time : TimeValue
  timedelta : ℤ
  tickdelta : ℤ
  deriving DecidableEq

/-- A number as it is stored in an `int`. -/
def toInt (x : ℤ) : ℤ := (x + 2 ^ 31) % 2 ^ 32 - 2 ^ 31

/-- `tickadj`, from the number of ticks in a second. -/
def tickadj (hz : ℕ) : ℤ := if 100 < hz then 1 else 100 / (hz : ℤ)

def bigadj : ℤ := 1000000

/-- The microseconds that a time value stands for. -/
def TimeValue.usec (t : TimeValue) : ℤ := t.seconds * 1000000 + t.microseconds

/-- `time_value_add_usec`. -/
def TimeValue.addUsec (t : TimeValue) (micros : ℤ) : TimeValue :=
  if 1000000 ≤ t.microseconds + micros then ⟨t.seconds + 1, t.microseconds + micros - 1000000⟩
  else ⟨t.seconds, t.microseconds + micros⟩

namespace Clock
variable (hz : ℕ) (s : Clock)

/-- `host_adjust_time` on the clock, from where the host is known; `ndelta` is unsigned. -/
def adjust (newAdjustment : TimeValue) : TimeValue × Clock :=
  let ndelta := (newAdjustment.seconds * 1000000 + newAdjustment.microseconds) % 2 ^ 32
  let oadj : TimeValue := ⟨s.timedelta.tdiv 1000000, s.timedelta.tmod 1000000⟩
  let tickdelta :=
    if s.timedelta = 0 then
      if bigadj < ndelta then 10 * tickadj hz else tickadj hz
    else s.tickdelta
  let ndelta := if ndelta % tickdelta ≠ 0 then ndelta / tickdelta * tickdelta else ndelta
  (oadj, { s with timedelta := toInt ndelta, tickdelta })

def hostAdjustTime (host : Option ℕ) (newAdjustment : TimeValue) :
    Except KernReturn (TimeValue × Clock) :=
  match host with
  | none => .error .invalidHost
  | some _ => .ok (s.adjust hz newAdjustment)

/-- What `clock_interrupt` does to the time of day. -/
def clockInterrupt (usec : ℤ) : Clock :=
  if s.timedelta = 0 then { s with time := s.time.addUsec usec }
  else if s.timedelta < 0 then
    { s with
      time := s.time.addUsec (usec - s.tickdelta)
      timedelta := s.timedelta + s.tickdelta }
  else
    { s with
      time := s.time.addUsec (usec + s.tickdelta)
      timedelta := s.timedelta - s.tickdelta }

/-- Clock interrupts, with the microseconds that each says have elapsed. -/
def ticks (us : List ℤ) : Clock := us.foldl clockInterrupt s

end Clock

inductive Event
  | adjust (host : Option ℕ) (newAdjustment : TimeValue)
  | tick (usec : ℤ)
  -- `host_set_time`
  | set (newTime : TimeValue)

def Clock.start : Clock := ⟨⟨0, 0⟩, 0, 0⟩

def Clock.step (hz : ℕ) (s : Clock) : Event → Clock
  | .adjust host new => match s.hostAdjustTime hz host new with
    | .ok (_, s') => s'
    | .error _ => s
  | .tick usec => s.clockInterrupt usec
  | .set time => { s with time }

def Clock.run (hz : ℕ) (es : List Event) : Clock := es.foldl (Clock.step hz) .start

/-- A number rounded toward zero to a multiple of `d`. -/
def rounded (d n : ℤ) : ℤ := n.tdiv d * d

/-- The clock does what is asked for: however the ticks come, after enough of them nothing is left
to adjust and the time has been advanced by the ticks and the rounded adjustment; before that, the
next request is told what is left. -/
structure Adjusts (hz : ℕ) (s : Clock) (new : TimeValue) : Prop where
  settles : ∃ k, ∀ us : List ℤ, k ≤ us.length → let s' := (s.adjust hz new).2
    (s'.ticks us).timedelta = 0 ∧
      (s'.ticks us).time.usec = s'.time.usec + us.sum + rounded s'.tickdelta new.usec
  reports : ∀ us : List ℤ, ∀ later : TimeValue, let s' := (s.adjust hz new).2
    ((s'.ticks us).adjust hz later).1.usec =
      rounded s'.tickdelta new.usec - ((s'.ticks us).time.usec - s'.time.usec - us.sum)

/-! Ticks. -/

theorem TimeValue.usec_addUsec (t : TimeValue) (micros : ℤ) :
    (t.addUsec micros).usec = t.usec + micros := by
  unfold TimeValue.addUsec
  split
  · simp only [TimeValue.usec]
    ring
  · simp only [TimeValue.usec]
    ring

namespace Clock
variable {hz : ℕ} {s : Clock}

theorem clockInterrupt_tickdelta (usec : ℤ) : (s.clockInterrupt usec).tickdelta = s.tickdelta := by
  unfold clockInterrupt
  split
  · rfl
  · split <;> rfl

theorem clockInterrupt_usec (usec : ℤ) :
    (s.clockInterrupt usec).time.usec + (s.clockInterrupt usec).timedelta =
      s.time.usec + s.timedelta + usec := by
  unfold clockInterrupt
  split
  · simp only [TimeValue.usec_addUsec]
    ring
  · split
    · simp only [TimeValue.usec_addUsec]
      ring
    · simp only [TimeValue.usec_addUsec]
      ring

theorem ticks_cons (usec : ℤ) (us : List ℤ) :
    s.ticks (usec :: us) = (s.clockInterrupt usec).ticks us := rfl

theorem ticks_usec (us : List ℤ) : (s.ticks us).time.usec + (s.ticks us).timedelta =
    s.time.usec + s.timedelta + us.sum := by
  induction us generalizing s with
  | nil => simp [ticks]
  | cons usec us ih =>
    rw [ticks_cons, ih, clockInterrupt_usec, List.sum_cons]
    ring

theorem clockInterrupt_steps {q : ℤ} (hd : 0 < s.tickdelta) (hq : s.timedelta = q * s.tickdelta)
    (usec : ℤ) : ∃ q' : ℤ, (s.clockInterrupt usec).timedelta = q' * s.tickdelta ∧
      q'.natAbs = q.natAbs - 1 := by
  unfold clockInterrupt
  rcases lt_trichotomy q 0 with hneg | rfl | hpos
  · have hlt : s.timedelta < 0 := hq ▸ mul_neg_of_neg_of_pos hneg hd
    rw [if_neg hlt.ne, if_pos hlt]
    refine ⟨q + 1, ?_, by omega⟩
    rw [hq]
    ring
  · rw [zero_mul] at hq
    rw [if_pos hq]
    exact ⟨0, by rw [zero_mul]; exact hq, rfl⟩
  · have hgt : 0 < s.timedelta := hq ▸ mul_pos hpos hd
    rw [if_neg hgt.ne', if_neg hgt.le.not_gt]
    refine ⟨q - 1, ?_, by omega⟩
    rw [hq]
    ring

theorem ticks_settle {q : ℤ} (hd : 0 < s.tickdelta) (hq : s.timedelta = q * s.tickdelta)
    {us : List ℤ} (hus : q.natAbs ≤ us.length) : (s.ticks us).timedelta = 0 := by
  induction us generalizing s q with
  | nil =>
    have hzero : q = 0 := Int.natAbs_eq_zero.1 (Nat.le_zero.1 hus)
    rw [hzero, zero_mul] at hq
    exact hq
  | cons usec us ih =>
    obtain ⟨q', hq', habs⟩ := clockInterrupt_steps hd hq usec
    rw [List.length_cons] at hus
    rw [ticks_cons]
    rw [← clockInterrupt_tickdelta usec] at hd hq'
    exact ih hd hq' (by omega)

/-! Requests. -/

theorem tickadj_pos (hhz : 0 < hz) : 0 < tickadj hz ∧ tickadj hz ≤ 100 := by
  unfold tickadj
  split
  · exact ⟨one_pos, by norm_num⟩
  · next hle =>
    have hpos : (0 : ℤ) < hz := by exact_mod_cast hhz
    have hle' : (hz : ℤ) ≤ 100 := by exact_mod_cast not_lt.1 hle
    have hone : 1 ≤ 100 / (hz : ℤ) := (Int.le_ediv_iff_mul_le hpos).2 (by rwa [one_mul])
    exact ⟨hone, Int.ediv_le_self _ (by norm_num)⟩

/-- While something is left to adjust, the step is `tickadj` or ten times that. -/
def Stepped (hz : ℕ) (s : Clock) : Prop :=
  s.timedelta ≠ 0 → s.tickdelta = tickadj hz ∨ s.tickdelta = 10 * tickadj hz

theorem Stepped.adjust_tickdelta (h : Stepped hz s) (new : TimeValue) :
    (s.adjust hz new).2.tickdelta = tickadj hz ∨
      (s.adjust hz new).2.tickdelta = 10 * tickadj hz := by
  dsimp only [adjust]
  split
  · split
    · exact .inr rfl
    · exact .inl rfl
  · next hne => exact h hne

theorem Stepped.clockInterrupt (h : Stepped hz s) (usec : ℤ) :
    Stepped hz (s.clockInterrupt usec) := by
  intro hne
  rw [clockInterrupt_tickdelta]
  refine h fun hzero => hne ?_
  unfold Clock.clockInterrupt
  rwa [if_pos hzero]

theorem Stepped.step (h : Stepped hz s) (e : Event) : Stepped hz (s.step hz e) := by
  cases e with
  | adjust host new =>
    cases host with
    | none => exact h
    | some host => exact fun _ => h.adjust_tickdelta new
  | tick usec => exact h.clockInterrupt usec
  | set time => exact h

theorem Stepped.run (es : List Event) : Stepped hz (run hz es) :=
  List.foldlRecOn (motive := Stepped hz) es (Clock.step hz) (fun hne => (hne rfl).elim)
    fun _ h e _ => h.step e

theorem Stepped.adjust_bounds (h : Stepped hz s) (hhz : 0 < hz) (new : TimeValue) :
    0 < (s.adjust hz new).2.tickdelta ∧ (s.adjust hz new).2.tickdelta ≤ 1000 := by
  obtain ⟨hpos, hle⟩ := tickadj_pos hhz
  rcases h.adjust_tickdelta new with hd | hd
  · rw [hd]
    omega
  · rw [hd]
    omega

theorem adjust_timedelta (new : TimeValue) : (s.adjust hz new).2.timedelta =
    toInt (new.usec % 2 ^ 32 / (s.adjust hz new).2.tickdelta * (s.adjust hz new).2.tickdelta) := by
  have hround : ∀ w d : ℤ, (if w % d ≠ 0 then w / d * d else w) = w / d * d := by
    intro w d
    split
    · rfl
    · next hrem => exact (Int.ediv_mul_cancel (Int.dvd_of_emod_eq_zero (not_not.1 hrem))).symm
  exact congrArg toInt (hround _ _)

theorem adjust_reports (new : TimeValue) : (s.adjust hz new).1.usec = s.timedelta := by
  have hdiv := Int.tmod_add_tdiv_mul s.timedelta 1000000
  dsimp only [adjust, TimeValue.usec]
  linarith

end Clock

theorem toInt_rounded {d n : ℤ} (hd : 0 < d) (hle : d ≤ 1000) (hn : -2 ^ 31 ≤ n ∧ n < 2 ^ 31) :
    toInt (n % 2 ^ 32 / d * d) = rounded d n ↔ 0 ≤ n ∨ d ∣ n ∧ d ∣ 2 ^ 32 := by
  unfold toInt rounded
  rcases le_or_gt 0 n with hpos | hneg
  · refine iff_of_true ?_ (.inl hpos)
    have hmod : n % 2 ^ 32 = n := Int.emod_eq_of_lt hpos (by omega)
    have hlow : 0 ≤ n / d * d := mul_nonneg (Int.ediv_nonneg hpos hd.le) hd.le
    have hhigh : n / d * d ≤ n := Int.ediv_mul_le n hd.ne'
    rw [hmod, Int.tdiv_eq_ediv_of_nonneg hpos]
    omega
  · have hmod : n % 2 ^ 32 = n + 2 ^ 32 := by omega
    have hquot := Int.emod_add_ediv_mul (n + 2 ^ 32) d
    have hrem := Int.emod_nonneg (n + 2 ^ 32) hd.ne'
    have hrem' := Int.emod_lt_of_pos (n + 2 ^ 32) hd
    have hdiv := Int.tmod_add_tdiv_mul n d
    have htmod : n.tmod d = -((-n) % d) := by
      rw [← Int.neg_neg n, Int.neg_tmod, Int.neg_neg, Int.tmod_eq_emod_of_nonneg (by omega)]
    have hneg0 := Int.emod_nonneg (-n) hd.ne'
    have hneg1 := Int.emod_lt_of_pos (-n) hd
    have hdvd : (-n) % d = 0 ↔ d ∣ n := by rw [← Int.dvd_iff_emod_eq_zero, dvd_neg]
    have hdvd' : (n + 2 ^ 32) % d = 0 ↔ d ∣ n + 2 ^ 32 := Int.dvd_iff_emod_eq_zero.symm
    rw [hmod, or_iff_right hneg.not_ge]
    have hboth : toInt ((n + 2 ^ 32) / d * d) = n.tdiv d * d ↔
        (-n) % d = 0 ∧ (n + 2 ^ 32) % d = 0 := by
      unfold toInt
      omega
    refine hboth.trans ?_
    rw [hdvd, hdvd']
    exact and_congr_right fun hdn => dvd_add_right hdn

theorem adjusts_iff {hz : ℕ} {s : Clock} (h : s.Stepped hz) (hhz : 0 < hz) (new : TimeValue) :
    Adjusts hz s new ↔ (s.adjust hz new).2.timedelta =
      rounded (s.adjust hz new).2.tickdelta new.usec := by
  constructor
  · intro had
    have hreport := had.reports [] new
    dsimp only at hreport
    rw [Clock.adjust_reports] at hreport
    simpa [Clock.ticks] using hreport
  · intro heq
    refine ⟨⟨(new.usec.tdiv (s.adjust hz new).2.tickdelta).natAbs, fun us hus => ?_⟩,
      fun us later => ?_⟩
    · have hzero := Clock.ticks_settle (h.adjust_bounds hhz new).1 heq hus
      have husec := Clock.ticks_usec (s := (s.adjust hz new).2) us
      rw [hzero, heq] at husec
      exact ⟨hzero, by linarith⟩
    · have husec := Clock.ticks_usec (s := (s.adjust hz new).2) us
      dsimp only
      rw [Clock.adjust_reports, ← heq]
      linarith

/-- From any state that requests and ticks lead to, a request that fits in an `int` is done exactly
when it is not negative, or is made of whole steps of the adjustment in progress, which make up
`2 ^ 32` as well. -/
theorem adjusts_iff_steps {hz : ℕ} (hhz : 0 < hz) (es : List Event) (new : TimeValue)
    (hnew : -2 ^ 31 ≤ new.usec ∧ new.usec < 2 ^ 31) :
    Adjusts hz (Clock.run hz es) new ↔ 0 ≤ new.usec ∨ (Clock.run hz es).timedelta ≠ 0 ∧
        (Clock.run hz es).tickdelta ∣ new.usec ∧ (Clock.run hz es).tickdelta ∣ 2 ^ 32 := by
  have h : (Clock.run hz es).Stepped hz := Clock.Stepped.run es
  generalize Clock.run hz es = s at h ⊢
  obtain ⟨hpos, hle⟩ := h.adjust_bounds hhz new
  rw [adjusts_iff h hhz, Clock.adjust_timedelta, toInt_rounded hpos hle hnew]
  rcases le_or_gt 0 new.usec with hn | hn
  · exact iff_of_true (.inl hn) (.inl hn)
  · rw [or_iff_right hn.not_ge, or_iff_right hn.not_ge]
    have hbig : bigadj < new.usec % 2 ^ 32 := by
      unfold bigadj
      omega
    dsimp only [Clock.adjust]
    change (if s.timedelta = 0 then if bigadj < new.usec % 2 ^ 32 then _ else _ else _) ∣ _ ∧
      (if s.timedelta = 0 then if bigadj < new.usec % 2 ^ 32 then _ else _ else _) ∣ _ ↔ _
    rw [if_pos hbig]
    split
    · next hzero =>
      refine iff_of_false (fun hdvd => ?_) fun hdvd => hdvd.1 hzero
      -- a fresh step is a multiple of five
      have hfive : (5 : ℤ) ∣ 2 ^ 32 := (Dvd.intro_left (2 * tickadj hz) (by ring)).trans hdvd.2
      revert hfive
      decide
    · next hne => exact (and_iff_right hne).symm

theorem adjusts_iff_steps_slower : Adjusts 60 (Clock.run 60 [.adjust (some 0) ⟨1, 0⟩]) ⟨0, -7⟩ :=
  (adjusts_iff_steps (by norm_num) _ _ (by decide)).2 (.inr (by decide))

/-- A request for a second less, with nothing in progress. -/
theorem secondLess_not_adjusts : ¬Adjusts 60 (Clock.run 60 []) ⟨-1, 0⟩ := by
  rw [adjusts_iff (Clock.Stepped.run []) (by norm_num)]
  decide

end MachKernel.Kern.AdjustTime
