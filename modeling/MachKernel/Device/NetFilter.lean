import Mathlib.Data.List.Basic
import Mathlib.Tactic

/-! The packet filters of the network input code (`device/net_io.c`): the check when a filter is
set, and its run on a packet. -/

namespace MachKernel.Device
open Function List Option

/-- What the filters leave to the machine: the word that two bytes make, and shifts. -/
structure Cpu where
  short : BitVec 8 → BitVec 8 → BitVec 16
  shiftLeft : BitVec 32 → BitVec 32 → BitVec 32
  shiftRight : BitVec 32 → BitVec 32 → BitVec 32

/-- `filter_t`. -/
abbrev FilterWord := BitVec 16

def netMaxFilter : ℕ := 40

def netfArg (word : FilterWord) : ℕ := word.toNat % 1024

def netfOp (word : FilterWord) : ℕ := word.toNat / 1024

def netfNopush : ℕ := 0
def netfPushlit : ℕ := 1
def netfPushzero : ℕ := 2
def netfPushword : ℕ := 16

/-- The operators, `NETF_NOP` apart. -/
inductive Operator
  | eq | lt | le | gt | ge | and | or | xor | cor | cand | cnor | cnand | neq | lsh | rsh | add
  | sub
  deriving DecidableEq

/-- The cases of the switches over the operator. -/
def operator : ℕ → Option Operator
  | 1 => some .eq
  | 2 => some .lt
  | 3 => some .le
  | 4 => some .gt
  | 5 => some .ge
  | 6 => some .and
  | 7 => some .or
  | 8 => some .xor
  | 9 => some .cor
  | 10 => some .cand
  | 11 => some .cnor
  | 12 => some .cnand
  | 13 => some .neq
  | 14 => some .lsh
  | 15 => some .rsh
  | 16 => some .add
  | 17 => some .sub
  | _ => none

/-! ## The check -/

/-- The part of `parse_net_filter` after the argument, `sp` having been moved for it. -/
def parseOp (op sp : ℕ) : Option ℕ :=
  if sp < 2 then none
  else if op = 0 then some sp
  else if netMaxFilter - 2 < sp then none
  else if (operator op).isSome then some (sp + 1)
  else none

def parseFrom : List FilterWord → ℕ → Bool
  | [], _ => true
  | word :: filter, sp =>
    if netfArg word = netfPushlit then
      match filter with
      | [] => false
      | _ :: filter =>
        match parseOp (netfOp word) (sp - 1) with
        | none => false
        | some sp => parseFrom filter sp
    else
      let arg := netfArg word
      if arg ≠ netfNopush ∧ arg ≠ netfPushzero ∧ arg < netfPushword then false
      else
        match parseOp (netfOp word) (if arg = netfNopush then sp else sp - 1) with
        | none => false
        | some sp => parseFrom filter sp

def parseNetFilter (filter : List FilterWord) : Bool := parseFrom filter netMaxFilter

/-! ## The run -/

/-- The cells of `stack` and the index that `sp` points to. -/
structure Stack where
  cells : ℕ → BitVec 32
  sp : ℕ

namespace Stack
variable (s : Stack)

/-- `*sp`; there is no result outside the array. -/
def top : Option (BitVec 32) := if s.sp ≤ netMaxFilter then some (s.cells s.sp) else none

/-- `*sp++`. -/
def pop : Option (BitVec 32 × Stack) := s.top.map fun v => (v, { s with sp := s.sp + 1 })

/-- `*--sp = v`. -/
def push (v : BitVec 32) : Option Stack :=
  if 1 ≤ s.sp ∧ s.sp - 1 ≤ netMaxFilter then
    some ⟨update s.cells (s.sp - 1) v, s.sp - 1⟩
  else none

/-- `*sp = v`. -/
def setTop (v : BitVec 32) : Stack := { s with cells := update s.cells s.sp v }

end Stack

/-- The end of the switch over the argument, or of that over the operator: `net_do_filter` returns,
or goes on. -/
inductive Turn (β : Type)
  | ret (accept : Bool)
  | next (b : β)

/-- `((unsigned short *)data)[i]`, which must lie in the packet. -/
def Cpu.shortAt (cpu : Cpu) (data : List (BitVec 8)) (i : ℕ) : Option (BitVec 16) :=
  match data[2 * i]?, data[2 * i + 1]? with
  | some a, some b => some (cpu.short a b)
  | _, _ => none

/-- The switch over the argument, `NETF_PUSHLIT` apart. -/
def fetch (cpu : Cpu) (data : List (BitVec 8)) (arg : ℕ) (s : Stack) :
    Option (Turn (BitVec 32 × Stack)) :=
  if arg = netfPushzero then some (.next (0, s))
  else if arg = netfNopush then s.pop.map .next
  else
    let i := (BitVec.ofNat 32 arg - BitVec.ofNat 32 netfPushword).toNat
    if i < data.length / 2 then
      (cpu.shortAt data i).map fun w => .next (w.setWidth 32, s)
    else some (.ret false)

def ofBool (b : Bool) : BitVec 32 := if b then 1 else 0

/-- An operator that leaves its result in place of the operand. -/
def Operator.result (cpu : Cpu) (v arg : BitVec 32) : Operator → BitVec 32
  | .and => v &&& arg
  | .or => v ||| arg
  | .xor => v ^^^ arg
  | .eq => ofBool (v = arg)
  | .neq => ofBool (v ≠ arg)
  | .lt => ofBool (v < arg)
  | .le => ofBool (v ≤ arg)
  | .gt => ofBool (arg < v)
  | .ge => ofBool (arg ≤ v)
  | .lsh => cpu.shiftLeft v arg
  | .rsh => cpu.shiftRight v arg
  | .add => v + arg
  | .sub => v - arg
  | .cor | .cand | .cnor | .cnand => v

/-- An operator that may decide: whether it does on equal operands, and what. -/
def Operator.decides : Operator → Option (Bool × Bool)
  | .cor => some (true, true)
  | .cand => some (false, false)
  | .cnor => some (true, false)
  | .cnand => some (false, true)
  | _ => none

/-- The switch over the operator. -/
def operate (cpu : Cpu) (op : ℕ) (arg : BitVec 32) (s : Stack) : Option (Turn Stack) :=
  if op = 0 then (s.push arg).map .next
  else
    match operator op with
    | none => some (.next s)
    | some o =>
      match o.decides with
      | none => s.top.map fun v => .next (s.setTop (o.result cpu v arg))
      | some (onEqual, accept) =>
        s.pop.map fun (v, s) => if decide (v = arg) = onEqual then .ret accept else .next s

/-- The loop of `net_do_filter`. -/
def filterLoop (cpu : Cpu) (data : List (BitVec 8)) : List FilterWord → Stack → Option (Turn Stack)
  | [], s => some (.next s)
  | word :: fp, s =>
    if netfArg word = netfPushlit then
      match fp with
      | [] => none
      | lit :: fp =>
        match operate cpu (netfOp word) (lit.setWidth 32) s with
        | none => none
        | some (.ret accept) => some (.ret accept)
        | some (.next s) => filterLoop cpu data fp s
    else
      match fetch cpu data (netfArg word) s with
      | none => none
      | some (.ret accept) => some (.ret accept)
      | some (.next (arg, s)) =>
        match operate cpu (netfOp word) arg s with
        | none => none
        | some (.ret accept) => some (.ret accept)
        | some (.next s) => filterLoop cpu data fp s

/-- The stack at first; what else its memory holds is arbitrary. -/
def Stack.start (cells : ℕ → BitVec 32) : Stack :=
  ⟨update cells netMaxFilter 1, netMaxFilter⟩

/-- `net_do_filter`; there is no result when it reads or writes outside the filter, the packet or
its stack. -/
def netDoFilter (cpu : Cpu) (filter : List FilterWord) (data : List (BitVec 8))
    (cells : ℕ → BitVec 32) : Option Bool :=
  match filterLoop cpu data filter (.start cells) with
  | none => none
  | some (.ret accept) => some accept
  | some (.next s) => s.top.map fun v => v ≠ 0

/-! ## Setting a filter -/

/-- `struct net_rcv_port`: the port, and the filter as words in the array `filter`. -/
structure NetRcvPort where
  rcvPort : ℕ
  rcvQlimit : ℕ
  rcvCount : ℕ
  priority : ℤ
  filterEnd : ℕ
  filter : ℕ → FilterWord

/-- The words of the stored filter. -/
def NetRcvPort.words (p : NetRcvPort) : List FilterWord := (List.range p.filterEnd).map p.filter

/-- The loop that copies a filter; there is no result when it writes behind the array. -/
def NetRcvPort.copyFilter (p : NetRcvPort) : ℕ → List FilterWord → Option NetRcvPort
  | i, [] => some { p with filterEnd := i }
  | i, word :: filter =>
    if i < netMaxFilter then
      copyFilter { p with filter := update p.filter i word } (i + 1) filter
    else none

/-- The filters of an interface, and the counts of the buffers that they may use. -/
structure Ifnet where
  rcvPortList : List NetRcvPort
  netQueueFreeMin : ℕ
  netKmsgMax : ℕ

/-- A filter goes in front of the first one of lower priority. -/
def insertPriority (p : NetRcvPort) : List NetRcvPort → List NetRcvPort
  | [] => [p]
  | next :: l => if next.priority < p.priority then p :: next :: l else next :: insertPriority p l

inductive IoReturn
  | success | invalidOperation
  deriving DecidableEq

/-- `net_set_filter`. While it allocates a structure, whose memory is `new`, the list is unlocked and
`others` change it; `qlimit` is that of the port. -/
def netSetFilter (ifp : Ifnet) (others : Ifnet → Ifnet) (new : NetRcvPort) (rcvPort : ℕ)
    (priority : ℤ) (filter : List FilterWord) (qlimit : ℕ) : Option (IoReturn × Ifnet) :=
  if parseNetFilter filter = false then some (.invalidOperation, ifp)
  else
    let isPort := fun p : NetRcvPort => decide (p.rcvPort = rcvPort)
    let ifp := if (ifp.rcvPortList.find? isPort).isSome then ifp else others ifp
    match ifp.rcvPortList.find? isPort with
    | some infp =>
      match { infp with priority := priority }.copyFilter 0 filter with
      | none => none
      | some p => some (.success,
          { ifp with rcvPortList := insertPriority p (ifp.rcvPortList.eraseP isPort) })
    | none =>
      match { new with rcvPort := rcvPort, rcvCount := 0, priority := priority }.copyFilter 0
        filter with
      | none => none
      | some p => some (.success,
          { rcvPortList := insertPriority { p with rcvQlimit := qlimit } ifp.rcvPortList
            netQueueFreeMin := ifp.netQueueFreeMin + 1
            netKmsgMax := ifp.netKmsgMax + qlimit + 1 })

/-! ## Where the stack pointer goes -/

/-- The stack pointer after an argument. -/
def pointerArg (arg sp : ℕ) : Option ℕ :=
  if arg = netfNopush then if sp ≤ netMaxFilter then some (sp + 1) else none else some sp

/-- The stack pointer after an operator: one that may decide pops its operand. -/
def pointerOp (op sp : ℕ) : Option ℕ :=
  if op = 0 then some (sp - 1)
  else
    match operator op with
    | none => some sp
    | some o =>
      if sp ≤ netMaxFilter then some (if o.decides.isSome then sp + 1 else sp) else none

/-- The words before the first one that uses a cell above the stack, and where they leave the stack
pointer, if there is no such word. -/
def balancedPart : List FilterWord → ℕ → List FilterWord × Option ℕ
  | [], sp => ([], some sp)
  | word :: fp, sp =>
    if netfArg word = netfPushlit then
      match fp with
      | [] => ([], none)
      | lit :: fp =>
        match pointerOp (netfOp word) sp with
        | none => ([], none)
        | some sp => (word :: lit :: (balancedPart fp sp).1, (balancedPart fp sp).2)
    else
      match (pointerArg (netfArg word) sp).bind (pointerOp (netfOp word)) with
      | none => ([], none)
      | some sp => (word :: (balancedPart fp sp).1, (balancedPart fp sp).2)

/-- The next word asks for a word that the packet does not have. -/
def AsksMore (data : List (BitVec 8)) (filter : List FilterWord) : Prop :=
  ∃ word, filter.head? = some word ∧ netfPushword ≤ netfArg word ∧
    data.length / 2 ≤ netfArg word - netfPushword

/-- On this packet the filter returns before a word that uses a cell above the stack. -/
def Leaves (cpu : Cpu) (data : List (BitVec 8)) (cells : ℕ → BitVec 32)
    (filter : List FilterWord) : Prop :=
  let part := (balancedPart filter netMaxFilter).1
  (∃ accept, filterLoop cpu data part (.start cells) = some (.ret accept)) ∨
    AsksMore data (filter.drop part.length)

/-- No word pops more than is on the stack, and a result is left. -/
def Balanced (filter : List FilterWord) : Prop :=
  ∃ sp ≤ netMaxFilter, (balancedPart filter netMaxFilter).2 = some sp

section
variable {cpu : Cpu} {data : List (BitVec 8)} {s : Stack} {op sp sp' p p' : ℕ}
  {filter : List FilterWord}

theorem parseOp_low (hp : parseOp op p = some p') : 2 ≤ p := by
  unfold parseOp at hp
  split_ifs at hp <;> omega

theorem operate_spec (cpu : Cpu) (arg : BitVec 32) (hp : parseOp op p = some p') (hs : p + 1 ≤ s.sp)
    (hmax : s.sp ≤ netMaxFilter + 1) :
    match pointerOp op s.sp with
    | none => operate cpu op arg s = none
    | some sp => p' ≤ sp ∧ sp ≤ netMaxFilter + 1 ∧ ((∃ b, operate cpu op arg s = some (.ret b)) ∨
        ∃ s', operate cpu op arg s = some (.next s') ∧ s'.sp = sp) := by
  unfold parseOp at hp
  split_ifs at hp with hlow hnop hhigh hop
  · -- only the argument is pushed
    obtain rfl := some.inj hp
    have hroom : 1 ≤ s.sp ∧ s.sp - 1 ≤ netMaxFilter := by omega
    simp only [pointerOp, operate, hnop, if_true, Stack.push, if_pos hroom, map_some]
    exact ⟨by omega, by omega, .inr ⟨_, rfl, rfl⟩⟩
  · obtain rfl := some.inj hp
    obtain ⟨o, ho⟩ := isSome_iff_exists.mp hop
    simp only [pointerOp, operate, if_neg hnop, ho]
    by_cases hsp : s.sp ≤ netMaxFilter
    · have htop : s.top = some (s.cells s.sp) := if_pos hsp
      rw [if_pos hsp]
      cases hdec : o.decides with
      | none =>
        simp only [htop, map_some, Option.isSome_none, Bool.false_eq_true, if_false]
        exact ⟨by omega, by omega, .inr ⟨_, rfl, rfl⟩⟩
      | some d =>
        simp only [Stack.pop, htop, map_some, Option.isSome_some, if_true]
        refine ⟨by omega, by omega, ?_⟩
        split_ifs
        · exact .inl ⟨_, rfl⟩
        · exact .inr ⟨_, rfl, rfl⟩
    · have htop : s.top = none := if_neg hsp
      rw [if_neg hsp]
      cases o.decides with
      | none => simp only [htop, map_none]
      | some d => simp only [Stack.pop, htop, map_none]

/-- An argument that the check lets through; a word of the packet is only read if it lies there. -/
theorem fetch_spec (cpu : Cpu) (data : List (BitVec 8)) {a : ℕ}
    (ha : ¬ (a ≠ netfNopush ∧ a ≠ netfPushzero ∧ a < netfPushword))
    (hlt : a < 1024) (hmax : s.sp ≤ netMaxFilter + 1) :
    match pointerArg a s.sp with
    | none => fetch cpu data a s = none ∧ a < netfPushword
    | some sp => s.sp ≤ sp ∧ sp ≤ netMaxFilter + 1 ∧ (a = netfNopush → sp = s.sp + 1) ∧
      ((∃ b, fetch cpu data a s = some (.ret b)) ∧ netfPushword ≤ a ∧
          data.length / 2 ≤ a - netfPushword ∨
        (∃ v s', fetch cpu data a s = some (.next (v, s')) ∧ s'.sp = sp) ∧
          ¬ (netfPushword ≤ a ∧ data.length / 2 ≤ a - netfPushword)) := by
  unfold pointerArg fetch
  have hword : netfPushword = 16 := rfl
  by_cases hno : a = netfNopush
  · have hzero : a ≠ netfPushzero := by rw [hno]; decide
    have hlow : a < netfPushword := by rw [hno]; decide
    rw [if_pos hno, if_neg hzero, if_pos hno]
    by_cases hsp : s.sp ≤ netMaxFilter
    · have htop : s.top = some (s.cells s.sp) := if_pos hsp
      simp only [if_pos hsp, Stack.pop, htop, map_some]
      exact ⟨by omega, by omega, fun _ => trivial, .inr ⟨⟨_, _, rfl, rfl⟩, by omega⟩⟩
    · have htop : s.top = none := if_neg hsp
      simp only [if_neg hsp, Stack.pop, htop, map_none]
      exact ⟨trivial, hlow⟩
  · rw [if_neg hno, if_neg hno]
    refine ⟨le_rfl, hmax, fun h => absurd h hno, ?_⟩
    by_cases hzero : a = netfPushzero
    · have hlow : a < netfPushword := by rw [hzero]; decide
      rw [if_pos hzero]
      exact .inr ⟨⟨_, _, rfl, rfl⟩, by omega⟩
    · have hpush : netfPushword ≤ a := by
        by_contra hlow
        exact ha ⟨hno, hzero, by omega⟩
      have hindex : (BitVec.ofNat 32 a - BitVec.ofNat 32 netfPushword).toNat =
          a - netfPushword := by
        rw [hword] at hpush ⊢
        simp only [BitVec.toNat_sub, BitVec.toNat_ofNat]
        omega
      rw [if_neg hzero]
      simp only [hindex]
      split_ifs with hin
      · have h₀ : 2 * (a - netfPushword) < data.length := by omega
        have h₁ : 2 * (a - netfPushword) + 1 < data.length := by omega
        simp only [Cpu.shortAt, getElem?_eq_getElem h₀, getElem?_eq_getElem h₁, map_some]
        exact .inr ⟨⟨_, _, rfl, rfl⟩, by omega⟩
      · exact .inl ⟨⟨_, rfl⟩, hpush, by omega⟩

/-- The end of a run, beside the part of the filter that uses the stack as it should. -/
def RunsTo (cpu : Cpu) (data : List (BitVec 8)) (filter : List FilterWord) (s : Stack)
    (part : List FilterWord × Option ℕ) : Prop :=
  match part.2 with
  | some sp => part.1 = filter ∧ ((∃ b, filterLoop cpu data filter s = some (.ret b)) ∨
      ∃ s', filterLoop cpu data filter s = some (.next s') ∧ s'.sp = sp)
  | none => (∃ b, filterLoop cpu data part.1 s = some (.ret b) ∧
      filterLoop cpu data filter s = some (.ret b)) ∨
    (∃ s', filterLoop cpu data part.1 s = some (.next s')) ∧
      ((∃ b, filterLoop cpu data filter s = some (.ret b)) ∧
          AsksMore data (filter.drop part.1.length) ∨
        filterLoop cpu data filter s = none ∧ ¬ AsksMore data (filter.drop part.1.length))

theorem RunsTo.turn {words fp : List FilterWord} {s' : Stack} {part : List FilterWord × Option ℕ}
    (h : RunsTo cpu data fp s' part)
    (hturn : ∀ fp, filterLoop cpu data (words ++ fp) s = filterLoop cpu data fp s') :
    RunsTo cpu data (words ++ fp) s (words ++ part.1, part.2) := by
  obtain ⟨q, last⟩ := part
  unfold RunsTo at h ⊢
  cases last with
  | some sp =>
    dsimp only at h ⊢
    rw [hturn, h.1]
    exact ⟨rfl, h.2⟩
  | none =>
    dsimp only at h ⊢
    rw [hturn, hturn, length_append, drop_append, drop_eq_nil_of_le (by omega),
      nil_append, Nat.add_sub_cancel_left]
    exact h

theorem RunsTo.ret {words fp : List FilterWord} {part : List FilterWord × Option ℕ} {b : Bool}
    (hwhole : ∀ sp, part.2 = some sp → part.1 = fp)
    (hturn : ∀ fp, filterLoop cpu data (words ++ fp) s = some (.ret b)) :
    RunsTo cpu data (words ++ fp) s (words ++ part.1, part.2) := by
  obtain ⟨q, last⟩ := part
  unfold RunsTo
  cases last with
  | some sp =>
    dsimp only at hwhole ⊢
    rw [hwhole sp rfl]
    exact ⟨rfl, .inl ⟨b, hturn fp⟩⟩
  | none => exact .inl ⟨b, hturn q, hturn fp⟩

theorem balancedPart_whole (n : ℕ) : ∀ {filter : List FilterWord} {sp last : ℕ},
    filter.length ≤ n → (balancedPart filter sp).2 = some last →
    (balancedPart filter sp).1 = filter := by
  induction n with
  | zero =>
    intro filter sp last hlen _
    rw [eq_nil_of_length_eq_zero (Nat.le_zero.mp hlen)]
    rfl
  | succ n ih =>
    intro filter sp last hlen h
    cases filter with
    | nil => rfl
    | cons word fp =>
      rw [length_cons] at hlen
      unfold balancedPart at h ⊢
      by_cases hlit : netfArg word = netfPushlit
      · rw [if_pos hlit] at h ⊢
        cases fp with
        | nil => cases h
        | cons lit fp =>
          rw [length_cons] at hlen
          dsimp only at h ⊢
          cases hop : pointerOp (netfOp word) sp with
          | none => simp [hop] at h
          | some sp' =>
            simp only [hop] at h ⊢
            rw [ih (by omega) h]
      · rw [if_neg hlit] at h ⊢
        cases hop : (pointerArg (netfArg word) sp).bind (pointerOp (netfOp word)) with
        | none => simp [hop] at h
        | some sp' =>
          simp only [hop] at h ⊢
          rw [ih (by omega) h]

theorem filterLoop_spec (cpu : Cpu) (data : List (BitVec 8)) (n : ℕ) :
    ∀ {filter : List FilterWord} {s : Stack} {p : ℕ}, filter.length ≤ n →
    parseFrom filter p = true → p ≤ s.sp → s.sp ≤ netMaxFilter + 1 →
    RunsTo cpu data filter s (balancedPart filter s.sp) := by
  induction n with
  | zero =>
    intro filter s p hlen _ _ _
    rw [eq_nil_of_length_eq_zero (Nat.le_zero.mp hlen)]
    exact ⟨rfl, .inr ⟨s, rfl, rfl⟩⟩
  | succ n ih =>
    intro filter s p hlen hparse hp hmax
    cases filter with
    | nil => exact ⟨rfl, .inr ⟨s, rfl, rfl⟩⟩
    | cons word fp =>
      rw [length_cons] at hlen
      unfold parseFrom at hparse
      unfold balancedPart
      by_cases hlit : netfArg word = netfPushlit
      · rw [if_pos hlit] at hparse ⊢
        cases fp with
        | nil => cases hparse
        | cons lit fp =>
          rw [length_cons] at hlen
          dsimp only at hparse ⊢
          have hloop : ∀ fp, filterLoop cpu data ([word, lit] ++ fp) s =
              match operate cpu (netfOp word) (lit.setWidth 32) s with
              | none => none
              | some (.ret accept) => some (.ret accept)
              | some (.next s) => filterLoop cpu data fp s := fun fp => by
            rw [cons_append, singleton_append, filterLoop.eq_def]
            simp only [if_pos hlit]
          cases hop : parseOp (netfOp word) (p - 1) with
          | none => simp [hop] at hparse
          | some p' =>
            have hlow := parseOp_low hop
            rw [hop] at hparse
            have hspec := operate_spec cpu (lit.setWidth 32) hop (s := s) (by omega) hmax
            have hmore : ¬ AsksMore data (word :: lit :: fp) := by
              rintro ⟨w, hw, hpush, -⟩
              cases hw
              rw [hlit] at hpush
              exact absurd hpush (by decide)
            cases hptr : pointerOp (netfOp word) s.sp with
            | none =>
              rw [hptr] at hspec
              exact .inr ⟨⟨s, rfl⟩, .inr ⟨(hloop fp).trans (by rw [hspec]), hmore⟩⟩
            | some sp =>
              rw [hptr] at hspec
              obtain ⟨hle, hmax', ⟨b, hret⟩ | ⟨s', hnext, rfl⟩⟩ := hspec
              · exact RunsTo.ret (fun _ h => balancedPart_whole _ le_rfl h)
                  (fun fp => (hloop fp).trans (by rw [hret]))
              · exact (ih (by omega) hparse hle hmax').turn
                  (fun fp => (hloop fp).trans (by rw [hnext]))
      · rw [if_neg hlit] at hparse ⊢
        dsimp only at hparse
        by_cases hbad : netfArg word ≠ netfNopush ∧ netfArg word ≠ netfPushzero ∧
            netfArg word < netfPushword
        · rw [if_pos hbad] at hparse
          cases hparse
        rw [if_neg hbad] at hparse
        have hloop : ∀ fp, filterLoop cpu data ([word] ++ fp) s =
            match fetch cpu data (netfArg word) s with
            | none => none
            | some (.ret accept) => some (.ret accept)
            | some (.next (arg, s)) =>
              match operate cpu (netfOp word) arg s with
              | none => none
              | some (.ret accept) => some (.ret accept)
              | some (.next s) => filterLoop cpu data fp s := fun fp => by
          rw [singleton_append, filterLoop.eq_def]
          simp only [if_neg hlit]
        have hmore : AsksMore data (word :: fp) ↔ netfPushword ≤ netfArg word ∧
            data.length / 2 ≤ netfArg word - netfPushword := by
          simp [AsksMore]
        have hfetch := fetch_spec cpu data hbad (Nat.mod_lt _ (by decide)) hmax
        cases harg : pointerArg (netfArg word) s.sp with
        | none =>
          rw [harg] at hfetch
          refine .inr ⟨⟨s, rfl⟩, .inr ⟨(hloop fp).trans (by rw [hfetch.1]), ?_⟩⟩
          change ¬ AsksMore data (word :: fp)
          rw [hmore]
          omega
        | some sp =>
          rw [harg] at hfetch
          rw [bind_some]
          obtain ⟨hle, hmax', hno, ⟨⟨b, hret⟩, habsent⟩ | ⟨⟨v, s', hnext, rfl⟩, hpresent⟩⟩ := hfetch
          · -- the packet has no such word, and the filter returns
            cases pointerOp (netfOp word) sp with
            | none =>
              exact .inr ⟨⟨s, rfl⟩, .inl ⟨⟨b, (hloop fp).trans (by rw [hret])⟩, hmore.mpr habsent⟩⟩
            | some sp =>
              exact RunsTo.ret (fun _ h => balancedPart_whole _ le_rfl h)
                (fun fp => (hloop fp).trans (by rw [hret]))
          · cases hop : parseOp (netfOp word) (if netfArg word = netfNopush then p else p - 1) with
            | none => simp [hop] at hparse
            | some p' =>
              rw [hop] at hparse
              have hlow := parseOp_low hop
              have hs' : (if netfArg word = netfNopush then p else p - 1) + 1 ≤ s'.sp := by
                split_ifs at hlow ⊢ with hnopush
                · rw [hno hnopush]
                  omega
                · omega
              have hspec := operate_spec cpu v hop hs' hmax'
              cases hptr : pointerOp (netfOp word) s'.sp with
              | none =>
                rw [hptr] at hspec
                exact .inr ⟨⟨s, rfl⟩,
                  .inr ⟨(hloop fp).trans (by rw [hnext]; simp only [hspec]), mt hmore.mp hpresent⟩⟩
              | some sp =>
                rw [hptr] at hspec
                obtain ⟨hle', hmax'', ⟨b, hret⟩ | ⟨t, hgo, rfl⟩⟩ := hspec
                · exact RunsTo.ret (b := b) (fun _ h => balancedPart_whole _ le_rfl h)
                    (fun fp => (hloop fp).trans (by rw [hnext]; simp only [hret]))
                · exact (ih (by omega) hparse hle' hmax'').turn
                    (fun fp => (hloop fp).trans (by rw [hnext]; simp only [hgo]))

theorem netDoFilter_isSome_iff (cpu : Cpu) (data : List (BitVec 8)) (cells : ℕ → BitVec 32)
    (h : parseNetFilter filter = true) : (netDoFilter cpu filter data cells).isSome ↔
      Balanced filter ∨ Leaves cpu data cells filter := by
  have hrun := filterLoop_spec cpu data filter.length (s := .start cells) le_rfl h le_rfl
    (Nat.le_succ _)
  unfold Balanced Leaves
  change RunsTo cpu data filter (.start cells) (balancedPart filter netMaxFilter) at hrun
  unfold netDoFilter
  unfold RunsTo at hrun
  cases hlast : (balancedPart filter netMaxFilter).2 with
  | some sp =>
    rw [hlast] at hrun
    obtain ⟨hwhole, ⟨b, hb⟩ | ⟨s', hs', rfl⟩⟩ := hrun
    · rw [hb]
      refine iff_of_true rfl (.inr (.inl ⟨b, ?_⟩))
      rw [hwhole]
      exact hb
    · rw [hs', hwhole]
      have htop : (s'.top.map fun v => decide (v ≠ 0)).isSome ↔ s'.sp ≤ netMaxFilter := by
        unfold Stack.top
        split_ifs with hsp <;> simp [hsp]
      refine htop.trans ⟨fun hsp => .inl ⟨_, hsp, rfl⟩, ?_⟩
      rintro (⟨sp, hsp, heq⟩ | ⟨b, hb⟩ | ⟨word, hword, -⟩)
      · rw [some.inj heq]
        exact hsp
      · rw [hs'] at hb
        cases hb
      · rw [drop_length] at hword
        cases hword
  | none =>
    rw [hlast] at hrun
    have hnot : ¬ ∃ sp ≤ netMaxFilter, (none : Option ℕ) = some sp := by simp
    rcases hrun with ⟨b, hpart, hb⟩ | ⟨⟨s', hpart⟩, ⟨⟨b, hb⟩, hmore⟩ | ⟨hnone, hmore⟩⟩
    · rw [hb]
      exact iff_of_true rfl (.inr (.inl ⟨b, hpart⟩))
    · rw [hb]
      exact iff_of_true rfl (.inr (.inr hmore))
    · rw [hnone]
      refine iff_of_false nofun ?_
      rintro (h | ⟨b, hb⟩ | h)
      · exact hnot h
      · rw [hpart] at hb
        cases hb
      · exact hmore h

theorem NetRcvPort.copyFilter_spec (p : NetRcvPort) (i : ℕ) (filter : List FilterWord)
    (hi : i ≤ netMaxFilter) :
    match p.copyFilter i filter with
    | none => netMaxFilter < i + filter.length
    | some q => i + filter.length ≤ netMaxFilter ∧ q.rcvPort = p.rcvPort ∧
      q.filterEnd = i + filter.length ∧ (∀ j < i, q.filter j = p.filter j) ∧
      ∀ j < filter.length, q.filter (i + j) = filter.getD j 0 := by
  induction filter generalizing p i with
  | nil =>
    simp [copyFilter]
    omega
  | cons word filter ih =>
    unfold copyFilter
    by_cases hroom : i < netMaxFilter
    · rw [if_pos hroom]
      have h := ih { p with filter := update p.filter i word } (i + 1) hroom
      cases hcopy : { p with filter := update p.filter i word }.copyFilter (i + 1) filter with
      | none =>
        rw [hcopy] at h
        rw [length_cons]
        dsimp only at h ⊢
        omega
      | some q =>
        rw [hcopy] at h
        obtain ⟨hfit, hport, hend, hbelow, hwords⟩ := h
        rw [length_cons]
        refine ⟨by omega, hport, by omega, fun j hj => ?_, fun j hj => ?_⟩
        · rw [hbelow j (by omega)]
          exact update_of_ne (by omega) _ _
        · cases j with
          | zero =>
            rw [Nat.add_zero, hbelow i (by omega)]
            simp
          | succ j =>
            rw [show i + (j + 1) = i + 1 + j by omega, hwords j (by omega)]
            simp
    · rw [if_neg hroom, length_cons]
      dsimp only
      omega

theorem mem_insertPriority (p : NetRcvPort) (l : List NetRcvPort) : p ∈ insertPriority p l := by
  induction l with
  | nil => exact mem_cons_self
  | cons next l ih =>
    unfold insertPriority
    split_ifs
    · exact mem_cons_self
    · exact mem_cons_of_mem _ ih

theorem NetRcvPort.copyFilter_words {p q : NetRcvPort} (h : p.copyFilter 0 filter = some q) :
    q.words = filter := by
  have hspec := p.copyFilter_spec 0 filter (Nat.zero_le _)
  rw [h] at hspec
  obtain ⟨-, -, hend, -, hwords⟩ := hspec
  rw [Nat.zero_add] at hend
  unfold words
  rw [hend]
  apply ext_getElem (by simp)
  intro i hi hi'
  have := hwords i hi'
  rw [Nat.zero_add] at this
  simp [this, hi']

theorem netSetFilter_spec (ifp : Ifnet) (others : Ifnet → Ifnet) (new : NetRcvPort) (rcvPort : ℕ)
    (priority : ℤ) (qlimit : ℕ) (h : parseNetFilter filter = true) :
    match netSetFilter ifp others new rcvPort priority filter qlimit with
    | none => netMaxFilter < filter.length
    | some (kr, ifp') => kr = .success ∧ filter.length ≤ netMaxFilter ∧
      ∃ p ∈ ifp'.rcvPortList, p.rcvPort = rcvPort ∧ p.words = filter := by
  unfold netSetFilter
  rw [if_neg (by simp [h])]
  dsimp only
  generalize (if (ifp.rcvPortList.find? fun p => decide (p.rcvPort = rcvPort)).isSome = true
    then ifp else others ifp) = ifp₁
  cases hfind : ifp₁.rcvPortList.find? fun p => decide (p.rcvPort = rcvPort) with
  | some infp =>
    have hport : infp.rcvPort = rcvPort := by simpa using find?_some hfind
    have hspec := { infp with priority := priority }.copyFilter_spec 0 filter (Nat.zero_le _)
    cases hcopy : { infp with priority := priority }.copyFilter 0 filter with
    | none =>
      rw [hcopy] at hspec
      simpa [hcopy] using hspec
    | some p =>
      rw [hcopy] at hspec
      simp only [hcopy]
      exact ⟨trivial, by omega, p, mem_insertPriority _ _, hspec.2.1.trans hport,
        NetRcvPort.copyFilter_words hcopy⟩
  | none =>
    have hspec := { new with
      rcvPort := rcvPort, rcvCount := 0, priority := priority }.copyFilter_spec 0 filter
      (Nat.zero_le _)
    cases hcopy : { new with rcvPort := rcvPort, rcvCount := 0, priority := priority }.copyFilter 0
      filter with
    | none =>
      rw [hcopy] at hspec
      simpa [hcopy] using hspec
    | some p =>
      rw [hcopy] at hspec
      dsimp only
      exact ⟨rfl, by omega, _, mem_insertPriority _ _, hspec.2.1,
        (NetRcvPort.copyFilter_words hcopy : p.words = filter)⟩

/-- The filter is stored inside the array, and runs on every packet within itself, the packet and
its stack. -/
def RunsSafely (cpu : Cpu) (ifp : Ifnet) (others : Ifnet → Ifnet) (new : NetRcvPort) (rcvPort : ℕ)
    (priority : ℤ) (filter : List FilterWord) (qlimit : ℕ) : Prop :=
  ∃ ifp', netSetFilter ifp others new rcvPort priority filter qlimit = some (.success, ifp') ∧
    ∃ p ∈ ifp'.rcvPortList, p.rcvPort = rcvPort ∧ p.words = filter ∧
      ∀ data cells, (netDoFilter cpu p.words data cells).isSome

/-- A filter that is accepted is safe exactly if it has at most `NET_MAX_FILTER` words and, on every
packet, returns before a word that pops more than is on the stack. -/
theorem netFilter_runsSafely_iff (cpu : Cpu) (ifp : Ifnet) (others : Ifnet → Ifnet)
    (new : NetRcvPort) (rcvPort : ℕ) (priority : ℤ) (filter : List FilterWord) (qlimit : ℕ)
    (h : parseNetFilter filter = true) :
    RunsSafely cpu ifp others new rcvPort priority filter qlimit ↔ filter.length ≤ netMaxFilter ∧
        ∀ data cells, Balanced filter ∨ Leaves cpu data cells filter := by
  have hset := netSetFilter_spec ifp others new rcvPort priority qlimit h
  have hrun := fun data cells => netDoFilter_isSome_iff cpu data cells h
  constructor
  · rintro ⟨ifp', heq, p, -, -, hwords, hall⟩
    rw [heq] at hset
    refine ⟨hset.2.1, fun data cells => (hrun data cells).mp ?_⟩
    rw [← hwords]
    exact hall data cells
  · rintro ⟨hlen, hall⟩
    cases heq : netSetFilter ifp others new rcvPort priority filter qlimit with
    | none =>
      rw [heq] at hset
      dsimp only at hset
      omega
    | some r =>
      obtain ⟨kr, ifp'⟩ := r
      rw [heq] at hset
      obtain ⟨rfl, -, p, hp, hport, hwords⟩ := hset
      refine ⟨ifp', heq, p, hp, hport, hwords, fun data cells => ?_⟩
      rw [hwords]
      exact (hrun data cells).mpr (hall data cells)

end

def i386 : Cpu where
  short a b := b ++ a
  shiftLeft v n := v <<< (n.toNat % 32)
  shiftRight v n := v.sshiftRight (n.toNat % 32)

def newPort : NetRcvPort := ⟨0, 0, 0, 0, 0, fun _ => 0⟩

/-- Packets whose second word is 0x800. -/
def typeFilter : List FilterWord := [0x0011, 0x0401, 0x0800]

theorem netFilter_runsSafely_typeFilter : RunsSafely i386 ⟨[], 0, 0⟩ id newPort 1 10 typeFilter 5 :=
  (netFilter_runsSafely_iff i386 ⟨[], 0, 0⟩ id newPort 1 10 typeFilter 5 (by decide)).mpr
    ⟨by decide, fun _ _ => .inl ⟨39, by decide, by decide⟩⟩

/-- Each `COR` pops a cell that the check does not count: after the second one the result is read
above the stack. -/
def popFilter : List FilterWord := [0x0002, 0x2401, 5, 0x2401, 5]

theorem netFilter_unsafe :
    (parseNetFilter popFilter = true ∧ netDoFilter i386 popFilter [] (fun _ => 0) = none) ∧
    parseNetFilter (List.replicate 41 0) = true ∧
      netSetFilter ⟨[], 0, 0⟩ id newPort 1 10 (List.replicate 41 0) 5 = none := by
  refine ⟨⟨by decide, by decide⟩, ?_, ?_⟩
  · decide +kernel
  · decide +kernel

end MachKernel.Device
