import Mathlib.Data.BitVec
import Mathlib.Tactic

/-! A memory manager supplies data (`memory_object_data_supply` of `vm/memory_object.c`): the pages
of a page list copy, and of those that its continuations make, become pages of the object. -/

namespace MachKernel.Vm.DataSupply
open Function Option List

abbrev Offset := BitVec 32

inductive KernReturn
  | success
  | invalidArgument
  | memoryPresent
  | failed (kr : ℕ)
  deriving DecidableEq

/-- A page of the object that has its data. -/
structure Resident where
  page : ℕ
  pageLock : BitVec 32
  precious : Bool
  active : Bool
  deriving DecidableEq

/-- The page of the object where the data goes, as the routine finds it. -/
inductive Target
  | nothing
  -- absent and busy
  | requested
  | resident (m : Resident)
  -- busy, and what there is after the wait
  | busy (next : Target)
  deriving DecidableEq

/-- What a copy continues with: `vm_map_copyin_page_list_cont`, when it only destroys the source,
when it fails, and when it makes a new page list. -/
inductive Cont
  | none
  | destroys
  | fails (kr : ℕ)
  | next (pages : List ℕ) (cont : Cont)
  deriving DecidableEq

structure Object where
  pagingOffset : Offset
  page : Offset → Target

/-- A call, from outside the copy object's zone: the copy is its page list and continuation. -/
structure Call where
  object : Option Object
  offset : Offset
  dataCopy : Option (List ℕ × Cont)
  dataCnt : ℕ
  lockValue : BitVec 32
  precious : Bool
  -- `IP_VALID (reply_to)`
  replyTo : Bool

structure Completion where
  offset : Offset
  length : ℕ
  result : KernReturn
  errorOffset : Offset
  deriving DecidableEq

/-- The variables of the loop. Copies are numbered, as they are made. -/
structure Supply where
  page : Offset → Target
  offset : Offset
  dataCopy : Option (ℕ × Cont)
  pageList : List ℕ
  origCopy : Option ℕ
  discarded : List ℕ
  copies : ℕ

/-- How the loop ends. -/
inductive Stop
  | nullCopy
  | badPage
  | leaves (s : Supply) (result : KernReturn) (errorOffset : Offset)

inductive Outcome
  | nullCopy
  | badPage
  | returns (kr : KernReturn) (page : Offset → Target) (completed : List Completion)
      (discarded : List ℕ) (copies : ℕ)

variable (pageSize : ℕ)

/-- The lookup, and the wait for a busy page. -/
def Target.retryLookup : Target → Target
  | .busy next => next.retryLookup
  | t => t

/-- A copy whose pages are used up makes way for the next. -/
def Supply.retire (s : Supply) (copy : ℕ) : Supply :=
  match s.origCopy with
  | none => { s with origCopy := some copy }
  | some _ => { s with discarded := s.discarded ++ [copy] }

/-- The loop, for a number of pages. -/
def supplyLoop (pagingOffset : Offset) (lockValue : BitVec 32) (precious : Bool) : ℕ → Supply → Stop
  | 0, s => .leaves s .success 0
  | n + 1, s =>
    match s.dataCopy, s.pageList with
    | none, _ => .nullCopy
    | some _, [] => .badPage
    | some (copy, cont), m :: pages =>
      match (s.page s.offset).retryLookup with
      | .resident r =>
        .leaves { s with page := update s.page s.offset (.resident r) } .memoryPresent
          (s.offset + pagingOffset)
      | t =>
        let s := { s with
          page := update s.page s.offset (.resident ⟨m, lockValue, precious, t = Target.requested⟩)
          pageList := pages }
        match pages, cont with
        | [], .fails kr =>
          .leaves { s with dataCopy := some (copy, .none) } (.failed kr)
            (s.offset + pagingOffset + BitVec.ofNat 32 pageSize)
        | [], .destroys =>
          supplyLoop pagingOffset lockValue precious n
            { s.retire copy with
              dataCopy := none
              offset := s.offset + BitVec.ofNat 32 pageSize }
        | [], .next pages cont =>
          supplyLoop pagingOffset lockValue precious n
            { s.retire copy with
              dataCopy := some (s.copies, cont)
              pageList := pages
              copies := s.copies + 1
              offset := s.offset + BitVec.ofNat 32 pageSize }
        | _, _ =>
          supplyLoop pagingOffset lockValue precious n
            { s with offset := s.offset + BitVec.ofNat 32 pageSize }

def vmProtAll : BitVec 32 := 7

/-- `memory_object_data_supply` -/
def memoryObjectDataSupply (c : Call) : Outcome :=
  match c.object with
  | none => .returns .invalidArgument (fun _ => .nothing) [] [] (if c.dataCopy = none then 0 else 1)
  | some object =>
    if c.lockValue &&& ~~~vmProtAll ≠ 0 ∨ c.dataCnt % pageSize ≠ 0 then
      .returns .invalidArgument object.page [] [] (if c.dataCopy = none then 0 else 1)
    else
      let s : Supply := {
        page := object.page
        offset := c.offset - object.pagingOffset
        dataCopy := c.dataCopy.map fun d => (0, d.2)
        pageList := (c.dataCopy.map Prod.fst).getD []
        origCopy := none
        discarded := []
        copies := if c.dataCopy = none then 0 else 1 }
      match supplyLoop pageSize object.pagingOffset c.lockValue c.precious
          (c.dataCnt / pageSize) s with
      | .nullCopy => .nullCopy
      | .badPage => .badPage
      | .leaves s result errorOffset =>
        match s.dataCopy with
        -- `vm_map_copy_has_cont`
        | none => .nullCopy
        | some (copy, cont) =>
          -- `vm_map_copy_abort_cont` gives the continuation `VM_MAP_COPY_NULL` to store through
          if cont ≠ .none then .nullCopy
          else
            let completed := if c.replyTo then [⟨c.offset, c.dataCnt, result, errorOffset⟩] else []
            let discarded := s.discarded ++ (if s.origCopy ≠ some copy then [copy] else [])
            let discarded := discarded ++ (if result = .success then s.origCopy.toList else [])
            .returns result s.page completed discarded s.copies

/-- The copy that `ipc_kobject_server` destroys with the request, which is intact after an error. -/
def ipcKobjectServer (c : Call) (kr : KernReturn) : List ℕ :=
  if kr = .success ∨ c.dataCopy = none then [] else [0]

/-! ## What the call should do -/

/-- The pages of a continuation, with those that it leads to. -/
def Cont.pages : Cont → List ℕ
  | .next pages cont => pages ++ cont.pages
  | _ => []

def Cont.error : Cont → Option ℕ
  | .fails kr => some kr
  | .next _ cont => cont.error
  | _ => Option.none

/-- A page list and its continuation hold a number of pages, unless a continuation fails. -/
def Cont.Holds : Cont → ℕ → List ℕ → Prop
  | .fails _, n, pages => pages = [] → n = 0
  | .next pages' cont, n, pages => (pages = [] → n = 0) ∧
      (pages.length < n → cont.Holds (n - pages.length) pages')
  | _, n, pages => n ≤ pages.length

namespace Call

variable (c : Call)

def pageCount : ℕ := c.dataCnt / pageSize

/-- The copy holds the data that the request names. -/
def Holds : Prop :=
  match c.dataCopy with
  | none => c.dataCnt = 0
  | some (pages, cont) => cont.Holds (c.pageCount pageSize) pages

def Valid (object : Object) : Prop :=
  c.object = some object ∧ c.lockValue &&& ~~~vmProtAll = 0 ∧ c.dataCnt % pageSize = 0

def pages : List ℕ :=
  match c.dataCopy with
  | none => []
  | some (pages, cont) => pages ++ cont.pages

/-- Where a page goes. -/
def target (object : Object) (i : ℕ) : Offset :=
  c.offset - object.pagingOffset + BitVec.ofNat 32 (i * pageSize)

def found (object : Object) (i : ℕ) : Target :=
  (object.page (c.target pageSize object i)).retryLookup

/-- There is a page already. -/
def Conflict (object : Object) (i : ℕ) : Prop := ∃ r, c.found pageSize object i = .resident r

/-- The first page that is not taken, and why. -/
def Stops (object : Object) (t : ℕ) : KernReturn → Prop
  | .success => t = c.pageCount pageSize
  | .memoryPresent => t < c.pageCount pageSize ∧ c.Conflict pageSize object t
  | .failed kr => t = c.pages.length ∧ ∃ d ∈ c.dataCopy, d.2.error = some kr
  | .invalidArgument => False

/-- The pages before one are those of the copy, in order. -/
structure Taken (object : Object) (t : ℕ) (page : Offset → Target) : Prop where
  free : ∀ i < t, ¬c.Conflict pageSize object i
  taken : ∀ i < t, ∃ m, c.pages[i]? = some m ∧ page (c.target pageSize object i) =
    .resident ⟨m, c.lockValue, c.precious, c.found pageSize object i = .requested⟩

/-- The other pages are as they were, but that the next may have been waited for. -/
structure Supplied (object : Object) (t : ℕ) (page : Offset → Target) : Prop extends
    c.Taken pageSize object t page where
  others : ∀ o, (∀ i < t, o ≠ c.target pageSize object i) → page o = object.page o ∨
    o = c.target pageSize object t ∧ page o = c.found pageSize object t

/-- The call returns, and what it has done is right; the copies are released once, by it or with
the request. -/
def Right : Outcome → Prop
  | .returns kr page completed discarded copies =>
    (∀ i, (discarded ++ ipcKobjectServer c kr).count i = if i < copies then 1 else 0) ∧
    ((kr = .invalidArgument ∧ (∀ object, ¬c.Valid pageSize object) ∧
        (∀ object ∈ c.object, page = object.page) ∧ completed.length = if c.replyTo then 1 else 0) ∨
      ∃ object t, c.Valid pageSize object ∧ c.Stops pageSize object t kr ∧
        c.Supplied pageSize object t page ∧
        completed = if c.replyTo then [⟨c.offset, c.dataCnt, kr,
          if kr = .success then 0 else c.offset + BitVec.ofNat 32 (t * pageSize)⟩] else [])
  | _ => False

end Call

/-! The condition. -/

/-- The next pages of a list cannot all be taken. -/
def Stuck (conflict : ℕ → Prop) (i n : ℕ) (pages : List ℕ) : Prop :=
  ∃ j < n, j < pages.length ∧ conflict (i + j)

/-- The continuations are used up to a list that has none, and if it comes to an error this is not
in the first list. -/
def Cont.Good (conflict : ℕ → Prop) : Cont → Bool → ℕ → ℕ → List ℕ → Prop
  | .none, first, i, n, pages => Stuck conflict i n pages → first = false
  | .destroys, _, _, _, _ => False
  | .fails _, first, i, n, pages => ¬Stuck conflict i n pages ∧ 0 < n ∧ pages.length ≤ n ∧
      first = false
  | .next pages' cont, _, i, n, pages => ¬Stuck conflict i n pages ∧ 0 < n ∧ pages.length ≤ n ∧
      cont.Good conflict false (i + pages.length) (n - pages.length) pages'

/-- A bad call asks for no reply, and another call has a good copy. -/
def Call.Good (c : Call) : Prop :=
  ((∀ object, ¬c.Valid pageSize object) → c.replyTo = false) ∧
    ∀ object, c.Valid pageSize object → ∃ d ∈ c.dataCopy,
      d.2.Good (c.Conflict pageSize object) true 0 (c.pageCount pageSize) d.1

/-! ## The loop -/

section Loop

variable {pageSize} {c : Call} {object : Object}

/-- The state of the loop after a number of pages. -/
structure Running (pageSize : ℕ) (c : Call) (object : Object) (i : ℕ) (copy : ℕ) (cont : Cont)
    (s : Supply) : Prop where
  offset : s.offset = c.target pageSize object i
  taken : c.Taken pageSize object i s.page
  untouched : ∀ o, (∀ j < i, o ≠ c.target pageSize object j) → s.page o = object.page o
  dataCopy : s.dataCopy = some (copy, cont)
  pages : c.pages.drop i = s.pageList ++ cont.pages
  error : ∀ d ∈ c.dataCopy, d.2.error = cont.error
  hasCopy : c.dataCopy ≠ none
  copies : s.copies = copy + 1
  origCopy : s.origCopy = if copy = 0 then none else some 0
  discarded : s.discarded = List.range' 1 (copy - 1)

/-- The loop ends as it should. -/
def Stop.Clean : Stop → Prop
  | .leaves s result _ => ∃ copy, s.dataCopy = some (copy, .none) ∧
      (result = .success ∨ s.origCopy ≠ none)
  | _ => False

/-- What the loop leaves. -/
def Stop.Leaves (pageSize : ℕ) (c : Call) (object : Object) : Stop → Prop
  | .leaves s result errorOffset =>
    (∃ t, c.Stops pageSize object t result ∧ c.Supplied pageSize object t s.page ∧
      errorOffset = if result = .success then 0 else c.offset + BitVec.ofNat 32 (t * pageSize)) ∧
    ∀ copy cont, s.dataCopy = some (copy, cont) → s.copies = copy + 1 ∧
      s.origCopy = (if copy = 0 then none else some 0) ∧ s.discarded = List.range' 1 (copy - 1)
  | _ => True

theorem target_ne (hsize : 0 < pageSize) {i j : ℕ} (hij : i ≠ j) (hi : i * pageSize < 2 ^ 32)
    (hj : j * pageSize < 2 ^ 32) : c.target pageSize object i ≠ c.target pageSize object j := by
  intro h
  have h' := add_left_cancel h
  have := congrArg BitVec.toNat h'
  rw [BitVec.toNat_ofNat, BitVec.toNat_ofNat, Nat.mod_eq_of_lt hi, Nat.mod_eq_of_lt hj] at this
  exact hij (Nat.eq_of_mul_eq_mul_right hsize this)

variable {conflict : ℕ → Prop} {pages : List ℕ}

theorem stuck_cons {i n m : ℕ} (h : ¬conflict i) :
    Stuck conflict i (n + 1) (m :: pages) ↔ Stuck conflict (i + 1) n pages := by
  constructor
  · rintro ⟨j, hj, hlen, hc⟩
    cases j with
    | zero => exact absurd hc h
    | succ j =>
      refine ⟨j, by omega, by simpa using hlen, ?_⟩
      rwa [Nat.add_assoc, Nat.add_comm 1 j]
  · rintro ⟨j, hj, hlen, hc⟩
    refine ⟨j + 1, by omega, by simpa using hlen, ?_⟩
    rwa [Nat.add_comm j 1, ← Nat.add_assoc]

theorem not_stuck_nil (conflict : ℕ → Prop) (i n : ℕ) : ¬Stuck conflict i n [] := by
  rintro ⟨j, -, hlen, -⟩
  exact absurd hlen (Nat.not_lt_zero j)

theorem good_cons {cont : Cont} {first : Bool} {i n m : ℕ}
    (h : ¬conflict i) (hpages : pages ≠ [] ∨ cont = .none) :
    cont.Good conflict first i (n + 1) (m :: pages) ↔ cont.Good conflict first (i + 1) n pages := by
  cases cont with
  | none => simp only [Cont.Good, stuck_cons h]
  | destroys => rfl
  | fails kr =>
    have hlen := length_pos_iff.2 (hpages.resolve_right nofun)
    simp only [Cont.Good, stuck_cons h, length_cons]
    constructor
    · rintro ⟨h1, -, h3, h4⟩
      exact ⟨h1, by omega, by omega, h4⟩
    · rintro ⟨h1, h2, h3, h4⟩
      exact ⟨h1, by omega, by omega, h4⟩
  | next pages' cont =>
    have hlen := length_pos_iff.2 (hpages.resolve_right nofun)
    simp only [Cont.Good, stuck_cons h, length_cons]
    rw [show i + (pages.length + 1) = i + 1 + pages.length by omega,
      show n + 1 - (pages.length + 1) = n - pages.length by omega]
    constructor
    · rintro ⟨h1, -, h3, h4⟩
      exact ⟨h1, by omega, by omega, h4⟩
    · rintro ⟨h1, h2, h3, h4⟩
      exact ⟨h1, by omega, by omega, h4⟩

theorem holds_zero (cont : Cont) (pages : List ℕ) : cont.Holds 0 pages := by
  cases cont with
  | none | destroys => exact Nat.zero_le _
  | fails kr => exact fun _ => rfl
  | next pages' cont => exact ⟨fun _ => rfl, fun h => absurd h (Nat.not_lt_zero _)⟩

theorem holds_cons {cont : Cont} {n m : ℕ} (h : cont.Holds (n + 1) (m :: pages))
    (hpages : pages ≠ [] ∨ cont = .none) : cont.Holds n pages := by
  cases cont with
  | none | destroys => exact Nat.le_of_succ_le_succ h
  | fails kr => exact fun hnil => absurd hnil (hpages.resolve_right nofun)
  | next pages' cont =>
    refine ⟨fun hnil => absurd hnil (hpages.resolve_right nofun), fun hlen => ?_⟩
    have := h.2 (by simpa using hlen)
    rwa [length_cons, show n + 1 - (pages.length + 1) = n - pages.length by omega] at this

variable {i n copy : ℕ} {cont : Cont} {s : Supply}

theorem Running.supplied (h : Running pageSize c object i copy cont s) :
    c.Supplied pageSize object i s.page :=
  { h.taken with others := fun o ho => Or.inl (h.untouched o ho) }

theorem Running.account {s' : Supply} {cont₁ : Cont} (h : Running pageSize c object i copy cont s)
    (hcopy : s'.dataCopy = some (copy, cont₁)) (hcopies : s'.copies = s.copies)
    (horig : s'.origCopy = s.origCopy) (hdiscarded : s'.discarded = s.discarded) :
    ∀ copy' cont', s'.dataCopy = some (copy', cont') → s'.copies = copy' + 1 ∧
      s'.origCopy = (if copy' = 0 then none else some 0) ∧
      s'.discarded = List.range' 1 (copy' - 1) := by
  intro copy' cont' hcopy'
  obtain ⟨rfl, -⟩ := Prod.mk.inj (some.inj (hcopy.symm.trans hcopy'))
  exact ⟨hcopies.trans h.copies, horig.trans h.origCopy, hdiscarded.trans h.discarded⟩

theorem Running.origCopy_ne (h : Running pageSize c object i copy cont s) :
    s.origCopy ≠ none ↔ copy ≠ 0 := by
  rw [h.origCopy]
  by_cases hcopy : copy = 0 <;> simp [hcopy]

theorem retire_page (s : Supply) (copy : ℕ) : (s.retire copy).page = s.page := by
  rw [Supply.retire]
  split <;> rfl

theorem Running.retire (h : Running pageSize c object i copy cont s) (s' : Supply)
    (horig : s'.origCopy = s.origCopy) (hdiscarded : s'.discarded = s.discarded) :
    (s'.retire copy).origCopy = some 0 ∧ (s'.retire copy).discarded = List.range' 1 copy := by
  rw [Supply.retire, horig, h.origCopy]
  cases copy with
  | zero => exact ⟨rfl, hdiscarded.trans h.discarded⟩
  | succ copy =>
    refine ⟨rfl, ?_⟩
    change s'.discarded ++ [copy + 1] = _
    rw [hdiscarded, h.discarded, range'_concat, Nat.add_sub_cancel, Nat.add_comm 1,
      Nat.one_mul]

theorem target_succ (c : Call) (object : Object) (i : ℕ) :
    c.target pageSize object (i + 1) = c.target pageSize object i + BitVec.ofNat 32 pageSize := by
  rw [Call.target, Call.target, add_assoc, Nat.succ_mul, BitVec.ofNat_add]

theorem target_paging (c : Call) (object : Object) (i : ℕ) :
    c.target pageSize object i + object.pagingOffset =
      c.offset + BitVec.ofNat 32 (i * pageSize) := by
  rw [Call.target]
  ring

section Bounded

variable (hsize : 0 < pageSize) (hcnt : c.dataCnt < 2 ^ 32)
include hsize hcnt

theorem target_ne_of_le {j : ℕ} (hi : i ≤ c.pageCount pageSize) (hj : j ≤ c.pageCount pageSize)
    (hij : i ≠ j) : c.target pageSize object i ≠ c.target pageSize object j := by
  have hle : ∀ k ≤ c.pageCount pageSize, k * pageSize < 2 ^ 32 := fun k hk =>
    (Nat.mul_le_mul_right pageSize hk).trans_lt
      ((Nat.div_mul_le_self c.dataCnt pageSize).trans_lt hcnt)
  exact target_ne hsize hij (hle i hi) (hle j hj)

theorem Running.finds (h : Running pageSize c object i copy cont s)
    (hi : i ≤ c.pageCount pageSize) :
    (s.page s.offset).retryLookup = c.found pageSize object i := by
  rw [Call.found, h.offset, h.untouched]
  exact fun j hj => target_ne_of_le hsize hcnt hi (by omega) (by omega)

variable {m : ℕ} {pages : List ℕ} {s' : Supply}

theorem Running.insert {page : Offset → Target}
    (h : Running pageSize c object i copy cont s) (hi : i < c.pageCount pageSize)
    (hlist : s.pageList = m :: pages) (hfree : ¬c.Conflict pageSize object i)
    (hpage : page = update s.page s.offset (.resident ⟨m, c.lockValue, c.precious,
      c.found pageSize object i = .requested⟩)) : c.Taken pageSize object (i + 1) page ∧
      (∀ o, (∀ j < i + 1, o ≠ c.target pageSize object j) → page o = object.page o) ∧
      c.pages.drop (i + 1) = pages ++ cont.pages := by
  have hdrop := h.pages
  rw [hlist, cons_append] at hdrop
  refine ⟨⟨fun j hj => ?_, fun j hj => ?_⟩, fun o ho => ?_, ?_⟩
  · rcases Nat.lt_succ_iff_lt_or_eq.1 hj with hj | rfl
    · exact h.taken.free j hj
    · exact hfree
  · rw [hpage]
    rcases Nat.lt_succ_iff_lt_or_eq.1 hj with hj | rfl
    · obtain ⟨m', hm', hpage'⟩ := h.taken.taken j hj
      refine ⟨m', hm', ?_⟩
      rwa [h.offset, update_of_ne (target_ne_of_le hsize hcnt (by omega) (by omega) (by omega))]
    · refine ⟨m, ?_, by rw [h.offset, update_self]⟩
      rw [← head?_drop, hdrop]
      rfl
  · rw [hpage, h.offset, update_of_ne (ho i (Nat.lt_succ_self i))]
    exact h.untouched o fun j hj => ho j (Nat.lt_succ_of_lt hj)
  · rw [← drop_drop, hdrop]
    rfl

theorem Running.rest (h : Running pageSize c object i copy cont s) (hi : i < c.pageCount pageSize)
    (hlist : s.pageList = m :: pages) (hfree : ¬c.Conflict pageSize object i)
    (hs' : s' = { s with
      page := update s.page s.offset (.resident ⟨m, c.lockValue, c.precious,
        c.found pageSize object i = .requested⟩)
      offset := s.offset + BitVec.ofNat 32 pageSize
      dataCopy := some (copy, cont)
      pageList := pages }) :
    Running pageSize c object (i + 1) copy cont s' := by
  subst hs'
  obtain ⟨htaken, huntouched, hdrop⟩ := h.insert hsize hcnt hi hlist hfree rfl
  exact { h with
    offset := by rw [target_succ, h.offset]
    taken := htaken
    untouched := huntouched
    dataCopy := rfl
    pages := hdrop }

theorem Running.nextList (h : Running pageSize c object i copy (.next pages cont) s)
    (hi : i < c.pageCount pageSize)
    (hlist : s.pageList = [m]) (hfree : ¬c.Conflict pageSize object i)
    (hs' : s' = { s with
      page := update s.page s.offset (.resident ⟨m, c.lockValue, c.precious,
        c.found pageSize object i = .requested⟩)
      dataCopy := some (copy, .next pages cont)
      pageList := [] }) :
    Running pageSize c object (i + 1) s.copies cont
      { s'.retire copy with
        dataCopy := some (s.copies, cont)
        pageList := pages
        copies := s.copies + 1
        offset := s.offset + BitVec.ofNat 32 pageSize } := by
  subst hs'
  obtain ⟨htaken, huntouched, hdrop⟩ := h.insert hsize hcnt hi hlist hfree rfl
  obtain ⟨horig, hdiscarded⟩ := h.retire { s with
    page := update s.page s.offset (.resident ⟨m, c.lockValue, c.precious,
      c.found pageSize object i = .requested⟩)
    dataCopy := some (copy, .next pages cont)
    pageList := [] } rfl rfl
  have hcopy : s.copies ≠ 0 := by rw [h.copies]; exact Nat.succ_ne_zero copy
  exact {
    offset := by rw [target_succ, h.offset]
    taken := by rw [retire_page]; exact htaken
    untouched := by rw [retire_page]; exact huntouched
    dataCopy := rfl
    pages := hdrop
    error := h.error
    hasCopy := h.hasCopy
    copies := rfl
    origCopy := by rw [if_neg hcopy]; exact horig
    discarded := hdiscarded.trans (by rw [h.copies, Nat.add_sub_cancel]) }

theorem loop_spec (h : Running pageSize c object i copy cont s)
    (hn : i + n = c.pageCount pageSize) (hholds : cont.Holds n s.pageList) :
    (supplyLoop pageSize object.pagingOffset c.lockValue c.precious n s).Leaves pageSize c object ∧
      ((supplyLoop pageSize object.pagingOffset c.lockValue c.precious n s).Clean ↔
        cont.Good (c.Conflict pageSize object) (copy = 0) i n s.pageList) := by
  induction n generalizing i copy cont s with
  | zero =>
    rw [supplyLoop]
    refine ⟨⟨⟨i, hn, h.supplied, rfl⟩, h.account h.dataCopy rfl rfl rfl⟩, ?_⟩
    simp only [Stop.Clean, h.dataCopy, true_or, and_true]
    constructor
    · rintro ⟨copy', hcopy⟩
      obtain ⟨rfl, rfl⟩ := Prod.mk.inj (some.inj hcopy)
      rintro ⟨j, hj, -⟩
      exact absurd hj (Nat.not_lt_zero j)
    · intro hgood
      cases cont with
      | none => exact ⟨copy, rfl⟩
      | destroys => exact hgood.elim
      | fails kr => exact absurd hgood.2.1 (Nat.lt_irrefl 0)
      | next pages cont => exact absurd hgood.2.1 (Nat.lt_irrefl 0)
  | succ n ih =>
    cases hlist : s.pageList with
    | nil =>
      rw [hlist] at hholds
      cases cont with
      | none | destroys => exact absurd hholds (Nat.not_succ_le_zero n)
      | fails kr => exact absurd (hholds rfl) (Nat.succ_ne_zero n)
      | next pages cont => exact absurd (hholds.1 rfl) (Nat.succ_ne_zero n)
    | cons m pages =>
      rw [hlist] at hholds
      have hi : i < c.pageCount pageSize := by omega
      have hfinds := h.finds hsize hcnt (Nat.le_of_lt hi)
      rw [supplyLoop]
      simp only [h.dataCopy, hlist]
      split
      · -- there is a page
        rename_i r hr
        have hconflict : c.Conflict pageSize object i := ⟨r, hfinds.symm.trans hr⟩
        have hstuck : Stuck (c.Conflict pageSize object) i (n + 1) (m :: pages) :=
          ⟨0, Nat.succ_pos n, Nat.succ_pos _, hconflict⟩
        refine ⟨⟨⟨i, ⟨hi, hconflict⟩, ⟨⟨h.taken.free, fun j hj => ?_⟩, fun o ho => ?_⟩, ?_⟩, ?_⟩,
          ?_⟩
        · obtain ⟨m', hm', hpage⟩ := h.taken.taken j hj
          refine ⟨m', hm', ?_⟩
          simp only
          rwa [h.offset, update_of_ne (target_ne_of_le hsize hcnt (by omega) (by omega) (by omega))]
        · by_cases hoi : o = c.target pageSize object i
          · refine Or.inr ⟨hoi, ?_⟩
            simp only
            rw [h.offset, hoi, update_self, ← hfinds, hr]
          · refine Or.inl ?_
            simp only
            rw [h.offset, update_of_ne hoi]
            exact h.untouched o ho
        · rw [h.offset, target_paging]
          rfl
        · exact h.account rfl rfl rfl rfl
        · simp only [Stop.Clean, reduceCtorEq, false_or]
          have horig := h.origCopy_ne
          cases cont with
          | none => simp [Cont.Good, hstuck, horig]
          | destroys => simp [Cont.Good]
          | fails kr => simp [Cont.Good, hstuck]
          | next pages' cont => simp [Cont.Good, hstuck]
      · rename_i hnot
        have hfree : ¬c.Conflict pageSize object i := fun ⟨r, hr⟩ =>
          hnot r (hfinds.trans hr)
        rw [hfinds]
        obtain ⟨htaken, huntouched, hdrop⟩ := h.insert hsize hcnt hi hlist hfree rfl
        have hstuck : ¬Stuck (c.Conflict pageSize object) i (n + 1) [m] := by
          rw [stuck_cons hfree]
          exact not_stuck_nil _ _ _
        by_cases hlast : pages = [] ∧ cont ≠ .none
        · obtain ⟨rfl, hcont⟩ := hlast
          cases cont with
          | none => exact absurd rfl hcont
          | fails kr =>
            have hlen : c.pages.length = i + 1 := by
              have hnil := drop_eq_nil_iff.1 hdrop
              have hcons := congrArg List.length h.pages
              rw [hlist, length_drop] at hcons
              simp only [length_append, length_cons, length_nil] at hcons
              omega
            refine ⟨⟨⟨i + 1, ⟨hlen.symm, ?_⟩, ⟨htaken, fun o ho => Or.inl (huntouched o ho)⟩,
              ?_⟩, ?_⟩, ?_⟩
            · obtain ⟨d, hd⟩ := ne_none_iff_exists'.1 h.hasCopy
              exact ⟨d, hd, h.error d hd⟩
            · rw [h.offset, if_neg nofun, ← target_paging c object, target_succ]
              ring
            · exact h.account rfl rfl rfl rfl
            · simp only [Stop.Clean, reduceCtorEq, false_or]
              have horig := h.origCopy_ne
              simp [Cont.Good, hstuck, horig]
          | destroys =>
            have hn0 : n = 0 := Nat.le_zero.1 (Nat.le_of_succ_le_succ hholds)
            subst hn0
            rw [supplyLoop]
            refine ⟨⟨⟨i + 1, hn, ?_, rfl⟩, nofun⟩, ?_⟩
            · rw [retire_page]
              exact ⟨htaken, fun o ho => Or.inl (huntouched o ho)⟩
            · simp [Stop.Clean, Cont.Good]
          | next pages' cont =>
            have hnext := h.nextList hsize hcnt hi hlist hfree rfl
            have hholds' : cont.Holds n pages' := by
              cases n with
              | zero => exact holds_zero _ _
              | succ n => exact hholds.2 (by simp)
            obtain ⟨hleaves, hclean⟩ := ih hnext (by omega) hholds'
            have hcopy : s.copies ≠ 0 := by rw [h.copies]; exact Nat.succ_ne_zero copy
            refine ⟨hleaves, hclean.trans ?_⟩
            simp [Cont.Good, hstuck, hcopy]
        · have hpages : pages ≠ [] ∨ cont = .none := by tauto
          have hrest := h.rest hsize hcnt hi hlist hfree rfl
          obtain ⟨hleaves, hclean⟩ := ih hrest (by omega) (holds_cons hholds hpages)
          rw [good_cons hfree hpages]
          cases cont with
          | none => cases pages <;> exact ⟨hleaves, hclean⟩
          | _ =>
            obtain ⟨m', pages', rfl⟩ := exists_cons_of_ne_nil (hpages.resolve_right nofun)
            exact ⟨hleaves, hclean⟩

end Bounded

end Loop

/-! ## The call -/

section Call

variable {pageSize} {c : Call}

variable {copy : ℕ} {object : Object}

theorem released_once {kr : KernReturn} {orig : Option ℕ} (hcopy : c.dataCopy ≠ none)
    (horig : orig = if copy = 0 then none else some 0) :
    (∀ i, (List.range' 1 (copy - 1) ++ (if orig ≠ some copy then [copy] else []) ++
        (if kr = .success then orig.toList else []) ++ ipcKobjectServer c kr).count i =
      if i < copy + 1 then 1 else 0) ↔ kr = .success ∨ orig ≠ none := by
  subst horig
  simp only [ipcKobjectServer, hcopy, or_false]
  cases copy with
  | zero =>
    -- the only copy is the request's
    by_cases hkr : kr = .success
    · have hone : ∀ i, [0].count i = if i < 1 then 1 else 0 := fun i => by
        cases i with
        | zero => rfl
        | succ i => simp
      simpa [hkr] using hone
    · have htwice : ¬∀ i, [0, 0].count i = if i < 1 then 1 else 0 := fun h => by
        simpa using h 0
      simpa [hkr] using htwice
  | succ copy =>
    have hlast : (if kr = .success then (some 0).toList else []) ++
        (if kr = .success then [] else [0]) = [0] := by
      by_cases hkr : kr = .success <;> simp [hkr]
    have hcount : ∀ i, (List.range' 1 (copy + 1) ++ [0]).count i =
        if i < copy + 1 + 1 then 1 else 0 := by
      intro i
      have hnodup : (List.range' 1 (copy + 1) ++ [0]).Nodup := by
        refine List.Nodup.append nodup_range' (nodup_singleton 0) ?_
        simp [disjoint_singleton]
      rw [List.Nodup.count hnodup]
      refine if_congr ?_ rfl rfl
      simp only [mem_append, mem_range'_1, mem_singleton]
      omega
    have hne : some 0 ≠ some (copy + 1) := by simp
    refine iff_of_true (fun i => ?_) (Or.inr (by simp))
    rw [if_neg (Nat.succ_ne_zero copy), if_pos hne, append_assoc, hlast]
    rw [Nat.add_sub_cancel, ← hcount i, range'_concat, Nat.one_mul, Nat.add_comm 1]

theorem running_zero {pages : List ℕ} {cont : Cont}
    (hcopy : c.dataCopy = some (pages, cont)) :
    Running pageSize c object 0 0 cont
      { page := object.page
        offset := c.offset - object.pagingOffset
        dataCopy := some (0, cont)
        pageList := pages
        origCopy := none
        discarded := []
        copies := 1 } where
  offset := by simp [Call.target]
  taken := ⟨nofun, nofun⟩
  untouched _ _ := rfl
  dataCopy := rfl
  pages := by simp [Call.pages, hcopy]
  error d hd := by
    rw [hcopy] at hd
    obtain rfl := some.inj hd
    rfl
  hasCopy := by simp [hcopy]
  copies := rfl
  origCopy := rfl
  discarded := rfl

theorem right_invalid {page : Offset → Target} (hvalid : ∀ object, ¬c.Valid pageSize object)
    (hpage : ∀ object ∈ c.object, page = object.page) :
    c.Right pageSize (.returns .invalidArgument page [] [] (if c.dataCopy = none then 0 else 1)) ↔
      c.Good pageSize := by
  have hreleased : ∀ i, (([] : List ℕ) ++ ipcKobjectServer c .invalidArgument).count i =
      if i < (if c.dataCopy = none then 0 else 1) then 1 else 0 := by
    intro i
    by_cases hcopy : c.dataCopy = none
    · simp [ipcKobjectServer, hcopy]
    · cases i with
      | zero => simp [ipcKobjectServer, hcopy]
      | succ i => simp [ipcKobjectServer, hcopy]
  constructor
  · rintro ⟨-, ⟨-, -, -, hreply⟩ | ⟨object, t, hobject, -⟩⟩
    · refine ⟨fun _ => ?_, fun object hobject => absurd hobject (hvalid object)⟩
      by_contra hne
      simp [hne] at hreply
    · exact absurd hobject (hvalid object)
  · intro hgood
    refine ⟨hreleased, Or.inl ⟨rfl, hvalid, hpage, ?_⟩⟩
    simp [hgood.1 hvalid]

/-- A call that ends with a copy that has no continuation. -/
theorem right_returns {s : Supply} {result : KernReturn} {errorOffset : Offset}
    (hvalid : c.Valid pageSize object) (hcopy : c.dataCopy ≠ none)
    (hleaves : (Stop.leaves s result errorOffset).Leaves pageSize c object)
    (hdata : s.dataCopy = some (copy, .none)) :
    c.Right pageSize (.returns result s.page
        (if c.replyTo then [⟨c.offset, c.dataCnt, result, errorOffset⟩] else [])
        (s.discarded ++ (if s.origCopy ≠ some copy then [copy] else []) ++
          (if result = .success then s.origCopy.toList else [])) s.copies) ↔
      result = .success ∨ s.origCopy ≠ none := by
  obtain ⟨⟨t, hstops, hsupplied, herror⟩, haccount⟩ := hleaves
  obtain ⟨hcopies, horig, hdiscarded⟩ := haccount copy .none hdata
  rw [← released_once hcopy horig, Call.Right, hcopies, hdiscarded]
  refine and_iff_left (Or.inr ⟨object, t, hvalid, hstops, hsupplied, ?_⟩)
  rw [herror]

/-- The request is served as it should be if and only if the copy is a good one. -/
theorem memoryObjectDataSupply_right (pageSize : ℕ) (c : Call) (hsize : 0 < pageSize)
    (hcnt : c.dataCnt < 2 ^ 32) (hholds : c.Holds pageSize) :
    c.Right pageSize (memoryObjectDataSupply pageSize c) ↔ c.Good pageSize := by
  rw [memoryObjectDataSupply]
  cases hobject : c.object with
  | none =>
    have hvalid : ∀ object, ¬c.Valid pageSize object := fun object hvalid =>
      some_ne_none object (hvalid.1.symm.trans hobject)
    exact right_invalid hvalid (by simp [hobject])
  | some object =>
    simp only
    have honly : ∀ {o}, c.Valid pageSize o → o = object := fun hvalid =>
      some.inj (hvalid.1.symm.trans hobject)
    split
    · rename_i hbad
      refine right_invalid (fun o hvalid => ?_) (by simp [hobject])
      exact hbad.elim (absurd hvalid.2.1) (absurd hvalid.2.2)
    · rename_i hbad
      obtain ⟨hlock, hcntSize⟩ := not_or.1 hbad
      have hvalid : c.Valid pageSize object := ⟨hobject, not_not.1 hlock, not_not.1 hcntSize⟩
      cases hcopy : c.dataCopy with
      | none =>
        -- there is nothing to copy
        have hzero : c.dataCnt / pageSize = 0 := by
          have hcnt0 : c.dataCnt = 0 := by simpa [Call.Holds, hcopy] using hholds
          rw [hcnt0, Nat.zero_div]
        rw [hzero, supplyLoop]
        refine iff_of_false id fun hgood => ?_
        obtain ⟨d, hd, -⟩ := hgood.2 object hvalid
        exact Option.not_mem_none d (hcopy ▸ hd)
      | some d =>
        obtain ⟨pages, cont⟩ := d
        have hne : c.dataCopy ≠ none := by simp [hcopy]
        have hholds' : cont.Holds (c.pageCount pageSize) pages := by
          simpa [Call.Holds, hcopy] using hholds
        have hgood : c.Good pageSize ↔
            cont.Good (c.Conflict pageSize object) true 0 (c.pageCount pageSize) pages := by
          constructor
          · intro hgood
            obtain ⟨d, hd, hgood⟩ := hgood.2 object hvalid
            obtain rfl := some.inj (hcopy.symm.trans hd)
            exact hgood
          · intro hgood
            refine ⟨fun hbad => absurd hvalid (hbad object), fun o ho => ⟨_, hcopy, ?_⟩⟩
            rw [honly ho]
            exact hgood
        obtain ⟨hleaves, hclean⟩ := loop_spec hsize hcnt (running_zero hcopy)
          (Nat.zero_add _) hholds'
        refine Iff.trans ?_ (hclean.trans hgood.symm)
        simp only [map_some, getD_some, reduceCtorEq, if_false]
        rw [Call.pageCount] at hleaves ⊢
        generalize supplyLoop pageSize object.pagingOffset c.lockValue c.precious
          (c.dataCnt / pageSize) _ = stop at hleaves ⊢
        cases stop with
        | nullCopy | badPage => exact Iff.rfl
        | leaves s result errorOffset =>
          cases hdata : s.dataCopy with
          | none => simp [Call.Right, Stop.Clean, hdata]
          | some d =>
            obtain ⟨copy, cont⟩ := d
            simp only [Stop.Clean, hdata]
            by_cases hcont : cont = .none
            · subst hcont
              simpa using right_returns hvalid hne hleaves hdata
            · simp [Call.Right, hcont]


/-- Four pages in two lists, where the object has the third page. -/
def twoLists : Call where
  object := some ⟨0, fun o => if o = 8192 then .resident ⟨9, 0, false, true⟩ else .nothing⟩
  offset := 0
  dataCopy := some ([1, 2], .next [3, 4] .none)
  dataCnt := 16384
  lockValue := 1
  precious := false
  replyTo := true

theorem memoryObjectDataSupply_right_twoLists :
    twoLists.Right 4096 (memoryObjectDataSupply 4096 twoLists) := by
  refine (memoryObjectDataSupply_right 4096 twoLists (by decide) (by decide) ?_).2 ⟨?_, ?_⟩
  · exact ⟨nofun, fun _ => Nat.le_refl 2⟩
  · exact fun h => absurd ⟨rfl, by decide, by decide⟩ (h _)
  · intro object hobject
    obtain rfl := some.inj hobject.1
    refine ⟨_, rfl, ?_, by decide, by decide, fun _ => rfl⟩
    rintro ⟨j, -, hj, r, hr⟩
    have hj2 : j < 2 := hj
    interval_cases j <;> exact absurd hr nofun

/-- One page, which the object has. -/
def onePage : Call where
  object := some ⟨0, fun _ => .resident ⟨9, 0, false, true⟩⟩
  offset := 0
  dataCopy := some ([1], .none)
  dataCnt := 4096
  lockValue := 1
  precious := false
  replyTo := true

/-- The copy is discarded, and destroyed with the request. -/
theorem onePage_not_right : ¬onePage.Right 4096 (memoryObjectDataSupply 4096 onePage) := by
  intro h
  have htwice := h.1 0
  exact absurd htwice (by decide)

end Call

end MachKernel.Vm.DataSupply
