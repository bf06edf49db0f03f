import MachKernel.Lib.Doubly
import MachKernel.Vm.Map
import Mathlib.Data.List.TakeWhile

/-! The search for an entry from the hint, on the links of the entries (`vm_map_lookup_entry` of
`vm/vm_map.c`). -/

namespace MachKernel.Vm
open Doubly List Option

/-- The entries of a map as they are linked, and the hint. -/
structure EntryLinks where
  header : ℕ
  next : ℕ → ℕ
  prev : ℕ → ℕ
  vmeStart : ℕ → ℕ
  vmeEnd : ℕ → ℕ
  hint : ℕ

open EntryLinks

namespace EntryLinks
variable (s : EntryLinks) (address : ℕ)

/-- The loop, for at most so many turns. -/
def searchLinearly (last : ℕ) : ℕ → ℕ → Option (Bool × ℕ)
  | 0, _ => none
  | n + 1, cur =>
    if cur = last then some (false, s.prev cur)
    else if address < s.vmeEnd cur then
      if s.vmeStart cur ≤ address then some (true, cur) else some (false, s.prev cur)
    else searchLinearly last n (s.next cur)

/-- `SAVE_HINT` of the entry that is given back. -/
def saveFound (r : Bool × ℕ) : Bool × ℕ × EntryLinks := (r.1, r.2, { s with hint := r.2 })

/-- The entry at which a lookup starts. -/
def hintEntry : ℕ := if s.hint = s.header then s.next s.hint else s.hint

/-- `vm_map_lookup_entry`. -/
def lookupEntry (n : ℕ) : Option (Bool × ℕ × EntryLinks) :=
  let cur := s.hintEntry
  if s.vmeStart cur ≤ address then
    if cur ≠ s.header ∧ address < s.vmeEnd cur then some (true, cur, s)
    else (s.searchLinearly address s.header n cur).map s.saveFound
  else (s.searchLinearly address (s.next cur) n (s.next s.header)).map s.saveFound

/-- What the entries say of an address: the first that ends above it, if it starts at or below it,
or the one before. -/
def found (l : List ℕ) : Bool × ℕ :=
  let before := (l.takeWhile fun e => s.vmeEnd e ≤ address).getLast?.getD s.header
  match l.dropWhile fun e => s.vmeEnd e ≤ address with
  | [] => (false, before)
  | e :: _ => if s.vmeStart e ≤ address then (true, e) else (false, before)

end EntryLinks

variable {s : EntryLinks} {address : ℕ} {l pre mid post : List ℕ}

theorem EntryLinks.found_below (hl : ∀ e ∈ l, s.vmeEnd e ≤ address) :
    s.found address l = (false, l.getLast?.getD s.header) := by
  have htake : l.takeWhile (fun e => s.vmeEnd e ≤ address) = l :=
    takeWhile_eq_self_iff.2 fun e he => decide_eq_true (hl e he)
  have hdrop : l.dropWhile (fun e => s.vmeEnd e ≤ address) = [] :=
    dropWhile_eq_nil_iff.2 fun e he => decide_eq_true (hl e he)
  unfold found
  rw [htake, hdrop]

theorem EntryLinks.found_at (hpre : ∀ e ∈ pre, s.vmeEnd e ≤ address) {e : ℕ}
    (he : address < s.vmeEnd e) : s.found address (pre ++ e :: post) =
      if s.vmeStart e ≤ address then (true, e) else (false, pre.getLast?.getD s.header) := by
  have hpos : ∀ e ∈ pre, decide (s.vmeEnd e ≤ address) = true := fun e he =>
    decide_eq_true (hpre e he)
  have htake : (e :: post).takeWhile (fun e => s.vmeEnd e ≤ address) = [] := by
    rw [takeWhile_cons, if_neg (by simpa using he)]
  have hdrop : (e :: post).dropWhile (fun e => s.vmeEnd e ≤ address) = e :: post := by
    rw [dropWhile_cons, if_neg (by simpa using he)]
  unfold found
  rw [takeWhile_append_of_pos hpos, dropWhile_append_of_pos hpos, htake, hdrop,
    append_nil]

theorem EntryLinks.searchLinearly_eq (pre mid post : List ℕ)
    (hl : Linked s.next s.prev s.header (pre ++ (mid ++ post)))
    (hpre : ∀ e ∈ pre, s.vmeEnd e ≤ address)
    (hstop : post = [] ∨ ∃ e ∈ mid, address < s.vmeEnd e) {n : ℕ} (hn : mid.length < n) :
    s.searchLinearly address (post.head?.getD s.header) n ((mid ++ post).head?.getD s.header) =
      some (s.found address (pre ++ (mid ++ post))) := by
  have hprev := hl.links_at.2
  induction mid generalizing pre n with
  | nil =>
    obtain ⟨n, rfl⟩ := Nat.exists_eq_add_one_of_ne_zero hn.ne'
    obtain rfl : post = [] := hstop.resolve_right fun ⟨e, he, _⟩ => by cases he
    rw [append_nil, append_nil, found_below hpre]
    unfold searchLinearly
    rw [if_pos rfl]
    exact congrArg (fun c => some (false, c)) hprev
  | cons e mid ih =>
    obtain ⟨n, rfl⟩ := Nat.exists_eq_add_one_of_ne_zero (Nat.ne_zero_of_lt hn)
    rw [cons_append] at hl hprev ⊢
    have hlast : e ≠ post.head?.getD s.header := by
      have hnodup := hl.nodup
      rw [← cons_append] at hnodup
      obtain ⟨hne, hnodup⟩ := nodup_cons.1 (nodup_middle.1 hnodup)
      cases post with
      | nil =>
        rintro rfl
        exact hne mem_cons_self
      | cons c post =>
        rintro rfl
        exact hne (mem_append_right _ (mem_append_right _ mem_cons_self))
    unfold searchLinearly
    rw [head?_cons, getD_some, if_neg hlast]
    rw [head?_cons, getD_some] at hprev
    split
    · next hlt =>
      rw [found_at hpre hlt, hprev]
      split <;> rfl
    · next hle =>
      rw [append_cons pre e (mid ++ post)] at hl ⊢
      have hpre' : ∀ x ∈ pre ++ [e], s.vmeEnd x ≤ address := by
        intro x hx
        rcases mem_append.1 hx with hx | hx
        · exact hpre x hx
        · exact mem_singleton.1 hx ▸ Nat.le_of_not_lt hle
      have hnext := hl.links_at.1
      rw [getLast?_concat, getD_some] at hnext
      rw [hnext]
      refine ih _ hl hpre' ?_ (Nat.lt_of_succ_lt_succ hn) hl.links_at.2
      refine hstop.imp_right ?_
      rintro ⟨x, hx, hlt⟩
      rcases mem_cons.1 hx with rfl | hx
      · exact absurd hlt hle
      · exact ⟨x, hx, hlt⟩

theorem ends_split {α : Type*} (vmeEnd : α → ℕ) (address : ℕ) (l : List α) :
    (∀ e ∈ l, vmeEnd e ≤ address) ∨ ∃ pre e post, l = pre ++ e :: post ∧
      (∀ a ∈ pre, vmeEnd a ≤ address) ∧ address < vmeEnd e := by
  cases hfind : l.find? fun e => address < vmeEnd e with
  | none => exact .inl fun e he => Nat.le_of_not_lt (by simpa using find?_eq_none.1 hfind e he)
  | some e =>
    obtain ⟨he, pre, post, rfl, hpre⟩ := find?_eq_some_iff_append.1 hfind
    exact .inr ⟨pre, e, post, rfl, fun a ha => by simpa using hpre a ha, of_decide_eq_true he⟩

theorem EntryLinks.found_spec (s : EntryLinks) (address : ℕ)
    (hsorted : l.Pairwise fun a b => s.vmeEnd a ≤ s.vmeStart b) :
    ∃ pre post, l = pre ++ post ∧ (∀ e ∈ pre, s.vmeEnd e ≤ address) ∧
      (s.found address l = (false, pre.getLast?.getD s.header) ∧
          (∀ e ∈ post, address < s.vmeStart e) ∨
        ∃ e above, post = e :: above ∧ s.found address l = (true, e) ∧
          s.vmeStart e ≤ address ∧ address < s.vmeEnd e ∧ ∀ e ∈ above, address < s.vmeStart e) := by
  rcases ends_split s.vmeEnd address l with hbelow | ⟨pre, e, above, rfl, hpre, hlt⟩
  · exact ⟨l, [], (append_nil l).symm, hbelow, .inl ⟨found_below hbelow, nofun⟩⟩
  · have habove : ∀ x ∈ above, address < s.vmeStart x := fun x hx =>
      hlt.trans_le ((pairwise_cons.1 (pairwise_append.1 hsorted).2.1).1 x hx)
    refine ⟨pre, e :: above, rfl, hpre, ?_⟩
    rw [found_at hpre hlt]
    split
    · next hge => exact .inr ⟨e, above, rfl, rfl, hge, hlt, habove⟩
    · next hge =>
      refine .inl ⟨rfl, fun x hx => ?_⟩
      rcases mem_cons.1 hx with rfl | hx
      · exact Nat.lt_of_not_le hge
      · exact habove x hx

theorem EntryLinks.found_mem (s : EntryLinks) (address : ℕ) (l : List ℕ) :
    (s.found address l).2 ∈ s.header :: l := by
  have hlast : ∀ pre : List ℕ, pre.getLast?.getD s.header ∈ s.header :: pre := by
    intro pre
    cases hlast : pre.getLast? with
    | none => exact mem_cons_self
    | some e => exact mem_cons_of_mem _ (mem_of_getLast? hlast)
  rcases ends_split s.vmeEnd address l with hbelow | ⟨pre, e, above, rfl, hpre, hlt⟩
  · rw [found_below hbelow]
    exact hlast l
  · rw [found_at hpre hlt]
    split
    · exact mem_cons_of_mem _ (mem_append_right _ mem_cons_self)
    · exact mem_cons.2 ((mem_cons.1 (hlast pre)).imp_right (mem_append_left _))

theorem EntryLinks.lookupEntry_eq (address : ℕ) (hl : Linked s.next s.prev s.header l)
    (hsorted : l.Pairwise fun a b => s.vmeEnd a ≤ s.vmeStart b)
    (hle : ∀ e ∈ l, s.vmeStart e ≤ s.vmeEnd e) (hhint : s.hint ∈ s.header :: l) {n : ℕ}
    (hn : l.length < n) : s.lookupEntry address n =
      some ((s.found address l).1, (s.found address l).2, { s with
        hint := if s.hintEntry ∈ l ∧ s.vmeStart s.hintEntry ≤ address ∧
          address < s.vmeEnd s.hintEntry then s.hint else (s.found address l).2 }) := by
  unfold lookupEntry
  cases l with
  | nil =>
    -- the header is the first entry and the hint
    have hnext : s.next s.header = s.header := hl.next_header
    obtain hheader : s.hint = s.header := mem_singleton.1 hhint
    have hentry : s.hintEntry = s.header := by
      unfold hintEntry
      rw [if_pos hheader, hheader, hnext]
    have hsearch : s.searchLinearly address s.header n s.header = some (s.found address []) :=
      searchLinearly_eq [] [] [] hl nofun (.inl rfl) hn
    have hnot : ¬(s.header ∈ ([] : List ℕ) ∧ s.vmeStart s.header ≤ address ∧
        address < s.vmeEnd s.header) := fun h => not_mem_nil h.1
    dsimp only
    rw [hentry, hnext, hsearch, if_neg hnot]
    split
    · rw [if_neg fun h => h.1 rfl]
      rfl
    · rfl
  | cons first l =>
    obtain ⟨below, cur, above, hcur, heq⟩ : ∃ below cur above, s.hintEntry = cur ∧
        first :: l = below ++ cur :: above := by
      unfold hintEntry
      split
      · next hheader =>
        rw [hheader]
        exact ⟨[], first, l, hl.next_header, rfl⟩
      · next hne =>
        obtain ⟨below, above, heq⟩ := append_of_mem ((mem_cons.1 hhint).resolve_left hne)
        exact ⟨below, s.hint, above, rfl, heq⟩
    rw [heq] at hl hsorted hle hn ⊢
    have hmem : cur ∈ below ++ cur :: above := mem_append_right _ mem_cons_self
    have hheader : cur ≠ s.header := by
      rintro rfl
      exact (nodup_cons.1 hl.nodup).1 hmem
    have hcurle := hle cur hmem
    dsimp only
    rw [hcur]
    split
    · next hge =>
      have hbelow : ∀ e ∈ below, s.vmeEnd e ≤ address := fun e he =>
        ((pairwise_append.1 hsorted).2.2 e he cur mem_cons_self).trans hge
      split
      · next hlt =>
        rw [if_pos ⟨hmem, hge, hlt.2⟩, found_at hbelow hlt.2, if_pos hge]
      · next hlt =>
        have hsearch : s.searchLinearly address s.header n cur =
            some (s.found address (below ++ cur :: above)) := by
          rw [length_append] at hn
          rw [← append_nil (cur :: above)] at hl ⊢
          exact searchLinearly_eq below _ [] hl hbelow (.inl rfl) (by omega)
        rw [hsearch, if_neg fun h => hlt ⟨hheader, h.2.2⟩]
        rfl
    · next hge =>
      have hsearch : s.searchLinearly address (s.next cur) n (s.next s.header) =
          some (s.found address (below ++ cur :: above)) := by
        rw [append_cons] at hl hn ⊢
        have hnext := hl.links_at.1
        rw [getLast?_concat, getD_some] at hnext
        rw [hnext, hl.next_header]
        rw [length_append] at hn
        exact searchLinearly_eq [] _ above hl nofun
          (.inr ⟨cur, mem_append_right _ mem_cons_self, by omega⟩) (by omega)
      rw [hsearch, if_neg fun h => hge h.2.1]
      rfl

/-- From any hint a lookup ends with what a search from the start of the list finds: the only entry
with the address, or the last entry that ends at or below it; and the new hint is an entry or the
header again. -/
theorem lookupEntry_hinted {s : EntryLinks} {l : List ℕ} (hl : Linked s.next s.prev s.header l)
    (hsorted : l.Pairwise fun a b => s.vmeEnd a ≤ s.vmeStart b)
    (hle : ∀ e ∈ l, s.vmeStart e ≤ s.vmeEnd e) (hhint : s.hint = s.header ∨ s.hint ∈ l)
    (address : ℕ) {n : ℕ} (hn : l.length < n) :
    ∃ found entry hint, s.lookupEntry address n = some (found, entry, { s with hint }) ∧
      s.searchLinearly address s.header n (s.next s.header) = some (found, entry) ∧
      (hint = s.header ∨ hint ∈ l) ∧
      if found then
        entry ∈ l ∧ ∀ e ∈ l, s.vmeStart e ≤ address ∧ address < s.vmeEnd e ↔ e = entry
      else
        (∀ e ∈ l, ¬(s.vmeStart e ≤ address ∧ address < s.vmeEnd e)) ∧
          ∃ pre post, l = pre ++ post ∧ entry = pre.getLast?.getD s.header ∧
            (∀ e ∈ pre, s.vmeEnd e ≤ address) ∧ ∀ e ∈ post, address < s.vmeEnd e := by
  have hhint' := mem_cons.2 hhint
  have hmem : (if s.hintEntry ∈ l ∧ s.vmeStart s.hintEntry ≤ address ∧
      address < s.vmeEnd s.hintEntry then s.hint else (s.found address l).2) ∈ s.header :: l := by
    split
    · exact hhint'
    · exact s.found_mem address l
  have hsearch : s.searchLinearly address s.header n (s.next s.header) =
      some (s.found address l) := by
    rw [hl.next_header]
    rw [← append_nil l] at hl ⊢
    exact EntryLinks.searchLinearly_eq [] _ [] hl nofun (.inl rfl) hn
  refine ⟨_, _, _, EntryLinks.lookupEntry_eq address hl hsorted hle hhint' hn, hsearch,
    mem_cons.1 hmem, ?_⟩
  obtain ⟨pre, post, rfl, hpre, hpost⟩ := s.found_spec address hsorted
  rcases hpost with ⟨heq, hpost⟩ | ⟨e, above, rfl, heq, hge, hlt, habove⟩
  · rw [heq]
    refine ⟨fun e he hin => ?_, pre, post, rfl, rfl, hpre, fun e he => ?_⟩
    · rcases mem_append.1 he with he | he
      · exact (hpre e he).not_gt hin.2
      · exact (hpost e he).not_ge hin.1
    · exact (hpost e he).trans_le (hle e (mem_append_right _ he))
  · rw [heq]
    refine ⟨mem_append_right _ mem_cons_self, fun x hx => ⟨fun hin => ?_, ?_⟩⟩
    · rcases mem_append.1 hx with hx | hx
      · exact absurd hin.2 (hpre x hx).not_gt
      · rcases mem_cons.1 hx with rfl | hx
        · rfl
        · exact absurd hin.1 (habove x hx).not_ge
    · rintro rfl
      exact ⟨hge, hlt⟩

/-- Two entries, of the addresses from 10 and from 20, with the hint at the second. -/
def twoEntries : EntryLinks where
  header := 0
  next e := (e + 1) % 3
  prev e := (e + 2) % 3
  vmeStart e := 10 * e
  vmeEnd e := 10 * e + 5
  hint := 2

theorem lookupEntry_hinted_two : ∃ found entry hint,
    twoEntries.lookupEntry 12 3 = some (found, entry, { twoEntries with hint }) ∧
      twoEntries.searchLinearly 12 0 3 1 = some (found, entry) ∧ (hint = 0 ∨ hint ∈ [1, 2]) := by
  obtain ⟨found, entry, hint, hlookup, hsearch, hhint, -⟩ :=
    lookupEntry_hinted (s := twoEntries) (l := [1, 2]) ⟨by decide, by simp [Links, twoEntries]⟩
      (by simp [twoEntries]) (fun _ _ => Nat.le_add_right ..) (.inr (by simp [twoEntries])) 12
      (n := 3) (by decide)
  exact ⟨found, entry, hint, hlookup, hsearch, hhint⟩

/-! The list of the map stands for the links. -/

/-- The links are those of the entries of a map. -/
structure EntryLinks.Of (s : EntryLinks) (m : VmMap) : Prop where
  linked : Linked s.next s.prev s.header (m.entries.map VmMapEntry.id)
  bounds : ∀ e ∈ m.entries, s.vmeStart e.id = e.vmeStart ∧ s.vmeEnd e.id = e.vmeEnd
  hint : s.hint = m.hint.getD s.header

theorem last_getD (es : List VmMapEntry) (header : ℕ) :
    (es.map VmMapEntry.id).getLast?.getD header = (Linked.last VmMapEntry.id es).getD header := by
  rw [getLast?_map]
  rfl

theorem EntryLinks.found_eq_scan {es : List VmMapEntry}
    (hbounds : ∀ e ∈ es, s.vmeStart e.id = e.vmeStart ∧ s.vmeEnd e.id = e.vmeEnd) :
    s.found address (es.map VmMapEntry.id) = ((VmMap.scan address none es).1,
      (VmMap.scan address none es).2.getD s.header) := by
  have hends : ∀ pre : List VmMapEntry, (∀ e ∈ pre, e ∈ es) → (∀ e ∈ pre, e.vmeEnd ≤ address) →
      ∀ i ∈ pre.map VmMapEntry.id, s.vmeEnd i ≤ address := by
    intro pre hmem hpre i hi
    obtain ⟨e, he, rfl⟩ := mem_map.1 hi
    rw [(hbounds e (hmem e he)).2]
    exact hpre e he
  rcases ends_split VmMapEntry.vmeEnd address es with hbelow | ⟨pre, e, above, rfl, hpre, hlt⟩
  · rw [found_below (hends es (fun _ => id) hbelow), last_getD]
    have hscan : VmMap.scan address none (es ++ []) =
        VmMap.scan address ((Linked.last VmMapEntry.id es).or none) [] :=
      scan_append_of_le hbelow none
    rw [append_nil, or_none] at hscan
    rw [hscan]
    rfl
  · obtain ⟨hstart, hend⟩ := hbounds e (mem_append_right _ mem_cons_self)
    rw [scan_append_of_le hpre, or_none, VmMap.scan, if_pos hlt, map_append,
      map_cons, found_at
        (hends pre (fun _ => mem_append_left _) hpre) (hend.symm ▸ hlt), hstart, last_getD]
    split <;> rfl

theorem EntryLinks.Of.hintEntry [PageSize] {m : VmMap} (h : s.Of m) (hm : m.WellFormed)
    (hne : m.entries ≠ []) : ∃ cur ∈ m.entries, m.hintEntry = some cur ∧ s.hintEntry = cur.id := by
  have hhint := h.hint
  unfold VmMap.hintEntry EntryLinks.hintEntry
  cases hm' : m.hint with
  | none =>
    rw [hm', getD_none] at hhint
    obtain ⟨e, es, hes⟩ := exists_cons_of_ne_nil hne
    refine ⟨e, hes ▸ mem_cons_self, by rw [hes]; rfl, ?_⟩
    rw [if_pos hhint, hhint, h.linked.next_header, hes]
    rfl
  | some i =>
    rw [hm'] at hhint
    obtain ⟨e, he, rfl⟩ := mem_map.1 (hm.hint i hm')
    have hheader : s.hint ≠ s.header := by
      rw [hhint]
      rintro heq
      have hmem : e.id ∈ m.entries.map VmMapEntry.id := mem_map_of_mem he
      rw [show e.id = s.header from heq] at hmem
      exact (nodup_cons.1 h.linked.nodup).1 hmem
    obtain ⟨cur, hcur⟩ := isSome_iff_exists.1 (find?_isSome.2 ⟨e, he, decide_eq_true rfl⟩ :
        (m.entries.find? fun x => x.id = e.id).isSome)
    refine ⟨cur, mem_of_find?_eq_some hcur, hcur, ?_⟩
    have hid : decide (cur.id = e.id) = true :=
      find?_some (p := fun x : VmMapEntry => decide (x.id = e.id)) hcur
    rw [if_neg hheader, hhint]
    exact (of_decide_eq_true hid).symm

theorem EntryLinks.Of.lookupEntry [PageSize] {m : VmMap} (h : s.Of m) (hm : m.WellFormed)
    (address : ℕ) {n : ℕ} (hn : m.entries.length < n) :
    ∃ s', s.lookupEntry address n = some ((m.lookupEntry address).1,
      (m.lookupEntry address).2.1.getD s.header, s') ∧ s'.Of (m.lookupEntry address).2.2 := by
  have hsorted : (m.entries.map VmMapEntry.id).Pairwise fun a b => s.vmeEnd a ≤ s.vmeStart b := by
    refine pairwise_map.2 (hm.ascending.imp_of_mem fun {a b} ha hb hab => ?_)
    rw [(h.bounds a ha).2, (h.bounds b hb).1]
    exact hab
  have hle : ∀ i ∈ m.entries.map VmMapEntry.id, s.vmeStart i ≤ s.vmeEnd i := by
    intro i hi
    obtain ⟨e, he, rfl⟩ := mem_map.1 hi
    rw [(h.bounds e he).1, (h.bounds e he).2]
    exact (hm.nonempty e he).le
  have hhint : s.hint ∈ s.header :: m.entries.map VmMapEntry.id := by
    rw [h.hint]
    cases hm' : m.hint with
    | none => exact mem_cons_self
    | some i => exact mem_cons_of_mem _ (hm.hint i hm')
  have hwanted : (s.hintEntry ∈ m.entries.map VmMapEntry.id ∧ s.vmeStart s.hintEntry ≤ address ∧
      address < s.vmeEnd s.hintEntry) ↔ ∃ cur, m.hintEntry = some cur ∧ cur.vmeStart ≤ address ∧
        address < cur.vmeEnd := by
    by_cases hne : m.entries = []
    · have hnone : m.hintEntry = none := by
        cases hcur : m.hintEntry with
        | none => rfl
        | some cur =>
          obtain ⟨_, _, heq, -⟩ := hm.hintEntry_some hcur
          exact absurd (hne.symm.trans heq) (append_ne_nil_of_right_ne_nil _
            (cons_ne_nil _ _)).symm
      rw [hne, hnone]
      exact iff_of_false (fun h => not_mem_nil h.1) fun ⟨_, h, _⟩ => by cases h
    · obtain ⟨cur, hcur, hmap, hlinks⟩ := h.hintEntry hm hne
      rw [hlinks, (h.bounds cur hcur).1, (h.bounds cur hcur).2, hmap]
      exact ⟨fun hin => ⟨cur, rfl, hin.2⟩, fun ⟨_, heq, hin⟩ =>
        ⟨mem_map_of_mem hcur, some.inj heq ▸ hin⟩⟩
  have hlinks := lookupEntry_eq address h.linked hsorted hle hhint (by rwa [length_map])
  rw [found_eq_scan h.bounds] at hlinks
  rw [hm.lookupEntry_scan address]
  refine ⟨_, hlinks, h.linked, h.bounds, ?_⟩
  simp only [hwanted, VmMap.saveHint]
  split
  · exact h.hint
  · rfl

end MachKernel.Vm
