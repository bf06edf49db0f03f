import MachKernel.Lib.Doubly

/-! The queues of messages and of threads (`ipc/ipc_kmsg.h`, `ipc/ipc_thread.h`): rings of links, with
a pointer to the first element. -/

namespace MachKernel.Ipc.Rings
open Doubly Function List

/-- A message gets its links when it is put on a queue; a thread on no queue has links to itself. -/
inductive QueueKind
  | kmsg
  | thread

/-- `ikmq_base` or `ithq_base` of each queue, and the links of all elements. -/
structure Queues (κ α : Type*) where
  base : κ → Option α
  next : α → α
  prev : α → α

/-- A ring with its first element. -/
def Ring {α : Type*} (base : Option α) (next prev : α → α) : List α → Prop
  | [] => base = none
  | a :: l => base = some a ∧ Linked next prev a l

variable {κ α : Type*} [DecidableEq κ] [DecidableEq α]

namespace Queues
variable (kind : QueueKind) (s : Queues κ α) (q : κ)

/-- `ipc_kmsg_enqueue_macro` and `ipc_thread_enqueue_macro`. -/
def enqueue (x : α) : Queues κ α :=
  match s.base q with
  | none =>
    match kind with
    | .kmsg => ⟨update s.base q (some x), update s.next x x, update s.prev x x⟩
    | .thread => { s with base := update s.base q (some x) }
  | some first =>
    let last := s.prev first
    { s with
      next := update (update s.next x first) last x
      prev := update (update s.prev x last) first x }

/-- `ipc_kmsg_rmqueue` and `ipc_thread_rmqueue`. -/
def rmqueue (x : α) : Queues κ α :=
  let next := s.next x
  let prev := s.prev x
  if next = x then { s with base := update s.base q none }
  else
    let base := if s.base q = some x then update s.base q (some next) else s.base
    let nexts := update s.next prev next
    let prevs := update s.prev next prev
    match kind with
    | .kmsg => ⟨base, nexts, prevs⟩
    | .thread => ⟨base, update nexts x x, update prevs x x⟩

/-- `ipc_kmsg_dequeue` and `ipc_thread_dequeue`. -/
def dequeue : Option α × Queues κ α :=
  match s.base q with
  | none => (none, s)
  | some first => (some first, s.rmqueue kind q first)

/-- `ipc_kmsg_queue_next`. -/
def queueNext (x : α) : Option α := if s.base q = some (s.next x) then none else some (s.next x)

end Queues

/-- Queues after some sequence of operations, and the elements that each should have. -/
inductive QueueRun (kind : QueueKind) : Queues κ α → (κ → List α) → Prop
  | init (next prev : α → α) (h : kind = .thread → next = id ∧ prev = id) :
      QueueRun kind ⟨fun _ => none, next, prev⟩ fun _ => []
  | enqueue {s L} (q : κ) (x : α) (h : QueueRun kind s L) (hx : ∀ q, x ∉ L q) :
      QueueRun kind (s.enqueue kind q x) (update L q (L q ++ [x]))
  | dequeue {s L} (q : κ) (h : QueueRun kind s L) :
      QueueRun kind (s.dequeue kind q).2 (update L q (L q).tail)
  | rmqueue {s L} (q : κ) (x : α) (h : QueueRun kind s L) (hx : x ∈ L q) :
      QueueRun kind (s.rmqueue kind q x) (update L q ((L q).erase x))

variable {kind : QueueKind} {s s' : Queues κ α} {L : κ → List α} {q : κ} {l l' : List α}
  {base : Option α} {next prev next' prev' : α → α} {a b x : α}

/-! ## One ring -/

omit [DecidableEq α] in
/-- A ring may be entered at the second element as well. -/
theorem Linked.rotate (h : Linked next prev a (b :: l)) : Linked next prev b (l ++ [a]) := by
  obtain ⟨hab, hl⟩ := isChain_cons_cons.mp h.links
  refine ⟨?_, ?_⟩
  · rw [← cons_append]
    exact (perm_append_singleton a (b :: l)).nodup_iff.mpr h.nodup
  · rw [append_assoc, singleton_append, ← cons_append]
    exact links_append_cons_cons.mpr ⟨hl, hab, isChain_singleton b⟩

omit [DecidableEq α] in
theorem Ring.congr (h : Ring base next prev l)
    (heq : ∀ c ∈ l, next' c = next c ∧ prev' c = prev c) : Ring base next' prev' l := by
  cases l with
  | nil => exact h
  | cons a l => exact ⟨h.1, h.2.congr (fun c hc => (heq c hc).1) fun c hc => (heq c hc).2⟩

omit [DecidableEq α] in
theorem Ring.nodup (h : Ring base next prev l) : l.Nodup := by
  cases l with
  | nil => exact nodup_nil
  | cons a l => exact h.2.nodup

/-- What an operation does with its queue, and what it leaves of the others. -/
structure Changes (kind : QueueKind) (s s' : Queues κ α) (q : κ) (l l' : List α) : Prop where
  base : ∀ q' ≠ q, s'.base q' = s.base q'
  ring : Ring (s'.base q) s'.next s'.prev l'
  same : ∀ y, y ∉ l → y ∉ l' → s'.next y = s.next y ∧ s'.prev y = s.prev y
  idle : kind = .thread → ∀ y ∈ l, y ∉ l' → s'.next y = y ∧ s'.prev y = y

theorem Ring.enqueue (h : Ring (s.base q) s.next s.prev l) (hx : x ∉ l)
    (hidle : kind = .thread → s.next x = x ∧ s.prev x = x) :
    Changes kind s (s.enqueue kind q x) q l (l ++ [x]) := by
  have hidle' : ∀ y ∈ l, y ∉ l ++ [x] → False := fun y hy hy' => hy' (mem_append_left _ hy)
  unfold Queues.enqueue
  cases l with
  | nil =>
    rw [show s.base q = none from h]
    cases kind with
    | kmsg =>
      refine ⟨fun q' hq => update_of_ne hq _ _, ⟨update_self _ _ _, nodup_singleton x, ?_⟩,
        fun y _ hy => ?_, nofun⟩
      · exact isChain_pair.mpr ⟨update_self _ _ _, update_self _ _ _⟩
      · have hyx : y ≠ x := fun heq => hy (heq ▸ mem_singleton_self x)
        exact ⟨update_of_ne hyx _ _, update_of_ne hyx _ _⟩
    | thread =>
      exact ⟨fun q' hq => update_of_ne hq _ _, ⟨update_self _ _ _, nodup_singleton x,
        isChain_pair.mpr (hidle rfl)⟩, fun y _ _ => ⟨rfl, rfl⟩, nofun⟩
  | cons a l =>
    obtain ⟨hbase, hl⟩ := h
    rw [hbase]
    have hl' : Linked s.next s.prev a (l ++ []) := by rwa [append_nil]
    have hput := hl'.insert (b := a) rfl (by rwa [append_nil])
    refine ⟨fun _ _ => rfl, ⟨hbase, hput⟩, fun y hy hy' => ?_, fun _ y hy hy' => (hidle' y hy hy').elim⟩
    have hyx : y ≠ x := fun heq => hy' (by simp [heq])
    have hya : y ≠ a := fun heq => hy (by simp [heq])
    have hyp : y ≠ s.prev a := fun heq => hy (heq ▸ hl.prev_mem mem_cons_self)
    dsimp only
    rw [update_of_ne hyp, update_of_ne hyx, update_of_ne hya, update_of_ne hyx]
    exact ⟨rfl, rfl⟩

omit [DecidableEq κ] in
/-- The links around an element that is not alone, and the ring without it. -/
theorem Ring.unlink (h : Ring (s.base q) s.next s.prev l) (hx : x ∈ l) (hne : s.next x ≠ x) :
    s.next x ∈ l ∧ s.prev x ∈ l ∧
      Ring (if s.base q = some x then some (s.next x) else s.base q)
        (update s.next (s.prev x) (s.next x)) (update s.prev (s.next x) (s.prev x)) (l.erase x) := by
  cases l with
  | nil => cases hx
  | cons a l =>
    obtain ⟨hbase, hl⟩ := h
    refine ⟨hl.next_mem hx, hl.prev_mem hx, ?_⟩
    by_cases hxa : x = a
    · subst hxa
      rw [if_pos hbase, erase_cons_head]
      cases l with
      | nil => exact absurd (isChain_pair.mp hl.links).1 hne
      | cons b l =>
        have hb : s.next x = b := (isChain_cons_cons.mp hl.links).1.1
        have hgone := (Linked.rotate hl).remove
        rw [append_nil, hb] at hgone
        rw [hb]
        exact ⟨rfl, hgone⟩
    · obtain ⟨pre, post, rfl⟩ := append_of_mem ((mem_cons.mp hx).resolve_left hxa)
      have hpre : x ∉ pre := fun hmem =>
        (nodup_append.mp (nodup_cons.mp hl.nodup).2).2.2 x hmem x mem_cons_self rfl
      rw [if_neg fun heq => hxa (Option.some.inj (heq.symm.trans hbase)),
        erase_cons_tail (by simp [Ne.symm hxa]), erase_append_right _ hpre, erase_cons_head]
      exact ⟨hbase, hl.remove⟩

omit [DecidableEq α] in
/-- An element that is next to itself is alone. -/
theorem Ring.alone (h : Ring base next prev l) (hx : x ∈ l) (hself : next x = x) : l = [x] := by
  cases l with
  | nil => cases hx
  | cons a l =>
    obtain ⟨pre, post, heq⟩ := append_of_mem hx
    have hnodup := heq ▸ h.2.nodup
    have hlinks := h.2.links
    rw [← cons_append, heq, append_assoc, cons_append] at hlinks
    cases post with
    | nil =>
      obtain rfl : x = a := hself.symm.trans (links_append_cons_cons.mp hlinks).2.1.1
      cases pre with
      | nil => exact heq
      | cons c pre =>
        obtain rfl : x = c := (List.cons.inj heq).1
        simp at hnodup
    | cons c post =>
      obtain rfl : x = c := hself.symm.trans (links_append_cons_cons.mp hlinks).2.1.1
      simp [nodup_append] at hnodup

theorem Ring.rmqueue (h : Ring (s.base q) s.next s.prev l) (hx : x ∈ l) :
    Changes kind s (s.rmqueue kind q x) q l (l.erase x) := by
  have hgone : ∀ y ∈ l.erase x, y ≠ x := fun y hy heq => h.nodup.not_mem_erase (heq ▸ hy)
  unfold Queues.rmqueue
  dsimp only
  by_cases hself : s.next x = x
  · obtain rfl := h.alone hx hself
    rw [if_pos hself, erase_cons_head]
    refine ⟨fun q' hq => update_of_ne hq _ _, update_self _ _ _, fun _ _ _ => ⟨rfl, rfl⟩,
      fun _ y hy _ => ?_⟩
    obtain rfl := mem_singleton.mp hy
    obtain ⟨hnext, hprev⟩ := isChain_pair.mp h.2.links
    exact ⟨hnext, hprev⟩
  · obtain ⟨hnext, hprev, hring⟩ := h.unlink hx hself
    have hbase : (if s.base q = some x then update s.base q (some (s.next x)) else s.base) q =
        if s.base q = some x then some (s.next x) else s.base q := by
      split_ifs
      · exact update_self _ _ _
      · rfl
    have hother : ∀ q' ≠ q, (if s.base q = some x then update s.base q (some (s.next x))
        else s.base) q' = s.base q' := by
      intro q' hq
      split_ifs
      · exact update_of_ne hq _ _
      · rfl
    have hsame : ∀ y ∉ l, update s.next (s.prev x) (s.next x) y = s.next y ∧
        update s.prev (s.next x) (s.prev x) y = s.prev y := by
      intro y hy
      have hyp : y ≠ s.prev x := fun heq => hy (heq ▸ hprev)
      have hyn : y ≠ s.next x := fun heq => hy (heq ▸ hnext)
      exact ⟨update_of_ne hyp _ _, update_of_ne hyn _ _⟩
    rw [← hbase] at hring
    rw [if_neg hself]
    cases kind with
    | kmsg => exact ⟨hother, hring, fun y hy _ => hsame y hy, nofun⟩
    | thread =>
      refine ⟨hother, hring.congr fun y hy => ?_, fun y hy _ => ?_, fun _ y hy hy' => ?_⟩
      · exact ⟨update_of_ne (hgone y hy) _ _, update_of_ne (hgone y hy) _ _⟩
      · have hyx : y ≠ x := fun heq => hy (heq ▸ hx)
        dsimp only
        rw [update_of_ne hyx, update_of_ne hyx]
        exact hsame y hy
      · obtain rfl : y = x := by
          by_contra hyx
          exact hy' ((mem_erase_of_ne hyx).mpr hy)
        exact ⟨update_self _ _ _, update_self _ _ _⟩

/-! ## All queues -/

/-- The rings have the elements that they should have. -/
structure Queues.Holds (kind : QueueKind) (s : Queues κ α) (L : κ → List α) : Prop where
  ring : ∀ q, Ring (s.base q) s.next s.prev (L q)
  once : ∀ {x q q'}, x ∈ L q → x ∈ L q' → q = q'
  idle : kind = .thread → ∀ x, (∀ q, x ∉ L q) → s.next x = x ∧ s.prev x = x

theorem Queues.Holds.change (h : s.Holds kind L) (hs : Changes kind s s' q (L q) l')
    (hnew : ∀ y ∈ l', y ∈ L q ∨ ∀ q, y ∉ L q) : s'.Holds kind (update L q l') := by
  have hout : ∀ q' ≠ q, ∀ y ∈ L q', y ∉ L q ∧ y ∉ l' := fun q' hq y hy =>
    have hnot : y ∉ L q := fun hy' => hq (h.once hy hy')
    ⟨hnot, fun hy' => ((hnew y hy').resolve_left hnot) q' hy⟩
  have hmem : ∀ {y q'}, y ∈ update L q l' q' → q' = q ∧ y ∈ l' ∨ q' ≠ q ∧ y ∈ L q' := by
    intro y q' hy
    by_cases hq : q' = q
    · subst hq
      exact .inl ⟨rfl, by rwa [update_self] at hy⟩
    · exact .inr ⟨hq, by rwa [update_of_ne hq] at hy⟩
  refine ⟨fun q' => ?_, fun {y q₁ q₂} h₁ h₂ => ?_, fun hk y hy => ?_⟩
  · by_cases hq : q' = q
    · subst hq
      rw [update_self]
      exact hs.ring
    · rw [update_of_ne hq, hs.base q' hq]
      exact (h.ring q').congr fun y hy => hs.same y (hout q' hq y hy).1 (hout q' hq y hy).2
  · rcases hmem h₁ with ⟨rfl, hy₁⟩ | ⟨hq₁, hy₁⟩ <;> rcases hmem h₂ with ⟨rfl, hy₂⟩ | ⟨hq₂, hy₂⟩
    · rfl
    · exact absurd hy₁ (hout q₂ hq₂ y hy₂).2
    · exact absurd hy₂ (hout q₁ hq₁ y hy₁).2
    · exact h.once hy₁ hy₂
  · have hnot : y ∉ l' := by simpa using hy q
    have hrest : ∀ q' ≠ q, y ∉ L q' := fun q' hq => by simpa [update_of_ne hq] using hy q'
    by_cases hq : y ∈ L q
    · exact hs.idle hk y hq hnot
    · obtain ⟨hnext, hprev⟩ := hs.same y hq hnot
      rw [hnext, hprev]
      refine h.idle hk y fun q' hy' => ?_
      by_cases heq : q' = q
      · exact hq (heq ▸ hy')
      · exact hrest q' heq hy'

theorem QueueRun.holds (h : QueueRun kind s L) : s.Holds kind L := by
  induction h with
  | init next prev h =>
    refine ⟨fun _ => rfl, nofun, fun hk x _ => ?_⟩
    obtain ⟨rfl, rfl⟩ := h hk
    exact ⟨rfl, rfl⟩
  | enqueue q x _ hx ih =>
    refine ih.change ((ih.ring q).enqueue (hx q) fun hk => ih.idle hk x hx) fun y hy => ?_
    rcases mem_append.mp hy with hy | hy
    · exact .inl hy
    · exact .inr (mem_singleton.mp hy ▸ hx)
  | rmqueue q x _ hx ih =>
    exact ih.change ((ih.ring q).rmqueue hx) fun y hy => .inl (mem_of_mem_erase hy)
  | @dequeue s L q _ ih =>
    have hring := ih.ring q
    unfold Queues.dequeue
    cases hl : L q with
    | nil =>
      rw [hl] at hring
      rw [show s.base q = none from hring, List.tail_nil, ← hl, update_eq_self]
      exact ih
    | cons a l =>
      rw [hl] at hring
      rw [hring.1]
      have hgone := ih.change ((ih.ring q).rmqueue (hl ▸ mem_cons_self)) fun y hy =>
        .inl (mem_of_mem_erase hy)
      rwa [hl, erase_cons_head] at hgone

/-- Whatever is done with the queues, each ring holds the elements that were put on it and not taken
off, in their order and linked both ways; `dequeue` takes the first one. No element is on two queues,
and a thread on none has links to itself. -/
theorem queueRun_rings (h : QueueRun kind s L) :
    (∀ q, (s.dequeue kind q).1 = (L q).head?) ∧ (∀ q, (L q).Nodup) ∧
    (∀ x q q', x ∈ L q → x ∈ L q' → q = q') ∧
    (∀ q l a b r, L q = l ++ a :: b :: r → s.queueNext q a = some b ∧ s.prev b = a) ∧
    (∀ q l a, L q = l ++ [a] → s.queueNext q a = none) ∧
    (kind = .thread → ∀ x, (∀ q, x ∉ L q) → s.next x = x ∧ s.prev x = x) := by
  have hs := h.holds
  refine ⟨fun q => ?_, fun q => (hs.ring q).nodup, fun x q q' => hs.once, fun q l a b r hl => ?_,
    fun q l a hl => ?_, hs.idle⟩
  · have hring := hs.ring q
    unfold Queues.dequeue
    cases hl : L q with
    | nil =>
      rw [hl] at hring
      rw [show s.base q = none from hring]
      rfl
    | cons a l =>
      rw [hl] at hring
      rw [hring.1]
      rfl
  all_goals
    obtain ⟨c, m, hm⟩ : ∃ c m, L q = c :: m := exists_cons_of_ne_nil (by simp [hl])
    have hring := hs.ring q
    rw [hm] at hring
    obtain ⟨hbase, hring⟩ := hring
    have hlinks := hring.links
    rw [← cons_append, ← hm, hl, append_assoc] at hlinks
    unfold Queues.queueNext
  · obtain ⟨-, ⟨hnext, hprev⟩, -⟩ := links_append_cons_cons.mp hlinks
    refine ⟨?_, hprev⟩
    rw [hnext, hbase, if_neg]
    rintro ⟨⟩
    -- the first element is behind none
    have hnodup := hring.nodup
    rw [← hm, hl] at hnodup
    cases l with
    | nil =>
      obtain rfl : a = b := (List.cons.inj (hl.symm.trans hm)).1
      simp at hnodup
    | cons d l =>
      obtain rfl : d = b := (List.cons.inj (hl.symm.trans hm)).1
      simp at hnodup
  · rw [hbase, (links_append_cons_cons.mp hlinks).2.1.1, if_pos rfl]

theorem queueRun_rings_two : ((((⟨fun _ => none, id, id⟩ : Queues ℕ ℕ).enqueue .thread 0 1).enqueue
    .thread 0 2).dequeue .thread 0).1 = some 1 :=
  (queueRun_rings (.enqueue 0 2 (.enqueue 0 1 (.init id id fun _ => ⟨rfl, rfl⟩) (by simp))
    fun q => by by_cases hq : q = 0 <;> simp [hq])).1 0

end MachKernel.Ipc.Rings
