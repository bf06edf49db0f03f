import MachKernel.Ipc.Entry
import MachKernel.Lib.Runs
import Mathlib.Data.List.GetD

/-! The dead-name requests of a port (`ipc/ipc_port.c`): a table whose free slots are threaded into
a list, and which grows while the port is unlocked. -/

namespace MachKernel.Ipc.DnRequest
open FreeList Runs Function List

/-! ## The table -/

/-- `sizeof(struct ipc_port_request)`. -/
def sizeofRequest : ℕ := 8

/-- `ipc_table_dnrequests`: increasing sizes, up to a zero. -/
class RequestSizes where
  its : ℕ → ℕ
  first : 1 < its 0
  increasing : ∀ i, its (i + 1) ≠ 0 → its i < its (i + 1)

/-- `ipc_table_init`, with pages of 4096 bytes. -/
@[reducible] def requestInit : RequestSizes where
  its i := (tableFill 4096 63 2 sizeofRequest).getD i 0
  first := by decide +kernel
  increasing := by
    have h : ∀ i < 62, (tableFill 4096 63 2 sizeofRequest).getD i 0 <
        (tableFill 4096 63 2 sizeofRequest).getD (i + 1) 0 := by decide +kernel
    have hlen : (tableFill 4096 63 2 sizeofRequest).length = 63 := by decide +kernel
    intro i hi
    by_cases hlt : i < 62
    · exact h i hlt
    · refine absurd ?_ hi
      rw [getD_eq_default _ _ (by omega)]

/-- `ipr_soright`: a send-once right, or a space where the low bit is set. -/
inductive Soright
  | right (port : ℕ)
  | space (space : ℕ)
deriving DecidableEq

/-- `struct ipc_port_request`, from the second element of a table on; `notify` is `ipr_next` or
`ipr_soright`. -/
structure PortRequest where
  notify : ℕ ⊕ Soright
  name : MachPort
deriving DecidableEq

/-- `ipr_next`; a right is read as no index. -/
def PortRequest.next (ipr : PortRequest) : ℕ := ipr.notify.elim id fun _ => 0

/-- A table: `ipr_next` and `ipr_size` of its first element, which is an index here, and the others.
-/
structure Table where
  next : ℕ
  size : ℕ
  slot : ℕ → PortRequest

/-- The loop of `ipc_port_dngrow` that puts the new elements on the free list. -/
def addFree : ℕ → ℕ → (ℕ → PortRequest) → ℕ → (ℕ → PortRequest) × ℕ
  | 0, _, slot, free => (slot, free)
  | n + 1, i, slot, free => addFree n (i + 1) (update slot i ⟨.inl free, 0⟩) i

/-- A port, as far as its dead-name requests go. For a thread in `ipc_port_dngrow` without the lock,
the old table and the size of the new one. -/
structure DnPort where
  active : Bool
  dnrequests : Option (ℕ × Table)
  growing : ℕ → Option (Option ℕ × ℕ)

/-- A port without a table. -/
def DnPort.init : DnPort := ⟨true, none, fun _ => none⟩

inductive Event
  | dnrequest (name : MachPort) (soright : Soright)
  | dncancel (name : MachPort) (index : ℕ)
  | dnrename (index : ℕ) (oname nname : MachPort)
  -- up to where `ipc_port_dngrow` unlocks the port, and from where it has the lock again, with the
  -- address and the contents of the new table if there is one
  | dngrow (thread : ℕ)
  | dngrown (thread : ℕ) (ntable : Option (ℕ × (ℕ → PortRequest)))
  | destroy

inductive Reply
  | success
  | index (index : ℕ)
  | noSpace
  | resourceShortage
  | cancelled (soright : Option Soright)
  -- the calls of `ipc_notify_dead_name` and `ipc_port_delete_compat`
  | notified (calls : List (MachPort × Option Soright))

variable [RequestSizes]

def Table.elems (table : Table) : ℕ := RequestSizes.its table.size

/-- The new table of `ipc_port_dngrow`. -/
def grow (otable : Option Table) (its : ℕ) (ntable : ℕ → PortRequest) : Table :=
  let (osize, free, copied) :=
    match otable with
    | some otable => (otable.elems, otable.next,
        fun i => if 0 < i ∧ i < otable.elems then otable.slot i else ntable i)
    | none => (1, 0, ntable)
  let (slot, next) := addFree (RequestSizes.its its - osize) osize copied free
  ⟨next, its, slot⟩

/-- The loop of `ipc_port_destroy` over the table. -/
def notifications (table : Table) : List (MachPort × Option Soright) :=
  (List.range' 1 (table.elems - 1)).filterMap fun index =>
    let ipr := table.slot index
    if ipr.name = 0 then none else some (ipr.name, ipr.notify.getRight?)

namespace DnPort
variable (s : DnPort)

/-- `its` of `ipc_port_dngrow`. -/
def level : ℕ := s.dnrequests.elim 0 fun p => p.2.size + 1

def setTable (address : ℕ) (table : Table) : DnPort := { s with dnrequests := some (address, table) }

/-- `ipc_port_dnrequest`; `none` where the free slot has a name. -/
def dnrequest (name : MachPort) (soright : Soright) : Option (Reply × DnPort) :=
  match s.dnrequests with
  | none => some (.noSpace, s)
  | some (address, table) =>
    let index := table.next
    if index = 0 then some (.noSpace, s)
    else if (table.slot index).name ≠ 0 then none
    else some (.index index, s.setTable address { table with
      next := (table.slot index).next
      slot := update table.slot index ⟨.inr soright, name⟩ })

/-- `ipc_port_dncancel`; `none` where it goes through a missing table. -/
def dncancel (index : ℕ) : Option (Reply × DnPort) :=
  s.dnrequests.map fun (address, table) =>
    (.cancelled (table.slot index).notify.getRight?, s.setTable address { table with
      next := index
      slot := update table.slot index ⟨.inl table.next, 0⟩ })

/-- `ipc_port_dnrename`. -/
def dnrename (index : ℕ) (nname : MachPort) : Option (Reply × DnPort) :=
  s.dnrequests.map fun (address, table) => (.success, s.setTable address { table with
    slot := update table.slot index { table.slot index with name := nname } })

def dngrow (t : ℕ) : Reply × DnPort :=
  if RequestSizes.its s.level = 0 then (.resourceShortage, s)
  else (.success, { s with
    growing := update s.growing t (some (s.dnrequests.map Prod.fst, s.level)) })

def dngrown (t : ℕ) (ntable : Option (ℕ × (ℕ → PortRequest))) : Reply × DnPort :=
  match s.growing t, ntable with
  | some (otable, its), some (address, ntable) =>
    let s' := { s with growing := update s.growing t none }
    -- nobody else has slipped in and grown the table
    if s.active = true ∧ s.dnrequests.map Prod.fst = otable ∧ (otable = none ∨ s.level = its) then
      (.success, s'.setTable address (grow (s.dnrequests.map Prod.snd) its ntable))
    else (.success, s')
  | _, _ => (.resourceShortage, { s with growing := update s.growing t none })

/-- `ipc_port_destroy`. The table is not looked at again. -/
def destroy : Reply × DnPort :=
  (.notified (s.dnrequests.elim [] fun p => notifications p.2), { s with active := false })

def step : Event → Option (Reply × DnPort)
  | .dnrequest name soright => s.dnrequest name soright
  | .dncancel _ index => s.dncancel index
  | .dnrename index _ nname => s.dnrename index nname
  | .dngrow t => some (s.dngrow t)
  | .dngrown t ntable => some (s.dngrown t ntable)
  | .destroy => some s.destroy

/-- The assertions of the calls, on an index that lies in the table. A thread is in one call at a
time. -/
def Asserts : Event → Prop
  | .dnrequest name _ => s.active = true ∧ name ≠ 0
  | .dncancel name index => s.active = true ∧ 0 < index ∧ name ≠ 0 ∧
      ∃ p ∈ s.dnrequests, index < p.2.elems ∧ (p.2.slot index).name = name
  | .dnrename index oname nname => s.active = true ∧ 0 < index ∧ oname ≠ 0 ∧ nname ≠ 0 ∧
      ∃ p ∈ s.dnrequests, index < p.2.elems ∧ (p.2.slot index).name = oname
  | .dngrow t => s.active = true ∧ s.growing t = none
  | .dngrown _ _ => True
  | .destroy => s.active = true

end DnPort

/-! ## What the requests should be -/

/-- The outstanding requests by index, and the size that each thread in `ipc_port_dngrow` is to
reach. -/
structure Requests where
  pending : ℕ → Option (MachPort × Soright)
  seen : ℕ → ℕ

/-- What a call should do. -/
def Serves (m : Requests) (e : Event) (r : Reply) (m' : Requests) (s' : DnPort) : Prop :=
  match e with
  | .dnrequest name soright =>
    (∃ i, r = .index i ∧ 0 < i ∧ m.pending i = none ∧
      m' = { m with pending := update m.pending i (some (name, soright)) }) ∨
    r = .noSpace ∧ m' = m ∧ ∀ p ∈ s'.dnrequests, ∀ i, 0 < i → i < p.2.elems → m.pending i ≠ none
  | .dncancel name i => ∃ soright, m.pending i = some (name, soright) ∧ r = .cancelled soright ∧
      m' = { m with pending := update m.pending i none }
  | .dnrename i oname nname => ∃ soright, m.pending i = some (oname, soright) ∧ r = .success ∧
      m' = { m with pending := update m.pending i (some (nname, soright)) }
  | .dngrow t => m' = { m with seen := update m.seen t s'.level }
  | .dngrown t _ => m' = m ∧ (r = .success → s'.active = true → m.seen t < s'.level)
  | .destroy => ∃ l : List ℕ, l.Nodup ∧ (∀ i, i ∈ l ↔ m.pending i ≠ none) ∧
      r = .notified (l.filterMap fun i => (m.pending i).map fun p => (p.1, some p.2)) ∧
      s'.active = false

/-- The free list and the slots in use share out a table, and each slot in use has its request. -/
structure Holds (elems next : ℕ) (slot : ℕ → PortRequest)
    (pending : ℕ → Option (MachPort × Soright)) : Prop where
  pos : 0 < elems
  free : ∃ l, Chain (fun i => (slot i).next) next l ∧
    ∀ i, i ∈ l ↔ 0 < i ∧ i < elems ∧ pending i = none
  unused : ∀ i, 0 < i → i < elems → pending i = none → (slot i).name = 0
  used : ∀ {i p}, pending i = some p →
    0 < i ∧ i < elems ∧ p.1 ≠ 0 ∧ slot i = ⟨.inr p.2, p.1⟩

section
variable {elems next : ℕ} {slot slot' : ℕ → PortRequest} {i : ℕ} {p : MachPort × Soright}
  {pending : ℕ → Option (MachPort × Soright)}

omit [RequestSizes]

theorem Holds.none (slot : ℕ → PortRequest) : Holds 1 0 slot fun _ => none :=
  ⟨one_pos, ⟨[], rfl, fun i => by simp; omega⟩, fun i hi hlt _ => by omega, nofun⟩

theorem Holds.congr (h : Holds elems next slot pending)
    (heq : ∀ i, 0 < i → i < elems → slot' i = slot i) : Holds elems next slot' pending := by
  obtain ⟨l, hchain, hfree⟩ := h.free
  refine ⟨h.pos, ⟨l, hchain.congr fun i hi => ?_, hfree⟩, fun i hi hlt hi' => ?_, fun hp => ?_⟩
  · obtain ⟨hi, hlt, -⟩ := (hfree i).mp hi
    rw [heq i hi hlt]
  · rw [heq i hi hlt]
    exact h.unused i hi hlt hi'
  · obtain ⟨hi, hlt, hname, hslot⟩ := h.used hp
    exact ⟨hi, hlt, hname, (heq _ hi hlt).trans hslot⟩

/-- A slot whose request is gone is put in front of the free list. It is the one behind the table,
or one in the table. -/
theorem Holds.push {elems' : ℕ} (h : Holds elems next slot pending) (hi : 0 < i)
    (helems : elems' = elems ∧ i < elems ∧ pending i ≠ Option.none ∨ elems' = elems + 1 ∧ i = elems) :
    Holds elems' i (update slot i ⟨.inl next, 0⟩) (update pending i Option.none) := by
  obtain ⟨l, hchain, hfree⟩ := h.free
  have hpos := h.pos
  have hnot : i ∉ l := fun hmem => by
    obtain ⟨-, hlt, hnone⟩ := (hfree i).mp hmem
    rcases helems with ⟨-, -, hne⟩ | ⟨-, heq⟩
    · exact hne hnone
    · omega
  have hslot : ∀ j, j ≠ i → update slot i ⟨.inl next, 0⟩ j = slot j := fun j hj =>
    update_of_ne hj _ _
  refine ⟨by omega, ⟨i :: l, ⟨rfl, hi, ?_⟩, fun j => ?_⟩, fun j hj hlt hnone => ?_, fun {j q} hq => ?_⟩
  · dsimp only
    rw [update_self]
    refine hchain.congr fun j hj => ?_
    rw [hslot j fun hji => hnot (hji ▸ hj)]
  · rw [mem_cons, hfree]
    by_cases hji : j = i
    · subst hji
      simp only [true_or, update_self, and_true, true_iff]
      omega
    · have hlt : j < elems' ↔ j < elems := by omega
      rw [update_of_ne hji, or_iff_right hji, hlt]
  · by_cases hji : j = i
    · rw [hji, update_self]
    · rw [update_of_ne hji] at hnone
      rw [hslot j hji]
      exact h.unused j hj (by omega) hnone
  · have hji : j ≠ i := by
      rintro rfl
      rw [update_self] at hq
      cases hq
    rw [update_of_ne hji] at hq
    obtain ⟨hj, hlt, hname, heq⟩ := h.used hq
    exact ⟨hj, by omega, hname, (hslot j hji).trans heq⟩

/-- A slot in use, or the first free one, gets a request. -/
theorem Holds.take {next' : ℕ} (h : Holds elems next slot pending) (hi : 0 < i) (hlt : i < elems)
    (hname : p.1 ≠ 0) (hnext : pending i = Option.none ∧ next = i ∧ next' = (slot i).next ∨
      pending i ≠ Option.none ∧ next' = next) :
    Holds elems next' (update slot i ⟨.inr p.2, p.1⟩) (update pending i (some p)) := by
  obtain ⟨l, hchain, hfree⟩ := h.free
  have hslot : ∀ j, j ≠ i → update slot i ⟨.inr p.2, p.1⟩ j = slot j := fun j hj =>
    update_of_ne hj _ _
  have hrest : ∃ l', Chain (fun j => (slot j).next) next' l' ∧ ∀ j, j ∈ l' ↔ j ∈ l ∧ j ≠ i := by
    rcases hnext with ⟨hnone, rfl, rfl⟩ | ⟨hsome, rfl⟩
    · have hmem : next ∈ l := (hfree next).mpr ⟨hi, hlt, hnone⟩
      cases l with
      | nil => cases hmem
      | cons j l =>
        have hnodup := nodup_cons.mp hchain.nodup
        obtain ⟨rfl, -, hchain⟩ := hchain
        refine ⟨l, hchain, fun j => ?_⟩
        rw [mem_cons]
        constructor
        · exact fun hj => ⟨.inr hj, fun heq => hnodup.1 (heq ▸ hj)⟩
        · exact fun hj => hj.1.resolve_left hj.2
    · refine ⟨l, hchain, fun j => ⟨fun hj => ⟨hj, ?_⟩, And.left⟩⟩
      rintro rfl
      exact hsome ((hfree j).mp hj).2.2
  obtain ⟨l', hchain', hfree'⟩ := hrest
  refine ⟨h.pos, ⟨l', hchain'.congr fun j hj => ?_, fun j => ?_⟩, fun j hj hlt' hnone => ?_,
    fun {j q} hq => ?_⟩
  · rw [hslot j ((hfree' j).mp hj).2]
  · rw [hfree', hfree]
    by_cases hji : j = i
    · subst hji
      simp
    · rw [update_of_ne hji]
      tauto
  · have hji : j ≠ i := by
      rintro rfl
      rw [update_self] at hnone
      cases hnone
    rw [update_of_ne hji] at hnone
    rw [hslot j hji]
    exact h.unused j hj hlt' hnone
  · by_cases hji : j = i
    · subst hji
      rw [update_self] at hq
      cases hq
      exact ⟨hi, hlt, hname, update_self _ _ _⟩
    · rw [update_of_ne hji] at hq
      obtain ⟨hj, hlt', hname', heq⟩ := h.used hq
      exact ⟨hj, hlt', hname', (hslot j hji).trans heq⟩

theorem Holds.addFree (n : ℕ) (h : Holds elems next slot pending) :
    Holds (elems + n) (addFree n elems slot next).2 (addFree n elems slot next).1 pending := by
  induction n generalizing elems slot next with
  | zero => exact h
  | succ n ih =>
    have hnone : pending elems = Option.none := by
      by_contra hne
      obtain ⟨p, hp⟩ := Option.ne_none_iff_exists'.mp hne
      exact lt_irrefl _ (h.used hp).2.1
    have hpush := h.push h.pos (.inr ⟨rfl, rfl⟩)
    rw [← hnone, update_eq_self] at hpush
    rw [← Nat.add_assoc, Nat.add_right_comm]
    exact ih hpush

end

/-- A new table has the requests of the old one, and is larger. -/
theorem Holds.grow {o : Option Table} {pending : ℕ → Option (MachPort × Soright)}
    (h : ∀ slot, Holds (o.elim 1 Table.elems) (o.elim 0 Table.next) (o.elim slot Table.slot) pending)
    {its : ℕ} (hits : its = o.elim 0 fun table => table.size + 1) (hsize : RequestSizes.its its ≠ 0)
    (ntable : ℕ → PortRequest) : Holds (RequestSizes.its its) (grow o its ntable).next
      (grow o its ntable).slot pending := by
  cases o with
  | none =>
    subst hits
    have hadd := (h ntable).addFree (RequestSizes.its 0 - 1)
    change Holds (1 + (RequestSizes.its 0 - 1)) _ _ _ at hadd
    rwa [Nat.add_sub_cancel' (le_of_lt RequestSizes.first)] at hadd
  | some table =>
    subst hits
    have hlt : table.elems < RequestSizes.its (table.size + 1) := RequestSizes.increasing _ hsize
    have hslot : ∀ i, 0 < i → i < table.elems →
        (if 0 < i ∧ i < table.elems then table.slot i else ntable i) = table.slot i :=
      fun i hi hi' => if_pos ⟨hi, hi'⟩
    have hadd := ((h ntable).congr hslot).addFree
      (RequestSizes.its (table.size + 1) - table.elems)
    change Holds (table.elems + (RequestSizes.its (table.size + 1) - table.elems)) _ _ _ at hadd
    rwa [Nat.add_sub_cancel' (le_of_lt hlt)] at hadd

/-- What a port has to do with the requests made at it. -/
structure DnPort.Rel (s : DnPort) (m : Requests) : Prop where
  holds : s.active = true → ∀ slot, Holds (s.dnrequests.elim 1 fun p => p.2.elems)
    (s.dnrequests.elim 0 fun p => p.2.next) (s.dnrequests.elim slot fun p => p.2.slot) m.pending
  growing : ∀ t o its, s.growing t = some (o, its) → its = m.seen t ∧ RequestSizes.its its ≠ 0 ∧
    its ≤ s.level ∧ (its = s.level → s.dnrequests.map Prod.fst = o)

namespace DnPort.Rel
variable {s : DnPort} {m : Requests} {address : ℕ} {table : Table}

theorem inTable (h : s.Rel m) (hactive : s.active = true) (hd : s.dnrequests = some (address, table)) :
    Holds table.elems table.next table.slot m.pending := by
  have hholds := h.holds hactive table.slot
  rw [hd] at hholds
  exact hholds

theorem setTable (h : s.Rel m) (hd : s.dnrequests = some (address, table)) {next : ℕ}
    {slot : ℕ → PortRequest} {pending : ℕ → Option (MachPort × Soright)}
    (hholds : Holds table.elems next slot pending) :
    (s.setTable address { table with next, slot }).Rel { m with pending } := by
  refine ⟨fun _ _ => hholds, fun t o its ht => ?_⟩
  have hgrow := h.growing t o its ht
  simp only [level, hd] at hgrow
  exact hgrow

/-- The request in a slot that has a name. -/
theorem named (h : s.Rel m) (hactive : s.active = true) (hd : s.dnrequests = some (address, table))
    {i : ℕ} {name : MachPort} (hi : 0 < i) (hlt : i < table.elems) (hname : name ≠ 0)
    (hslot : (table.slot i).name = name) :
    ∃ soright, m.pending i = some (name, soright) ∧ table.slot i = ⟨.inr soright, name⟩ := by
  have hholds := h.inTable hactive hd
  cases hp : m.pending i with
  | none => exact absurd ((hholds.unused i hi hlt hp).symm.trans hslot) hname.symm
  | some p =>
    obtain ⟨-, -, -, heq⟩ := hholds.used hp
    obtain rfl : p.1 = name := by rw [← hslot, heq]
    exact ⟨p.2, rfl, heq⟩

/-- A thread leaves `ipc_port_dngrow`. -/
theorem leave (h : s.Rel m) (t : ℕ) : { s with growing := update s.growing t none }.Rel m := by
  refine ⟨h.holds, fun t' o its ht' => h.growing t' o its ?_⟩
  by_cases htt : t' = t
  · subst htt
    simp at ht'
  · exact (update_of_ne htt _ _).symm.trans ht'

theorem dnrequest (h : s.Rel m) {name : MachPort} (soright : Soright) (hactive : s.active = true)
    (hname : name ≠ 0) : ∃ r s' m', s.dnrequest name soright = some (r, s') ∧
      Serves m (.dnrequest name soright) r m' s' ∧ s'.Rel m' := by
  unfold DnPort.dnrequest
  cases hd : s.dnrequests with
  | none => exact ⟨_, _, m, rfl, .inr ⟨rfl, rfl, by simp [hd]⟩, h⟩
  | some p =>
    obtain ⟨address, table⟩ := p
    have hholds := h.inTable hactive hd
    obtain ⟨l, hchain, hfree⟩ := hholds.free
    dsimp only
    cases l with
    | nil =>
      rw [if_pos (show table.next = 0 from hchain)]
      refine ⟨_, _, m, rfl, .inr ⟨rfl, rfl, fun p hp i hi hlt hnone => ?_⟩, h⟩
      obtain rfl := Option.some.inj (hd.symm.trans hp)
      exact not_mem_nil ((hfree i).mpr ⟨hi, hlt, hnone⟩)
    | cons i l =>
      obtain ⟨rfl, hpos, -⟩ := hchain
      obtain ⟨-, hlt, hnone⟩ := (hfree _).mp mem_cons_self
      rw [if_neg hpos.ne', if_neg (not_not.mpr (hholds.unused _ hpos hlt hnone))]
      exact ⟨_, _, _, rfl, .inl ⟨_, rfl, hpos, hnone, rfl⟩, h.setTable hd
        (hholds.take (p := (name, soright)) hpos hlt hname (.inl ⟨hnone, rfl, rfl⟩))⟩

theorem destroy (h : s.Rel m) (hactive : s.active = true) :
    Serves m .destroy s.destroy.1 m s.destroy.2 ∧ s.destroy.2.Rel m := by
  refine ⟨?_, nofun, h.growing⟩
  unfold DnPort.destroy
  have hholds := h.holds hactive fun _ => ⟨.inl 0, 0⟩
  cases hd : s.dnrequests with
  | none =>
    rw [hd] at hholds
    refine ⟨[], nodup_nil, fun i => iff_of_false not_mem_nil fun hne => ?_, rfl, rfl⟩
    obtain ⟨p, hp⟩ := Option.ne_none_iff_exists'.mp hne
    obtain ⟨hi, hlt, -⟩ := hholds.used hp
    change i < 1 at hlt
    omega
  | some p =>
    obtain ⟨address, table⟩ := p
    replace hholds := h.inTable hactive hd
    refine ⟨(List.range' 1 (table.elems - 1)).filter fun i => (m.pending i).isSome,
      Nodup.filter _ nodup_range', fun i => ?_, congrArg Reply.notified ?_, rfl⟩
    · rw [mem_filter, mem_range'_1, Option.isSome_iff_ne_none, and_iff_right_iff_imp]
      intro hne
      obtain ⟨p, hp⟩ := Option.ne_none_iff_exists'.mp hne
      obtain ⟨hi, hlt, -⟩ := hholds.used hp
      omega
    · rw [filterMap_filter]
      refine filterMap_congr fun i hi => ?_
      obtain ⟨hpos, hlt⟩ : 1 ≤ i ∧ i < 1 + (table.elems - 1) := mem_range'_1.mp hi
      cases hp : m.pending i with
      | none => simp [hholds.unused i (by omega) (by omega) hp]
      | some p =>
        obtain ⟨-, -, hname, heq⟩ := hholds.used hp
        simp [heq, hname]

theorem dngrow (h : s.Rel m) {t : ℕ} (ht : s.growing t = none) :
    Serves m (.dngrow t) (s.dngrow t).1 { m with seen := update m.seen t s.level } (s.dngrow t).2 ∧
      (s.dngrow t).2.Rel { m with seen := update m.seen t s.level } := by
  unfold DnPort.dngrow
  split_ifs with hsize
  · refine ⟨rfl, h.holds, fun t' o its ht' => ?_⟩
    have hne : t' ≠ t := by
      rintro rfl
      rw [ht] at ht'
      cases ht'
    dsimp only
    rw [update_of_ne hne]
    exact h.growing t' o its ht'
  · refine ⟨rfl, h.holds, fun t' o its ht' => ?_⟩
    dsimp only at ht' ⊢
    by_cases htt : t' = t
    · subst htt
      rw [update_self] at ht' ⊢
      cases ht'
      exact ⟨rfl, hsize, le_rfl, fun _ => rfl⟩
    · rw [update_of_ne htt] at ht' ⊢
      exact h.growing t' o its ht'

theorem dngrown (h : s.Rel m) (t : ℕ) (ntable : Option (ℕ × (ℕ → PortRequest))) :
    Serves m (.dngrown t ntable) (s.dngrown t ntable).1 m (s.dngrown t ntable).2 ∧
      (s.dngrown t ntable).2.Rel m := by
  unfold DnPort.dngrown
  split
  · next _ _ otable its address ntable ht =>
    obtain ⟨hits, hsize, hle, hsame⟩ := h.growing t otable its ht
    dsimp only
    split_ifs with hcond
    · obtain ⟨hactive, hold, heq⟩ := hcond
      have hlevel : s.level = its := by
        rcases heq with rfl | heq
        · rw [DnPort.level, Option.map_eq_none_iff.mp hold] at hle ⊢
          exact (Nat.le_zero.mp hle).symm
        · exact heq
      refine ⟨⟨rfl, fun _ _ => hits ▸ Nat.lt_succ_self _⟩, fun _ slot => ?_, fun t' o its' ht' => ?_⟩
      · refine Holds.grow (fun slot => ?_) (hlevel.symm.trans ?_) hsize ntable
        · have hholds := h.holds hactive slot
          cases hd : s.dnrequests <;> rw [hd] at hholds <;> exact hholds
        · rw [DnPort.level]
          cases s.dnrequests <;> rfl
      · obtain ⟨hits', hsize', hle', -⟩ := (h.leave t).growing t' o its' ht'
        have hlt : its' < its + 1 := Nat.lt_succ_of_le (hle'.trans_eq hlevel)
        exact ⟨hits', hsize', hlt.le, fun heq => absurd heq hlt.ne⟩
    · refine ⟨⟨rfl, fun _ hactive => ?_⟩, h.leave t⟩
      rw [← hits]
      refine lt_of_le_of_ne hle fun heq => hcond ⟨hactive, hsame heq, .inr heq.symm⟩
  · exact ⟨⟨rfl, nofun⟩, h.leave t⟩

theorem step (h : s.Rel m) {e : Event} (he : s.Asserts e) :
    ∃ r s' m', s.step e = some (r, s') ∧ Serves m e r m' s' ∧ s'.Rel m' := by
  cases e with
  | dnrequest name soright => exact h.dnrequest soright he.1 he.2
  | dncancel name i =>
    obtain ⟨hactive, hi, hname, ⟨address, table⟩, hd, hlt, hslot⟩ := he
    obtain ⟨soright, hp, heq⟩ := h.named hactive hd hi hlt hname hslot
    have hpush := (h.inTable hactive hd).push hi (.inl ⟨rfl, hlt, by simp [hp]⟩)
    refine ⟨_, _, _, by rw [DnPort.step, DnPort.dncancel, hd]; rfl, ⟨soright, hp, ?_, rfl⟩,
      h.setTable hd hpush⟩
    rw [heq]
    rfl
  | dnrename i oname nname =>
    obtain ⟨hactive, hi, hname, hnew, ⟨address, table⟩, hd, hlt, hslot⟩ := he
    obtain ⟨soright, hp, heq⟩ := h.named hactive hd hi hlt hname hslot
    have htake := (h.inTable hactive hd).take (p := (nname, soright)) hi hlt hnew
      (.inr ⟨by simp [hp], rfl⟩)
    refine ⟨_, _, _, by rw [DnPort.step, DnPort.dnrename, hd]; rfl, ⟨soright, hp, rfl, rfl⟩, ?_⟩
    rw [heq]
    exact h.setTable hd htake
  | dngrow t => exact ⟨_, _, _, rfl, h.dngrow he.2⟩
  | dngrown t ntable => exact ⟨_, _, m, rfl, h.dngrown t ntable⟩
  | destroy => exact ⟨_, _, m, rfl, h.destroy he⟩

end DnPort.Rel

/-- Whatever threads do with a port in whatever order, its table is a finite map of the outstanding
requests: none is lost or given twice, also while the table grows, and each is notified once. -/
theorem dnrequests_run {es : List Event} (hes : Along DnPort.step DnPort.Asserts .init es) :
    Does DnPort.step Serves .init ⟨fun _ => none, fun _ => 0⟩ es :=
  Does.of_simulation DnPort.Rel (fun _ _ _ h he => h.step he)
    ⟨fun _ slot => Holds.none slot, nofun⟩ hes

omit [RequestSizes] in
theorem dnrequests_run_destroy : letI := requestInit
    Does DnPort.step Serves .init ⟨fun _ => none, fun _ => 0⟩
      [.dngrow 0, .dngrown 0 (some (1, fun _ => ⟨.inl 0, 0⟩)), .dnrequest 5 (.right 7), .destroy] := by
  let _ := requestInit
  refine dnrequests_run ⟨⟨rfl, rfl⟩, ?_⟩
  rintro _ ⟨⟩
  refine ⟨trivial, ?_⟩
  rintro _ ⟨⟩
  refine ⟨⟨rfl, by decide⟩, ?_⟩
  rintro _ ⟨⟩
  refine ⟨rfl, ?_⟩
  rintro _ ⟨⟩
  trivial

end MachKernel.Ipc.DnRequest
