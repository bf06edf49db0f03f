import MachKernel.Boot.PageMap
import Mathlib.Data.List.Forall2

/-! The default pager (`boot_ufs/default_pager.c`) as a store of pages: its messages, processed one
after another, over a partition that may move a page in pieces. -/

namespace MachKernel.Boot
open Function List
open Vm Word32
variable {σ Byte : Type}

section
variable [PageSize]

/-- The routines of a partition: `p_read` gives the bytes at the start of those asked for, `p_write`
the number it has written, unless they fail. -/
structure Device (σ Byte : Type) where
  pRead : σ → ℕ → ℕ → Option (List Byte) × σ
  pWrite : σ → ℕ → List Byte → Option ℕ × σ

/-- Transfers succeed, each moves at least one byte, and reads see what was written. -/
structure Device.Reliable (dev : Device σ Byte) (bytes : σ → ℕ → Byte) (limit : ℕ) : Prop where
  read : ∀ s offset size, 0 < size → offset + size ≤ limit → ∃ n s', dev.pRead s offset size =
      (some ((List.range n).map fun k => bytes s (offset + k)), s') ∧
      0 < n ∧ n ≤ size ∧ bytes s' = bytes s
  write : ∀ s offset data, data ≠ [] → offset + data.length ≤ limit →
    ∃ n s', dev.pWrite s offset data = (some n, s') ∧ 0 < n ∧ n ≤ data.length ∧ ∀ a, bytes s' a =
        if offset ≤ a ∧ a < offset + n then data[a - offset]?.getD (bytes s a) else bytes s a

/-- The loop of `default_read`: all bytes, and whether the first read had them. -/
def readPieces (dev : Device σ Byte) :
    ℕ → Bool → List Byte → ℕ → ℕ → σ → Except Stop (Option (Bool × List Byte) × σ)
  | 0, _, _, _, _, _ => .error .spins
  | turns + 1, firstTime, done, offset, size, s =>
    match dev.pRead s offset size with
    | (none, s) => .ok (none, s)
    | (some piece, s) =>
      if size < piece.length then .error .wild
      else if size = piece.length then .ok (some (firstTime, done ++ piece), s)
      else readPieces dev turns false (done ++ piece) (offset + piece.length)
        (size - piece.length) s

/-- The loop of `default_write`. -/
def writePieces (dev : Device σ Byte) : ℕ → ℕ → List Byte → σ → Except Stop (Bool × σ)
  | 0, _, _, _ => .error .spins
  | turns + 1, offset, data, s =>
    match dev.pWrite s offset data with
    | (none, s) => .ok (false, s)
    | (some wsize, s) =>
      if data.length < wsize then .error .wild
      else if data.length = wsize then .ok (true, s)
      else writePieces dev turns (offset + wsize) (data.drop wsize) s

inductive ReadResult (Byte : Type)
  | success (whole : Bool) (data : List Byte)
  | absent
  | error

/-- `default_read`, of one page. -/
def defaultRead (dev : Device σ Byte) (ds : Dpager) (offset : ℕ) (s : σ) :
    Except Stop (ReadResult Byte × σ) :=
  match pagerReadOffset ds (atop offset) with
  | .error stop => .error stop
  | .ok none => .ok (.absent, s)
  | .ok (some block) =>
    (readPieces dev pageSize true [] (block * pageSize) pageSize s).map fun (got, s) =>
      (got.elim .error fun (whole, data) => .success whole data, s)

/-- `struct dstruct`: its port, the count of errors and the map. -/
structure Dstruct where
  pager : ℕ
  errors : ℕ
  dpager : Dpager

/-- The structures with their addresses, `pager_port_hashtable`, and the default partition. -/
structure Server (σ : Type) where
  table : ℕ → List ℕ
  dstruct : ℕ → Dstruct
  next : ℕ
  part : Part
  device : σ

def pagerPortHash (port : ℕ) : ℕ := ((port >>> 9) + (port &&& 0x1ff)) % 127

/-- What a client is told about a page; `memory_object_data_supply` also takes the buffer. -/
inductive Reply (Byte : Type)
  | dataSupply (offset : ℕ) (data : List Byte)
  | dataProvided (offset : ℕ) (data : List Byte)
  | dataUnavailable (offset : ℕ)
  | dataError (offset : ℕ)

inductive Message (Byte : Type)
  | create (newPager newSize : ℕ)
  | dataRequest (pager offset length : ℕ)
  | dataInitialize (pager offset : ℕ) (data : List Byte)
  | dataWrite (pager offset : ℕ) (data : List Byte)

/-- The pages of the data in a message, with their offsets in the object. -/
def pagesOf (offset : ℕ) (data : List Byte) : List (ℕ × List Byte) :=
  (List.range (howmany data.length pageSize)).map fun j =>
    (add offset (j * pageSize), (data.drop (j * pageSize)).take pageSize)

namespace Server
variable (s : Server σ) (dev : Device σ Byte)

def pagerPortLookup (port : ℕ) : Option ℕ :=
  (s.table (pagerPortHash port)).find? fun ds => (s.dstruct ds).pager = port

/-- `seqnos_memory_object_create`. -/
def memoryObjectCreate (newPager newSize : ℕ) : Server σ :=
  let bucket := pagerPortHash newPager
  { s with
    table := update s.table bucket (s.table bucket ++ [s.next])
    dstruct := update s.dstruct s.next ⟨newPager, 0, pagerAlloc (atop newSize)⟩
    next := s.next + 1 }

def setDpager (ds : ℕ) (dpager : Dpager) : Server σ :=
  { s with dstruct := update s.dstruct ds { s.dstruct ds with dpager } }

/-- `default_write`, of one page. -/
def defaultWrite (ds offset : ℕ) (data : List Byte) : Except Stop (Bool × Server σ) :=
  match pagerWriteOffset (s.dstruct ds).dpager (atop offset) s.part with
  | .error stop => .error stop
  | .ok (block, dpager, part) =>
    (writePieces dev data.length (block * pageSize) data s.device).map fun (ok, device) =>
      (ok, { s.setDpager ds dpager with part, device })

/-- A turn of the loop of `data_write`. -/
def writeTurn (ds : ℕ) (page : ℕ × List Byte) : Except Stop (Server σ) :=
  (s.defaultWrite dev ds page.1 page.2).map fun (ok, s) =>
    if ok then s
    else
      { s with
        dstruct := update s.dstruct ds { s.dstruct ds with errors := (s.dstruct ds).errors + 1 } }

/-- A turn of the loop of `data_initialize`. -/
def initializeTurn (ds : ℕ) (page : ℕ × List Byte) : Except Stop (Server σ) :=
  match pagerReadOffset (s.dstruct ds).dpager (atop page.1) with
  | .error stop => .error stop
  | .ok none => s.writeTurn dev ds page
  | .ok (some _) => .ok s

/-- The reply of `data_request`. -/
def replyTo (offset : ℕ) : ReadResult Byte → Reply Byte
  | .success true data => .dataSupply offset data
  | .success false data => .dataProvided offset data
  | .absent => .dataUnavailable offset
  | .error => .dataError offset

/-- What the pager does with a message. -/
def step : Message Byte → Except Stop (Option (Reply Byte) × Server σ)
  | .create newPager newSize => .ok (none, s.memoryObjectCreate newPager newSize)
  | .dataRequest pager offset length =>
    if length ≠ pageSize then .error (.panic "(default_pager)data_request")
    else
      match s.pagerPortLookup pager with
      | none => .error (.panic "(default_pager)data_request")
      | some ds =>
        if (s.dstruct ds).errors ≠ 0 then .ok (some (.dataError offset), s)
        else
          (defaultRead dev (s.dstruct ds).dpager offset s.device).map fun (rc, device) =>
            (some (replyTo offset rc), { s with device })
  | .dataInitialize pager offset data =>
    match s.pagerPortLookup pager with
    | none => .error (.panic "(default_pager)data_intialize")
    | some ds =>
      ((pagesOf offset data).foldlM (fun s page => initializeTurn s dev ds page) s).map
        fun s => (none, s)
  | .dataWrite pager offset data =>
    if data.length % pageSize ≠ 0 then .error (.panic "(default_pager)data_write")
    else
      match s.pagerPortLookup pager with
      | none => .error (.panic "(default_pager)data_write")
      | some ds =>
        ((pagesOf offset data).foldlM (fun s page => writeTurn s dev ds page) s).map
          fun s => (none, s)

/-- The replies to a row of messages. -/
def runs : Server σ → List (Message Byte) → Except Stop (List (Option (Reply Byte)) × Server σ)
  | s, [] => .ok ([], s)
  | s, m :: ms => (s.step dev m).bind fun (reply, s) =>
    (runs s ms).map fun (replies, s) => (reply :: replies, s)

/-- The block of a page of an object. -/
def block (pager fPage : ℕ) : Option ℕ :=
  (s.pagerPortLookup pager).bind fun ds => (s.dstruct ds).dpager.block fPage

/-- The blocks that the pages of a message need. -/
def need (pager : ℕ) (pages : List (ℕ × List Byte)) : ℕ :=
  pages.countP fun page => s.block pager (atop page.1) = none

/-- What the kernel sends: whole pages, to an object that has been created, and no more of them than
there are free blocks for. -/
def Allowed : Message Byte → Prop
  | .create newPager _ => s.pagerPortLookup newPager = none
  | .dataRequest pager _ length => s.pagerPortLookup pager ≠ none ∧ length = pageSize
  | .dataInitialize pager offset data | .dataWrite pager offset data =>
    s.pagerPortLookup pager ≠ none ∧ data.length % pageSize = 0 ∧
      s.need pager (pagesOf offset data) ≤ s.part.free

/-- The pages that are looked up lie in the map as it is. -/
def InMap : Message Byte → Prop
  | .dataRequest pager offset _ =>
    ∀ ds ∈ s.pagerPortLookup pager, atop offset < (s.dstruct ds).dpager.size
  | .dataInitialize pager offset data =>
    ∀ ds ∈ s.pagerPortLookup pager,
      ∀ page ∈ pagesOf offset data, atop page.1 < (s.dstruct ds).dpager.size
  | _ => True

instance : ∀ m : Message Byte, Decidable (s.Allowed m)
  | .create _ _ => inferInstanceAs (Decidable (_ = _))
  | .dataRequest _ _ _ => inferInstanceAs (Decidable (_ ∧ _))
  | .dataInitialize _ _ _ | .dataWrite _ _ _ => inferInstanceAs (Decidable (_ ∧ _ ∧ _))

instance : ∀ m : Message Byte, Decidable (s.InMap m)
  | .dataRequest _ _ _ => inferInstanceAs (Decidable (∀ _ ∈ _, _))
  | .dataInitialize _ _ _ => inferInstanceAs (Decidable (∀ _ ∈ _, ∀ _ ∈ _, _))
  | .create _ _ | .dataWrite _ _ _ => isTrue trivial

/-- A row of messages that all meet a condition when their turn comes. -/
def Run (P : Server σ → Message Byte → Prop) (s : Server σ) : List (Message Byte) → Prop
  | [] => True
  | m :: ms => P s m ∧ match s.step dev m with
    | .ok (_, s') => s'.Run P ms
    | .error _ => True

instance decidableRun (P : Server σ → Message Byte → Prop) [∀ s, DecidablePred (P s)] :
    ∀ (s : Server σ) (ms : List (Message Byte)), Decidable (s.Run dev P ms)
  | _, [] => isTrue trivial
  | s, m :: ms =>
    have : Decidable (match s.step dev m with
        | .ok (_, s') => s'.Run dev P ms
        | .error _ => True) :=
      match s.step dev m with
      | .ok (_, s') => decidableRun P s' ms
      | .error _ => isTrue trivial
    inferInstanceAs (Decidable (_ ∧ _))

def init (size : ℕ) (device : σ) : Server σ :=
  ⟨fun _ => [], fun _ => ⟨0, 0, pagerAlloc 0⟩, 0, partCreate size, device⟩

end Server

/-- A store of pages: an object and the number of a page in it. -/
abbrev Store (Byte : Type) := ℕ → ℕ → Option (List Byte)

namespace Store
variable (store : Store Byte)

def put (pager : ℕ) (page : ℕ × List Byte) : Store Byte :=
  update store pager (update (store pager) (atop page.1) (some page.2))

def putNew (pager : ℕ) (page : ℕ × List Byte) : Store Byte :=
  if store pager (atop page.1) = none then store.put pager page else store

/-- What a message does to a store of pages. -/
def after : Message Byte → Store Byte
  | .create _ _ | .dataRequest _ _ _ => store
  | .dataInitialize pager offset data =>
    (pagesOf offset data).foldl (fun store page => store.putNew pager page) store
  | .dataWrite pager offset data =>
    (pagesOf offset data).foldl (fun store page => store.put pager page) store

/-- The right reply to a message. -/
def Answers : Message Byte → Option (Reply Byte) → Prop
  | .dataRequest pager offset _, reply =>
    match store pager (atop offset) with
    | some data => reply = some (.dataSupply offset data) ∨ reply = some (.dataProvided offset data)
    | none => reply = some (.dataUnavailable offset)
  | _, reply => reply = none

/-- The right replies to a row of messages. -/
def AnswersAll : Store Byte → List (Message Byte) → List (Option (Reply Byte)) → Prop
  | _, [], replies => replies = []
  | store, m :: ms, replies =>
    ∃ reply rest, replies = reply :: rest ∧ store.Answers m reply ∧ AnswersAll (store.after m) ms rest

end Store

/-! ## Transfers -/

section
variable {dev : Device σ Byte} {bytes : σ → ℕ → Byte} {limit : ℕ}

omit [PageSize] in
theorem Device.Reliable.readPieces (h : dev.Reliable bytes limit) (turns offset size : ℕ) (s : σ)
    (firstTime : Bool) (done : List Byte) (hpos : 0 < size) (hturns : size ≤ turns)
    (hlimit : offset + size ≤ limit) :
    ∃ whole s', readPieces dev turns firstTime done offset size s =
      .ok (some (whole, done ++ (List.range size).map fun k => bytes s (offset + k)), s') ∧
      bytes s' = bytes s := by
  induction turns generalizing firstTime done offset size s with
  | zero => omega
  | succ turns ih =>
    obtain ⟨n, s', hread, hn, hle, hbytes⟩ := h.read s offset size hpos hlimit
    have hlen : ((List.range n).map fun k => bytes s (offset + k)).length = n := by simp
    simp only [Boot.readPieces, hread, hlen, if_neg (not_lt.2 hle)]
    split_ifs with heq
    · exact ⟨firstTime, s', by rw [heq], hbytes⟩
    · obtain ⟨whole, s'', hrest, hbytes'⟩ := ih (offset + n) (size - n) s' false
        (done ++ (List.range n).map fun k => bytes s (offset + k)) (by omega) (by omega) (by omega)
      refine ⟨whole, s'', ?_, hbytes'.trans hbytes⟩
      have hsplit : List.range size = List.range n ++ (List.range (size - n)).map (n + ·) := by
        rw [← List.range_add, Nat.add_sub_cancel' hle]
      rw [hrest, hsplit, hbytes, append_assoc, map_append, map_map]
      simp only [comp_def, Nat.add_assoc]

omit [PageSize] in
theorem Device.Reliable.writePieces (h : dev.Reliable bytes limit) (turns offset : ℕ)
    (data : List Byte) (s : σ) (hdata : data ≠ []) (hturns : data.length ≤ turns)
    (hlimit : offset + data.length ≤ limit) :
    ∃ s', writePieces dev turns offset data s = .ok (true, s') ∧ ∀ a, bytes s' a =
      if offset ≤ a ∧ a < offset + data.length then data[a - offset]?.getD (bytes s a)
      else bytes s a := by
  have hlen : 0 < data.length := List.length_pos_iff.2 hdata
  induction turns generalizing offset data s with
  | zero => omega
  | succ turns ih =>
    obtain ⟨n, s', hwrite, hn, hle, hbytes⟩ := h.write s offset data hdata hlimit
    simp only [Boot.writePieces, hwrite, if_neg (not_lt.2 hle)]
    split_ifs with heq
    · exact ⟨s', rfl, by rw [heq]; exact hbytes⟩
    · have hdrop : (data.drop n).length = data.length - n := List.length_drop
      have hpos : 0 < (data.drop n).length := by omega
      obtain ⟨s'', hrest, hbytes'⟩ := ih (offset + n) (data.drop n) s'
        (List.length_pos_iff.1 hpos) (by omega) (by omega) hpos
      refine ⟨s'', hrest, fun a => ?_⟩
      rw [hbytes' a, hbytes a, hdrop, List.getElem?_drop]
      by_cases h1 : offset ≤ a ∧ a < offset + n
      · -- in the first piece
        have hin : offset ≤ a ∧ a < offset + data.length := by omega
        rw [if_neg (by omega), if_pos h1, if_pos hin]
      · rw [if_neg h1]
        by_cases h2 : offset + n ≤ a ∧ a < offset + n + (data.length - n)
        · have hin : offset ≤ a ∧ a < offset + data.length := by omega
          rw [if_pos h2, if_pos hin, show n + (a - (offset + n)) = a - offset by omega]
        · rw [if_neg h2, if_neg (by omega)]

end

/-! ## The store behind the maps -/

/-- The page in a block. -/
def pageAt (bytes : σ → ℕ → Byte) (device : σ) (block : ℕ) : List Byte :=
  (List.range pageSize).map fun k => bytes device (block * pageSize + k)

namespace Server
variable {s s' : Server σ} {dev : Device σ Byte} {bytes : σ → ℕ → Byte} {total : ℕ}
  {store : Store Byte} {taken : Finset ℕ} {port ds : ℕ}

/-- The maps, the bitmap and the bytes of the partition hold the pages of the store. -/
structure Stores (s : Server σ) (bytes : σ → ℕ → Byte) (total : ℕ) (store : Store Byte)
    (taken : Finset ℕ) : Prop where
  marks : s.part.Marks taken
  total : s.part.totalSize = total
  chain : ∀ bucket, ∀ ds ∈ s.table bucket, ds < s.next
  good : ∀ port ds, s.pagerPortLookup port = some ds →
    (s.dstruct ds).errors = 0 ∧ (s.dstruct ds).dpager.Fits
  taken : ∀ port i b, s.block port i = some b → b ∈ taken
  inj : ∀ p i q j b, s.block p i = some b → s.block q j = some b → p = q ∧ i = j
  content : ∀ port i, store port i = (s.block port i).map (pageAt bytes s.device)

section
omit [PageSize]

theorem pager_of_lookup (h : s.pagerPortLookup port = some ds) : (s.dstruct ds).pager = port := by
  simpa using find?_some h

theorem block_of_lookup (h : s.pagerPortLookup port = some ds) :
    s.block port = (s.dstruct ds).dpager.block := by
  funext i
  simp [block, h]

theorem lookup_setDpager (dpager : Dpager) :
    (s.setDpager ds dpager).pagerPortLookup = s.pagerPortLookup := by
  funext q
  unfold pagerPortLookup setDpager
  congr 1
  funext d
  rcases eq_or_ne d ds with rfl | h
  · simp
  · simp [h]

theorem block_setDpager (h : s.pagerPortLookup port = some ds) (dpager : Dpager) :
    (s.setDpager ds dpager).block = update s.block port dpager.block := by
  funext q
  rcases eq_or_ne q port with rfl | hq
  · rw [update_self, block_of_lookup (by rw [lookup_setDpager]; exact h)]
    simp [setDpager]
  · rw [update_of_ne hq]
    funext j
    unfold block
    rw [lookup_setDpager]
    cases hd : s.pagerPortLookup q with
    | none => rfl
    | some d =>
      have hne : d ≠ ds := by
        rintro rfl
        exact hq ((pager_of_lookup hd).symm.trans (pager_of_lookup h))
      simp [setDpager, update_of_ne hne]

end

/-- What a page that is written leaves of the rest. -/
structure Grows (s s' : Server σ) : Prop where
  lookup : s'.pagerPortLookup = s.pagerPortLookup
  block : ∀ q j, s'.block q j = none → s.block q j = none
  size : ∀ d, (s.dstruct d).dpager.size ≤ (s'.dstruct d).dpager.size

variable {data : List Byte} {page : ℕ × List Byte} {pages : List (ℕ × List Byte)} {offset : ℕ}

theorem pageAt_eq {device : σ} {b : ℕ} (hlen : data.length = pageSize)
    (h : ∀ k (hk : k < data.length), bytes device (b * pageSize + k) = data[k]) :
    pageAt bytes device b = data := by
  refine List.ext_getElem (by simp [pageAt, hlen]) fun k h1 h2 => ?_
  simp only [pageAt, List.getElem_map, List.getElem_range]
  exact h k h2

/-- `default_write` puts a page into the store. -/
theorem Stores.defaultWrite (h : s.Stores bytes total store taken)
    (hdev : dev.Reliable bytes (total * pageSize)) (hl : s.pagerPortLookup port = some ds)
    (page : ℕ × List Byte) (hlen : page.2.length = pageSize)
    (hroom : s.block port (atop page.1) = none → s.part.free ≠ 0) :
    ∃ s' taken', s.defaultWrite dev ds page.1 page.2 = .ok (true, s') ∧
      s'.Stores bytes total (store.put port page) taken' ∧ s.Grows s' ∧
      s.part.free ≤ s'.part.free + if s.block port (atop page.1) = none then 1 else 0 := by
  obtain ⟨offset, data⟩ := page
  dsimp only at hlen hroom ⊢
  obtain ⟨b, part', taken', hassign, hmarks, htotal, hsub, hb, hwhich, hfree⟩ :=
    h.marks.blockOrAlloc (s.block port (atop offset)) (h.taken port (atop offset)) hroom
  have hfits := (h.good port ds hl).2
  obtain ⟨dpager, hwrite, hfits', hblock, hsize⟩ :=
    hfits.write (by rw [← block_of_lookup hl]; exact hassign)
  have hblt : b < total := h.total ▸ htotal ▸ hmarks.lt b hb
  have hlimit : b * pageSize + data.length ≤ total * pageSize := by
    rw [hlen, ← Nat.succ_mul]
    exact Nat.mul_le_mul_right _ hblt
  have hne : data ≠ [] := List.length_pos_iff.1 (hlen ▸ pageSize_pos)
  obtain ⟨device, hpieces, hbytes⟩ :=
    hdev.writePieces data.length (b * pageSize) data s.device hne le_rfl hlimit
  have hblocks : ({ s.setDpager ds dpager with part := part', device } : Server σ).block =
      update s.block port (update (s.block port) (atop offset) (some b)) := by
    have := block_setDpager hl dpager
    rw [hblock, ← block_of_lookup hl] at this
    exact this
  -- the block is not that of any other page
  have hother {q j b'} (hqj : ¬ (q = port ∧ j = atop offset)) (hb' : s.block q j = some b') :
      b' ≠ b := by
    rintro rfl
    rcases hwhich with hold | ⟨-, hnew⟩
    · exact hqj (h.inj _ _ _ _ _ hb' hold)
    · exact hnew (h.taken _ _ _ hb')
  have hcases (q j : ℕ) : update s.block port (update (s.block port) (atop offset) (some b)) q j =
        if q = port ∧ j = atop offset then some b else s.block q j := by
    by_cases hq : q = port
    · subst hq
      by_cases hj : j = atop offset <;> simp [hj]
    · simp [hq]
  refine ⟨{ s.setDpager ds dpager with part := part', device }, taken', ?_, ?_, ?_, hfree⟩
  · simp only [Server.defaultWrite, hwrite, hpieces, Except.map]
  · constructor
    case marks => exact hmarks
    case total => exact htotal.trans h.total
    case chain => exact h.chain
    case good =>
      intro q d hd
      have hd' : s.pagerPortLookup q = some d := (congrFun (lookup_setDpager dpager) q) ▸ hd
      have hg := h.good q d hd'
      rcases eq_or_ne d ds with rfl | hdne
      · simpa [setDpager] using ⟨hg.1, hfits'⟩
      · simpa [setDpager, hdne] using hg
    case taken =>
      intro q j b' hb'
      rw [hblocks, hcases] at hb'
      split_ifs at hb' with hqj
      · exact Option.some.inj hb' ▸ hb
      · exact hsub (h.taken q j b' hb')
    case inj =>
      intro p i q j b' h1 h2
      rw [hblocks, hcases] at h1 h2
      split_ifs at h1 h2 with hpi hqj hqj
      · exact ⟨hpi.1.trans hqj.1.symm, hpi.2.trans hqj.2.symm⟩
      · exact absurd (Option.some.inj h1).symm (hother hqj h2)
      · exact absurd (Option.some.inj h2).symm (hother hpi h1)
      · exact h.inj p i q j b' h1 h2
    case content =>
      intro q j
      rw [hblocks, hcases]
      by_cases hqj : q = port ∧ j = atop offset
      · obtain ⟨rfl, rfl⟩ := hqj
        rw [if_pos ⟨rfl, rfl⟩, Option.map_some, Store.put, update_self, update_self]
        refine congrArg some (pageAt_eq hlen fun k hk => ?_).symm
        rw [hbytes, if_pos (by omega), Nat.add_sub_cancel_left, getElem?_eq_getElem hk]
        rfl
      · have hput : store.put port (offset, data) q j = store q j := by
          unfold Store.put
          by_cases hq : q = port
          · subst hq
            rw [update_self, update_of_ne fun e => hqj ⟨rfl, e⟩]
          · rw [update_of_ne hq]
        rw [if_neg hqj, hput, h.content]
        cases hb' : s.block q j with
        | none => rfl
        | some b' =>
          refine congrArg some (map_congr_left fun k hk => ?_)
          have hk' := mem_range.1 hk
          rw [hbytes, if_neg]
          -- two blocks have no byte in common
          intro hin
          rcases lt_or_gt_of_ne (hother hqj hb') with hlt | hlt
          · have := Nat.mul_le_mul_right pageSize (Nat.succ_le_of_lt hlt)
            rw [Nat.succ_mul] at this
            omega
          · have := Nat.mul_le_mul_right pageSize (Nat.succ_le_of_lt hlt)
            rw [Nat.succ_mul] at this
            omega
  · refine ⟨lookup_setDpager dpager, fun q j hq => ?_, fun d => ?_⟩
    · rw [hblocks, hcases] at hq
      split_ifs at hq
      exact hq
    · rcases eq_or_ne d ds with rfl | hd
      · simpa [setDpager] using hsize
      · simp [setDpager, hd]

theorem Grows.need_le (h : s.Grows s') (hneed : s.need port (page :: pages) ≤ s.part.free)
    (hfree : s.part.free ≤ s'.part.free + if s.block port (atop page.1) = none then 1 else 0) :
    s'.need port pages ≤ s'.part.free := by
  have hle : s'.need port pages ≤ s.need port pages :=
    List.countP_mono_left fun p _ hp => by simpa using h.block port _ (by simpa using hp)
  rw [need, countP_cons] at hneed
  simp only [decide_eq_true_eq] at hneed
  unfold need at hle ⊢
  omega

theorem room_of_need (hneed : s.need port (page :: pages) ≤ s.part.free)
    (hb : s.block port (atop page.1) = none) : s.part.free ≠ 0 := by
  rw [need, countP_cons] at hneed
  simp only [hb, decide_true, if_true] at hneed
  omega

theorem Stores.writeTurn (h : s.Stores bytes total store taken)
    (hdev : dev.Reliable bytes (total * pageSize)) (hl : s.pagerPortLookup port = some ds)
    (page : ℕ × List Byte) (hlen : page.2.length = pageSize)
    (hroom : s.block port (atop page.1) = none → s.part.free ≠ 0) :
    ∃ s' taken', s.writeTurn dev ds page = .ok s' ∧
      s'.Stores bytes total (store.put port page) taken' ∧ s.Grows s' ∧
      s.part.free ≤ s'.part.free + if s.block port (atop page.1) = none then 1 else 0 := by
  obtain ⟨s', taken', hwrite, hrest⟩ := h.defaultWrite hdev hl page hlen hroom
  refine ⟨s', taken', ?_, hrest⟩
  rw [Server.writeTurn, hwrite]
  rfl

omit [PageSize] in
theorem Grows.rfl : s.Grows s := ⟨Eq.refl _, fun _ _ h => h, fun _ => le_rfl⟩

theorem Stores.initializeTurn (h : s.Stores bytes total store taken)
    (hdev : dev.Reliable bytes (total * pageSize)) (hl : s.pagerPortLookup port = some ds)
    (page : ℕ × List Byte) (hlen : page.2.length = pageSize)
    (hroom : s.block port (atop page.1) = none → s.part.free ≠ 0)
    (hsize : atop page.1 < (s.dstruct ds).dpager.size) :
    ∃ s' taken', s.initializeTurn dev ds page = .ok s' ∧
      s'.Stores bytes total (store.putNew port page) taken' ∧ s.Grows s' ∧
      s.part.free ≤ s'.part.free + if s.block port (atop page.1) = none then 1 else 0 := by
  have hread := (h.good port ds hl).2.read hsize
  rw [← block_of_lookup hl] at hread
  have hstore := h.content port (atop page.1)
  cases hb : s.block port (atop page.1) with
  | none =>
    obtain ⟨s', taken', hturn, hrest⟩ := h.writeTurn hdev hl page hlen hroom
    rw [hb] at hread hrest
    rw [hb, Option.map_none] at hstore
    refine ⟨s', taken', by simpa only [Server.initializeTurn, hread] using hturn, ?_⟩
    rwa [Store.putNew, if_pos hstore]
  | some b =>
    rw [hb] at hread hstore
    refine ⟨s, taken, by simp only [Server.initializeTurn, hread], ?_, .rfl, Nat.le_add_right _ _⟩
    rw [Store.putNew, if_neg (by simp [hstore])]
    exact h

/-- The loop of `data_write`. -/
theorem Stores.writeLoop (h : s.Stores bytes total store taken)
    (hdev : dev.Reliable bytes (total * pageSize)) (hl : s.pagerPortLookup port = some ds)
    (hlen : ∀ page ∈ pages, page.2.length = pageSize) (hneed : s.need port pages ≤ s.part.free) :
    ∃ s' taken', pages.foldlM (fun s page => s.writeTurn dev ds page) s = .ok s' ∧
      s'.Stores bytes total (pages.foldl (fun store page => store.put port page) store) taken' := by
  induction pages generalizing s store taken with
  | nil => exact ⟨s, taken, rfl, h⟩
  | cons page pages ih =>
    obtain ⟨s', taken', hturn, hstores, hgrows, hfree⟩ := h.writeTurn hdev hl page
      (hlen page (mem_cons_self ..)) (room_of_need hneed)
    obtain ⟨s'', taken'', hrest, hstores'⟩ := ih hstores (hgrows.lookup ▸ hl)
      (fun p hp => hlen p (mem_cons_of_mem _ hp)) (hgrows.need_le hneed hfree)
    refine ⟨s'', taken'', ?_, hstores'⟩
    rw [List.foldlM_cons, hturn]
    exact hrest

/-- The loop of `data_initialize`, over pages in the map. -/
theorem Stores.initializeLoop (h : s.Stores bytes total store taken)
    (hdev : dev.Reliable bytes (total * pageSize)) (hl : s.pagerPortLookup port = some ds)
    (hlen : ∀ page ∈ pages, page.2.length = pageSize) (hneed : s.need port pages ≤ s.part.free)
    (hsize : ∀ page ∈ pages, atop page.1 < (s.dstruct ds).dpager.size) :
    ∃ s' taken', pages.foldlM (fun s page => s.initializeTurn dev ds page) s = .ok s' ∧
      s'.Stores bytes total (pages.foldl (fun store page => store.putNew port page) store)
        taken' := by
  induction pages generalizing s store taken with
  | nil => exact ⟨s, taken, rfl, h⟩
  | cons page pages ih =>
    obtain ⟨s', taken', hturn, hstores, hgrows, hfree⟩ := h.initializeTurn hdev hl page
      (hlen page (mem_cons_self ..)) (room_of_need hneed)
      (hsize page (mem_cons_self ..))
    obtain ⟨s'', taken'', hrest, hstores'⟩ := ih hstores (hgrows.lookup ▸ hl)
      (fun p hp => hlen p (mem_cons_of_mem _ hp)) (hgrows.need_le hneed hfree)
      (fun p hp => (hsize p (mem_cons_of_mem _ hp)).trans_le (hgrows.size ds))
    refine ⟨s'', taken'', ?_, hstores'⟩
    rw [List.foldlM_cons, hturn]
    exact hrest

/-- `default_read` of a page in the map. -/
theorem Stores.defaultRead (h : s.Stores bytes total store taken)
    (hdev : dev.Reliable bytes (total * pageSize)) (hl : s.pagerPortLookup port = some ds)
    (hsize : atop offset < (s.dstruct ds).dpager.size) :
    ∃ rc device, defaultRead dev (s.dstruct ds).dpager offset s.device = .ok (rc, device) ∧
      bytes device = bytes s.device ∧
      (store.Answers (.dataRequest port offset pageSize) (some (replyTo offset rc))) := by
  have hread := (h.good port ds hl).2.read hsize
  rw [← block_of_lookup hl] at hread
  have hstore := h.content port (atop offset)
  cases hb : s.block port (atop offset) with
  | none =>
    rw [hb] at hread hstore
    refine ⟨.absent, s.device, by simp only [Boot.defaultRead, hread], rfl, ?_⟩
    simp only [Store.Answers, hstore, Option.map_none]
    rfl
  | some b =>
    rw [hb] at hread hstore
    have hblt : b < total := h.total ▸ h.marks.lt b (h.taken _ _ _ hb)
    obtain ⟨whole, device, hpieces, hbytes⟩ := hdev.readPieces pageSize (b * pageSize) pageSize
      s.device true [] pageSize_pos le_rfl
      (by rw [← Nat.succ_mul]; exact Nat.mul_le_mul_right _ hblt)
    refine ⟨.success whole (pageAt bytes s.device b), device, ?_, hbytes, ?_⟩
    · simp only [Boot.defaultRead, hread, hpieces]
      rfl
    · simp only [Store.Answers, hstore, Option.map_some]
      cases whole
      · exact .inr rfl
      · exact .inl rfl

theorem lookup_create (hchain : ∀ bucket, ∀ ds ∈ s.table bucket, ds < s.next)
    (hnew : s.pagerPortLookup port = none) (newSize q : ℕ) :
    (s.memoryObjectCreate port newSize).pagerPortLookup q =
      if q = port then some s.next else s.pagerPortLookup q := by
  have hold (p : ℕ) : ((s.table (pagerPortHash q)).find? fun d =>
      (update s.dstruct s.next ⟨port, 0, pagerAlloc (atop newSize)⟩ d).pager = p) =
      (s.table (pagerPortHash q)).find? fun d => (s.dstruct d).pager = p := by
    refine List.find?_congr fun d hd => ?_
    rw [update_of_ne (hchain _ d hd).ne]
  unfold pagerPortLookup memoryObjectCreate
  dsimp only
  by_cases hbucket : pagerPortHash q = pagerPortHash port
  · rw [hbucket] at hold ⊢
    rw [update_self, find?_append, hold]
    by_cases hq : q = port
    · subst hq
      rw [pagerPortLookup] at hnew
      simp [hnew]
    · simp [hq, Ne.symm hq]
  · have hq : q ≠ port := fun e => hbucket (e ▸ rfl)
    rw [update_of_ne hbucket, hold, if_neg hq]

theorem Stores.create (h : s.Stores bytes total store taken)
    (hnew : s.pagerPortLookup port = none) (newSize : ℕ) :
    (s.memoryObjectCreate port newSize).Stores bytes total store taken := by
  have hlookup := lookup_create h.chain hnew newSize
  have hblock : (s.memoryObjectCreate port newSize).block = s.block := by
    funext q j
    unfold Server.block
    rw [hlookup]
    by_cases hq : q = port
    · subst hq
      simp [hnew, memoryObjectCreate, Dpager.block_pagerAlloc]
    · rw [if_neg hq]
      cases hd : s.pagerPortLookup q with
      | none => rfl
      | some d =>
        have hlt := h.chain _ d (mem_of_find?_eq_some hd)
        simp [memoryObjectCreate, update_of_ne hlt.ne]
  constructor
  case marks => exact h.marks
  case total => exact h.total
  case chain =>
    intro bucket d hd
    simp only [memoryObjectCreate] at hd ⊢
    by_cases hbucket : bucket = pagerPortHash port
    · rw [hbucket, update_self, mem_append, mem_singleton] at hd
      rcases hd with hd | rfl
      · exact (h.chain _ d hd).trans (Nat.lt_succ_self _)
      · exact Nat.lt_succ_self _
    · rw [update_of_ne hbucket] at hd
      exact (h.chain _ d hd).trans (Nat.lt_succ_self _)
  case good =>
    intro q d hd
    rw [hlookup] at hd
    split_ifs at hd with hq
    · rw [← Option.some.inj hd]
      simpa [memoryObjectCreate] using Dpager.fits_pagerAlloc (atop newSize)
    · have hlt := h.chain _ d (mem_of_find?_eq_some hd)
      simpa [memoryObjectCreate, update_of_ne hlt.ne] using h.good q d hd
  case taken =>
    rw [hblock]
    exact h.taken
  case inj =>
    rw [hblock]
    exact h.inj
  case content =>
    rw [hblock]
    exact h.content

theorem length_of_mem_pagesOf (h : data.length % pageSize = 0)
    (hp : page ∈ pagesOf offset data) : page.2.length = pageSize := by
  obtain ⟨j, hj, rfl⟩ := mem_map.1 hp
  have hpos := pageSize_pos
  obtain ⟨k, hk⟩ := Nat.dvd_of_mod_eq_zero h
  have hjk : j < k := by
    have := mem_range.1 hj
    rwa [hk, howmany, Nat.add_sub_assoc hpos, Nat.mul_add_div hpos,
      Nat.div_eq_of_lt (Nat.sub_lt hpos Nat.one_pos), Nat.add_zero] at this
  have hle : (j + 1) * pageSize ≤ data.length := by
    rw [hk, Nat.mul_comm]
    exact Nat.mul_le_mul_left _ hjk
  rw [Nat.succ_mul] at hle
  rw [List.length_take, List.length_drop]
  omega

theorem Stores.step (h : s.Stores bytes total store taken)
    (hdev : dev.Reliable bytes (total * pageSize)) {m : Message Byte} (ha : s.Allowed m)
    (hm : s.InMap m) : ∃ reply s' taken', s.step dev m = .ok (reply, s') ∧
      s'.Stores bytes total (store.after m) taken' ∧ store.Answers m reply := by
  cases m with
  | create newPager newSize => exact ⟨none, _, taken, rfl, h.create ha newSize, rfl⟩
  | dataRequest pager offset length =>
    obtain ⟨hl, rfl⟩ := ha
    obtain ⟨ds, hl⟩ := Option.ne_none_iff_exists'.1 hl
    obtain ⟨rc, device, hread, hbytes, hanswer⟩ := h.defaultRead hdev hl (hm ds hl)
    refine ⟨_, { s with device }, taken, ?_, ?_, hanswer⟩
    · simp [Server.step, hl, (h.good pager ds hl).1, hread, Except.map]
    · have hpage : pageAt bytes device = pageAt bytes s.device := by
        funext b
        simp only [pageAt, hbytes]
      exact ⟨h.marks, h.total, h.chain, h.good, h.taken, h.inj, fun p i =>
        hpage ▸ h.content p i⟩
  | dataInitialize pager offset data =>
    obtain ⟨hl, hlen, hneed⟩ := ha
    obtain ⟨ds, hl⟩ := Option.ne_none_iff_exists'.1 hl
    obtain ⟨s', taken', hloop, hstores⟩ := h.initializeLoop hdev hl
      (fun page hp => length_of_mem_pagesOf hlen hp) hneed (hm ds hl)
    exact ⟨none, s', taken', by simp [Server.step, hl, hloop, Except.map], hstores, rfl⟩
  | dataWrite pager offset data =>
    obtain ⟨hl, hlen, hneed⟩ := ha
    obtain ⟨ds, hl⟩ := Option.ne_none_iff_exists'.1 hl
    obtain ⟨s', taken', hloop, hstores⟩ := h.writeLoop hdev hl
      (fun page hp => length_of_mem_pagesOf hlen hp) hneed
    exact ⟨none, s', taken', by simp [Server.step, hl, hlen, hloop, Except.map], hstores, rfl⟩

theorem stores_init (size : ℕ) (device : σ) :
    (init size device).Stores bytes size (fun _ _ => none) ∅ where
  marks := Part.marks_create size
  total := rfl
  chain _ _ h := absurd h not_mem_nil
  good _ _ h := by simp [init, pagerPortLookup] at h
  taken _ _ _ h := by simp [init, Server.block, pagerPortLookup] at h
  inj _ _ _ _ _ h := by simp [init, Server.block, pagerPortLookup] at h
  content _ _ := by simp [init, Server.block, pagerPortLookup]

theorem Stores.runs (h : s.Stores bytes total store taken)
    (hdev : dev.Reliable bytes (total * pageSize)) {ms : List (Message Byte)}
    (hrun : s.Run dev (fun s m => s.Allowed m ∧ s.InMap m) ms) :
    ∃ replies s', s.runs dev ms = .ok (replies, s') ∧ store.AnswersAll ms replies := by
  induction ms generalizing s store taken with
  | nil => exact ⟨[], s, rfl, rfl⟩
  | cons m ms ih =>
    obtain ⟨reply, s', taken', hstep, hstores, hanswer⟩ := h.step hdev hrun.1.1 hrun.1.2
    have hrest := hrun.2
    rw [hstep] at hrest
    obtain ⟨replies, s'', hruns, hanswers⟩ := ih hstores hrest
    refine ⟨reply :: replies, s'', ?_, reply, replies, rfl, hanswer, hanswers⟩
    simp [Server.runs, hstep, hruns, Except.bind, Except.map]

/-- Over a partition whose transfers succeed, the default pager is a store of pages: a row of
messages that look up pages in the maps as they are is answered without a panic, and each request
gets the page that was last written there, or none if there was none. -/
theorem runs_answered (size : ℕ) (device : σ) (hdev : dev.Reliable bytes (size * pageSize))
    {ms : List (Message Byte)}
    (hrun : (init size device).Run dev (fun s m => s.Allowed m ∧ s.InMap m) ms) :
    ∃ replies s', (init size device).runs dev ms = .ok (replies, s') ∧
      Store.AnswersAll (fun _ _ => none) ms replies :=
  (stores_init size device).runs hdev hrun

end Server

end

/-- A partition that moves one byte at a time. -/
def byteDevice : Device (ℕ → ℕ) ℕ where
  pRead device offset size :=
    (some ((List.range (min size 1)).map fun k => device (offset + k)), device)
  pWrite device offset data :=
    match data with
    | [] => (some 0, device)
    | b :: _ => (some 1, update device offset b)

theorem byteDevice_reliable (limit : ℕ) : byteDevice.Reliable (fun device => device) limit where
  read device offset size hpos _ := ⟨min size 1, device, rfl, by omega, by omega, rfl⟩
  write device offset data hdata _ := by
    obtain ⟨b, rest, rfl⟩ := List.exists_cons_of_ne_nil hdata
    refine ⟨1, update device offset b, rfl, Nat.one_pos, by simp, fun a => ?_⟩
    by_cases h : a = offset
    · simp [h]
    · rw [update_of_ne h, if_neg (by omega)]

/-- Pages of two bytes. -/
@[reducible] def twoBytes : PageSize := ⟨1, by norm_num⟩

/-- An object of one page is extended by a write behind it. -/
def extendedRun : List (Message ℕ) :=
  [.create 7 2, .dataWrite 7 4 [5, 6], .dataRequest 7 4 2, .dataInitialize 7 2 [8, 9]]

theorem extendedRun_inMap : letI := twoBytes
    (Server.init 2 fun _ => 0).Run byteDevice (fun s m => s.Allowed m ∧ s.InMap m)
      extendedRun := by decide +kernel

theorem Server.runs_answered_extended : letI := twoBytes
    ∃ replies s', (Server.init 2 fun _ => 0).runs byteDevice extendedRun = .ok (replies, s') ∧
      Store.AnswersAll (fun _ _ => none) extendedRun replies :=
  @Server.runs_answered _ _ twoBytes _ _ 2 _ (byteDevice_reliable _) _ extendedRun_inMap

/-- A request for the page behind an object of one page. -/
def beyondRun : List (Message ℕ) := [.create 7 4096, .dataRequest 7 4096 4096]

theorem beyondRun_allowed : letI := pages4096
    (Server.init 1 fun _ => 0).Run byteDevice (fun s m => s.Allowed m) beyondRun := by
  decide +kernel

theorem beyondRun_panics : letI := pages4096
    (Server.init 1 fun _ => 0).runs byteDevice beyondRun = .error (.panic "pager_read_offset") :=
  rfl

theorem Server.runs_beyond : letI := pages4096
    ¬ ∀ (dev : Device (ℕ → ℕ) ℕ) (size : ℕ) (ms : List (Message ℕ)),
      dev.Reliable (fun device => device) (size * pageSize) →
        (Server.init size fun _ => 0).Run dev (fun s m => s.Allowed m) ms →
          ∃ replies s', (Server.init size fun _ => 0).runs dev ms = .ok (replies, s') ∧
            Store.AnswersAll (fun _ _ => none) ms replies := by
  intro h
  obtain ⟨replies, s', hruns, -⟩ :=
    h byteDevice 1 beyondRun (byteDevice_reliable _) beyondRun_allowed
  rw [beyondRun_panics] at hruns
  cases hruns

end MachKernel.Boot
