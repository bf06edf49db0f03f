import MachKernel.Vm.Page

/-! A device write whose data comes as a list of pages, part by part (`ds_device_write` and
`ds_write_done` of `device/ds_routines.c`). -/

namespace MachKernel.Device.Write
open List
open Vm Word32

abbrev Byte := BitVec 8

/-! The data, as `vm_map_copyin_page_list` gives it. -/

/-- `VM_MAP_COPY_PAGE_LIST_MAX`. -/
def pageListMax : ℕ := 8

/-- What is found of a page: its data, an error of its memory manager, or nothing that can be read.
-/
inductive Source
  | present
  | memoryError
  | invalid
  deriving DecidableEq

/-- What a continuation goes on with. -/
structure CopyinArgs where
  srcAddr : ℕ
  srcLen : ℕ
  deriving DecidableEq

/-- A copy object that is a list of pages. -/
structure PageListCopy where
  offset : ℕ
  size : ℕ
  pageList : List (ℕ → Byte)
  cont : Option CopyinArgs

section
variable [PageSize]

/-- The loops over the pages. Entries are looked up, and their gaps found, before the list is found
full. -/
def fetchPages (mem : ℕ → Byte) (source : ℕ → Source) (isCont : Bool) (srcEnd : ℕ) :
    ℕ → ℕ → List (ℕ → Byte) → Option (List (ℕ → Byte) × Option CopyinArgs)
  | 0, _, pageList => some (pageList, none)
  | n + 1, srcStart, pageList =>
    if source srcStart = .invalid then none
    else if pageList.length = pageListMax then
      some (pageList, some ⟨srcStart, srcEnd - srcStart⟩)
    else if source srcStart = .memoryError then
      if isCont ∧ pageList ≠ [] then some (pageList, some ⟨srcStart, srcEnd - srcStart⟩) else none
    else
      fetchPages mem source isCont srcEnd n (srcStart + pageSize)
        (pageList ++ [fun i => mem (srcStart + i)])

/-- `vm_map_copyin_page_list`; there is no copy for zero bytes, for an address that overflows and in
case of an error. -/
def copyinPageList (mem : ℕ → Byte) (source : ℕ → Source) (srcAddr len : ℕ) (isCont : Bool) :
    Option PageListCopy :=
  if len = 0 ∨ modulus ≤ srcAddr + len + pageMask then none
  else
    let srcStart := truncPage srcAddr
    let srcEnd := roundPage (srcAddr + len)
    (fetchPages mem source isCont srcEnd ((srcEnd - srcStart) / pageSize) srcStart []).map
      fun r => ⟨srcAddr, len, r.1, r.2⟩

/-! The request. -/

/-- `struct io_req`. `io_data` is a copy object at first, then the address of the mapped data. -/
structure Ior where
  recnum : ℕ
  data : Option PageListCopy
  mapped : ℕ → Byte
  count : ℕ
  total : ℕ
  allocSize : ℕ
  residual : ℕ
  error : Bool
  copy : Option PageListCopy

/-- The size that `kmem_io_map_copyout` maps. -/
def mapSize (copy : PageListCopy) : ℕ :=
  min (roundPage (copy.offset + copy.size) - truncPage copy.offset)
    (copy.pageList.length * pageSize)

/-- What is mapped from the address that it gives for the data. -/
def kmemIoMapCopyout (copy : PageListCopy) (i : ℕ) : Byte :=
  let j := copy.offset - truncPage copy.offset + i
  copy.pageList.getD (j / pageSize) (fun _ => 0) (j % pageSize)

/-- `device_write_get`, when there is room in the map. -/
def Ior.deviceWriteGet (ior : Ior) : Ior :=
  match ior.data with
  | none => ior
  | some ioCopy =>
    let start := ioCopy.offset - truncPage ioCopy.offset
    { ior with
      data := none
      mapped := kmemIoMapCopyout ioCopy
      allocSize := mapSize ioCopy
      count := if mapSize ioCopy < start + ior.count then mapSize ioCopy - start else ior.count
      copy := some ioCopy }

/-- What a driver makes of a part: it is written, or only some bytes of it, with an error in the
request; or `d_write` returns an error before it has the data; or there is no room to map them. -/
inductive Driver
  | written
  | failed (bytes : ℕ)
  | refused
  | noRoom
  deriving DecidableEq

/-- A part that a driver gets, and how much of it comes to the device. -/
structure Piece where
  recnum : ℕ
  data : List Byte
  written : ℕ

/-- `d_write`, up to the completion of the part. Nobody has set what `device_write_get` goes on with
where there is no room. -/
def Ior.dWrite (ior : Ior) : Driver → Option (List Piece × Ior)
  | .written =>
    let ior := ior.deviceWriteGet
    some ([⟨ior.recnum, (List.range ior.count).map ior.mapped, ior.count⟩],
      { ior with residual := 0 })
  | .failed bytes =>
    let ior := ior.deviceWriteGet
    some ([⟨ior.recnum, (List.range ior.count).map ior.mapped, min bytes ior.count⟩],
      { ior with error := true, residual := ior.count - bytes })
  | .refused => some ([], ior)
  | .noRoom => none

def Ior.deviceWriteDealloc (ior : Ior) (bsize : ℕ) (mem : ℕ → Byte) (source : ℕ → Source) :
    Bool × Ior :=
  if ior.allocSize = 0 then (true, ior)
  else
    match ior.copy with
    | none => (true, ior)
    | some ioCopy =>
      match ioCopy.cont with
      | none => (true, { ior with copy := none })
      | some args =>
        let sizeToDo := ioCopy.size - ior.count
        match if ior.error then none
          else copyinPageList mem source args.srcAddr args.srcLen true with
        | some newCopy =>
          (false, { ior with
            recnum := ior.recnum + ior.count / bsize
            count := newCopy.size
            copy := none
            data := some newCopy })
        | none => (true, { ior with residual := ior.residual + sizeToDo, copy := none })

/-- What happens to a part: in the driver, and in the source when its continuation is called. -/
structure Turn where
  driver : Driver
  source : ℕ → Source

/-- How a write ends. -/
inductive Ended
  | finished
  | failed
  | refused
  | unreadable
  deriving DecidableEq

structure Outcome where
  pieces : List Piece
  ended : Ended
  bytesWritten : ℤ

def Turn.ended (turn : Turn) (ior : Ior) : Ended :=
  match turn.driver with
  | .written => if (ior.data.bind PageListCopy.cont).isSome then .unreadable else .finished
  | .failed _ => .failed
  | _ => .refused

/-- The loop of `ds_device_write`, which `ds_write_done` goes on with after a part that was queued.
-/
def writeLoop (bsize : ℕ) (mem : ℕ → Byte) : List Turn → Ior → Option Outcome
  | [], _ => none
  | turn :: turns, ior =>
    match ior.dWrite turn.driver with
    | none => none
    | some (pieces, ior') =>
      match ior'.deviceWriteDealloc bsize mem turn.source with
      | (true, ior') => some ⟨pieces, turn.ended ior, ior'.total - ior'.residual⟩
      | (false, ior') => (writeLoop bsize mem turns ior').map fun o =>
          { o with pieces := pieces ++ o.pieces }

/-- What is to be written, and where. -/
structure Request where
  srcAddr : ℕ
  len : ℕ
  recnum : ℕ
  bsize : ℕ

/-- `ds_device_write`, for data that have been copied in. -/
def dsDeviceWrite (mem : ℕ → Byte) (w : Request) (copy : PageListCopy) (turns : List Turn) :
    Option Outcome :=
  writeLoop w.bsize mem turns
    { recnum := w.recnum
      data := some copy
      mapped := fun _ => 0
      count := w.len
      total := w.len
      allocSize := 0
      residual := 0
      error := false
      copy := none }

/-! What a write is to do. -/

def Request.data (w : Request) (mem : ℕ → Byte) : List Byte :=
  (List.range w.len).map fun i => mem (w.srcAddr + i)

/-- The parts are consecutive pieces of the data behind some bytes, each at its block; together they
are all of it when nothing fails; and what was written is reported. -/
structure Covers (mem : ℕ → Byte) (w : Request) (before : ℕ) (o : Outcome) : Prop where
  consecutive : (o.pieces.map Piece.data).flatten <+: (w.data mem).drop before
  placed : ∀ pre piece post, o.pieces = pre ++ piece :: post →
    piece.recnum * w.bsize = w.recnum * w.bsize + (before + (pre.map Piece.data).flatten.length)
  complete : o.ended = .finished → (o.pieces.map Piece.data).flatten = (w.data mem).drop before
  reported : o.bytesWritten = (before + (o.pieces.map Piece.written).sum : ℕ)

/-- The bytes of the data that a list has pages for. -/
def PageListCopy.held (copy : PageListCopy) : ℕ :=
  copy.pageList.length * pageSize - (copy.offset - truncPage copy.offset)

/-- No part is refused, and there is room to map each; where a part is followed by another, the data
end with a page and the part with a block. -/
def Fits (mem : ℕ → Byte) (w : Request) : List Turn → PageListCopy → Prop
  | [], _ => True
  | turn :: turns, copy =>
    turn.driver ≠ .refused ∧ turn.driver ≠ .noRoom ∧
      (turn.driver = .written → ∀ args ∈ copy.cont,
        ∀ next ∈ copyinPageList mem turn.source args.srcAddr args.srcLen true,
          PageAligned (w.srcAddr + w.len) ∧ w.bsize ∣ copy.held ∧ Fits mem w turns next)

variable {mem : ℕ → Byte} {source : ℕ → Source} {isCont : Bool} {w : Request} {copy : PageListCopy}
  {srcAddr len srcStart srcEnd n before : ℕ} {ior : Ior}

/-! Page lists. -/

theorem fetchPages_spec {pageList pages : List (ℕ → Byte)} {cont : Option CopyinArgs}
    (hend : srcStart + n * pageSize = srcEnd)
    (h : fetchPages mem source isCont srcEnd n srcStart pageList = some (pages, cont)) :
    ∃ k ≤ n, pages = pageList ++ (List.range k).map (fun j i =>
        mem (srcStart + j * pageSize + i)) ∧
      cont = (if k = n then none
        else some ⟨srcStart + k * pageSize, srcEnd - (srcStart + k * pageSize)⟩) ∧
      (pageList = [] → 0 < n → 0 < k) := by
  induction n generalizing srcStart pageList with
  | zero =>
    obtain ⟨rfl, rfl⟩ := Prod.mk.inj (Option.some.inj h)
    exact ⟨0, le_rfl, by simp, rfl, fun _ => id⟩
  | succ n ih =>
    have hstop : pageList ≠ [] → some (pageList, some ⟨srcStart, srcEnd - srcStart⟩) =
        some (pages, cont) → ∃ k ≤ n + 1, pages = pageList ++ (List.range k).map (fun j i =>
        mem (srcStart + j * pageSize + i)) ∧
      cont = (if k = n + 1 then none
        else some ⟨srcStart + k * pageSize, srcEnd - (srcStart + k * pageSize)⟩) ∧
      (pageList = [] → 0 < n + 1 → 0 < k) := by
      intro hne h
      obtain ⟨rfl, rfl⟩ := Prod.mk.inj (Option.some.inj h)
      exact ⟨0, Nat.zero_le _, by simp, by simp, fun h => absurd h hne⟩
    unfold fetchPages at h
    split at h
    · cases h
    · split at h
      · next hfull =>
        refine hstop ?_ h
        rintro rfl
        cases hfull
      · split at h
        · split at h
          · next hpartial => exact hstop hpartial.2 h
          · cases h
        · obtain ⟨k, hk, rfl, rfl, -⟩ := ih (by rw [← hend]; ring) h
          refine ⟨k + 1, Nat.succ_le_succ hk, ?_, ?_, fun _ _ => Nat.succ_pos k⟩
          · rw [List.range_succ_eq_map, map_cons, map_map, append_assoc,
              singleton_append, Nat.zero_mul, Nat.add_zero]
            refine congrArg (fun l => pageList ++ _ :: l) (map_congr_left fun j _ => ?_)
            funext i
            exact congrArg mem (by simp only [Nat.succ_eq_add_one]; ring)
          · rw [show srcStart + (k + 1) * pageSize = srcStart + pageSize + k * pageSize by ring]
            simp only [Nat.add_right_cancel_iff]

/-- A list with pages of the data from some address on. -/
structure Lists (mem : ℕ → Byte) (srcAddr len : ℕ) (copy : PageListCopy) : Prop where
  bound : srcAddr + len + pageMask < modulus
  pos : 0 < len
  offset : copy.offset = srcAddr
  size : copy.size = len
  pages : copy.pageList = (List.range copy.pageList.length).map fun j i =>
    mem (truncPage srcAddr + j * pageSize + i)
  nonempty : 0 < copy.pageList.length
  le : truncPage srcAddr + copy.pageList.length * pageSize ≤ roundPage (srcAddr + len)
  cont : copy.cont =
    if truncPage srcAddr + copy.pageList.length * pageSize = roundPage (srcAddr + len) then none
    else some ⟨truncPage srcAddr + copy.pageList.length * pageSize, roundPage (srcAddr + len) -
      (truncPage srcAddr + copy.pageList.length * pageSize)⟩

theorem copyin_lists (h : copyinPageList mem source srcAddr len isCont = some copy) :
    Lists mem srcAddr len copy := by
  unfold copyinPageList at h
  split at h
  · cases h
  · next hcheck =>
    rw [not_or, not_le] at hcheck
    obtain ⟨hlen, hbound⟩ := hcheck
    obtain ⟨⟨pages, cont⟩, hfetch, rfl⟩ := Option.map_eq_some_iff.1 h
    have hsrc : srcAddr < modulus := by omega
    have htrunc := truncPage_le hsrc
    have hround := le_roundPage hbound
    have hlt : truncPage srcAddr < roundPage (srcAddr + len) := by omega
    obtain ⟨m, hm⟩ : pageSize ∣ roundPage (srcAddr + len) - truncPage srcAddr :=
      Nat.dvd_sub (roundPage_aligned _) (truncPage_aligned hsrc)
    rw [hm, Nat.mul_div_cancel_left _ pageSize_pos] at hfetch
    have hend : truncPage srcAddr + m * pageSize = roundPage (srcAddr + len) := by
      rw [Nat.mul_comm m, ← hm]
      omega
    have hmpos : 0 < m := by
      rcases Nat.eq_zero_or_pos m with rfl | hpos
      · omega
      · exact hpos
    obtain ⟨k, hk, rfl, rfl, hpos⟩ := fetchPages_spec hend hfetch
    have hlength : ([] ++ (List.range k).map (fun j i =>
        mem (truncPage srcAddr + j * pageSize + i))).length = k := by simp
    have hiff : truncPage srcAddr + k * pageSize = roundPage (srcAddr + len) ↔ k = m := by
      rw [← hend, Nat.add_left_cancel_iff, Nat.mul_left_inj pageSize_pos.ne']
    refine ⟨hbound, Nat.pos_of_ne_zero hlen, rfl, rfl, ?_, ?_, ?_, ?_⟩
    · dsimp only
      rw [hlength, nil_append]
    · dsimp only
      rw [hlength]
      exact hpos rfl hmpos
    · dsimp only
      rw [hlength, ← hend]
      exact Nat.add_le_add_left (Nat.mul_le_mul_right _ hk) _
    · dsimp only
      rw [hlength]
      simp only [hiff]

/-- The bytes of a part. -/
def PageListCopy.part (copy : PageListCopy) : ℕ :=
  if copy.cont = none then copy.size else copy.held

/-- The bytes of a part that starts at an address. -/
def bytesAt (mem : ℕ → Byte) (addr n : ℕ) : List Byte :=
  (List.range n).map fun i => mem (addr + i)

namespace Lists
variable (h : Lists mem srcAddr len copy)
include h

theorem src_lt : srcAddr < modulus := by
  have := h.bound
  omega

theorem cont_eq_none : copy.cont = none ↔
    truncPage srcAddr + copy.pageList.length * pageSize = roundPage (srcAddr + len) := by
  rw [h.cont]
  split
  · next heq => exact iff_of_true rfl heq
  · next hne => exact iff_of_false nofun hne

theorem mapSize_eq : mapSize copy = copy.pageList.length * pageSize := by
  have := h.le
  unfold mapSize
  rw [h.offset, h.size]
  omega

theorem lt_of_cont (hcont : copy.cont ≠ none) :
    truncPage srcAddr + copy.pageList.length * pageSize < srcAddr + len := by
  have hne := mt h.cont_eq_none.2 hcont
  have hle := h.le
  have halign : PageAligned (truncPage srcAddr + copy.pageList.length * pageSize) :=
    Nat.dvd_add (truncPage_aligned h.src_lt) (Nat.dvd_mul_left _ _)
  have hnext := halign.le_of_lt (roundPage_aligned (srcAddr + len)) (by omega)
  have hround := roundPage_lt_add h.bound
  omega

theorem src_add_held : srcAddr + copy.held =
    truncPage srcAddr + copy.pageList.length * pageSize := by
  have hstart := lt_truncPage_add h.src_lt
  have htrunc := truncPage_le h.src_lt
  have hpages := Nat.mul_le_mul_right pageSize h.nonempty
  unfold PageListCopy.held
  rw [h.offset]
  omega

theorem deviceWriteGet_eq (hdata : ior.data = some copy) (hcount : ior.count = len) :
    ior.deviceWriteGet = { ior with
      data := none
      mapped := kmemIoMapCopyout copy
      allocSize := copy.pageList.length * pageSize
      count := copy.part
      copy := some copy } := by
  unfold Ior.deviceWriteGet
  rw [hdata]
  dsimp only
  rw [h.mapSize_eq, h.offset, hcount]
  have hpart : (if copy.pageList.length * pageSize < srcAddr - truncPage srcAddr + len
      then copy.pageList.length * pageSize - (srcAddr - truncPage srcAddr) else len) =
        copy.part := by
    have htrunc := truncPage_le h.src_lt
    unfold PageListCopy.part
    by_cases hcont : copy.cont = none
    · have heq := h.cont_eq_none.1 hcont
      have hround := le_roundPage h.bound
      rw [if_pos hcont, h.size, if_neg (by omega)]
    · have hlt := h.lt_of_cont hcont
      rw [if_neg hcont, if_pos (by omega), PageListCopy.held, h.offset]
  rw [hpart]

theorem part_le : srcAddr - truncPage srcAddr + copy.part ≤ copy.pageList.length * pageSize := by
  have htrunc := truncPage_le h.src_lt
  unfold PageListCopy.part
  by_cases hcont : copy.cont = none
  · have heq := h.cont_eq_none.1 hcont
    have hround := le_roundPage h.bound
    rw [if_pos hcont, h.size]
    omega
  · have heq := h.src_add_held
    rw [if_neg hcont]
    omega

theorem mapped_eq : (List.range copy.part).map (kmemIoMapCopyout copy) =
    bytesAt mem srcAddr copy.part := by
  refine map_congr_left fun i hi => ?_
  have hpart := h.part_le
  have htrunc := truncPage_le h.src_lt
  have hlt : srcAddr - truncPage srcAddr + i < pageSize * copy.pageList.length := by
    have := mem_range.1 hi
    rw [Nat.mul_comm]
    omega
  have hdiv := Nat.div_lt_of_lt_mul hlt
  have hmod := Nat.div_add_mod' (srcAddr - truncPage srcAddr + i) pageSize
  unfold kmemIoMapCopyout
  dsimp only
  rw [h.offset, h.pages]
  simp only [List.getD_eq_getElem?_getD, List.getElem?_map, List.getElem?_range hdiv,
    Option.map_some, Option.getD_some]
  exact congrArg mem (by omega)

end Lists

/-! The parts. -/

section
omit [PageSize]

theorem bytesAt_append (addr m n : ℕ) :
    bytesAt mem addr (m + n) = bytesAt mem addr m ++ bytesAt mem (addr + m) n := by
  unfold bytesAt
  rw [List.range_add, map_append, map_map]
  refine congrArg _ (map_congr_left fun i _ => ?_)
  exact congrArg mem (Nat.add_assoc ..).symm

theorem length_bytesAt (addr n : ℕ) : (bytesAt mem addr n).length = n := by simp [bytesAt]

theorem drop_data (h : before ≤ w.len) :
    (w.data mem).drop before = bytesAt mem (w.srcAddr + before) (w.len - before) := by
  have hdata : w.data mem = bytesAt mem w.srcAddr before ++
      bytesAt mem (w.srcAddr + before) (w.len - before) := by
    rw [← bytesAt_append, Nat.add_sub_cancel' h]
    rfl
  rw [hdata]
  exact List.drop_left' (length_bytesAt ..)

theorem drop_data_part {c : ℕ} (h : before + c ≤ w.len) : (w.data mem).drop before =
    bytesAt mem (w.srcAddr + before) c ++ (w.data mem).drop (before + c) := by
  rw [drop_data (by omega), drop_data h, ← Nat.add_assoc, ← bytesAt_append]
  congr 1
  omega

theorem covers_cons {piece : Piece} {pieces : List Piece} {ended : Ended} {bytesWritten : ℤ} {c : ℕ}
    (hdata : piece.data = bytesAt mem (w.srcAddr + before) c) (hwritten : piece.written = c)
    (hle : before + c ≤ w.len) : Covers mem w before ⟨piece :: pieces, ended, bytesWritten⟩ ↔
      piece.recnum * w.bsize = w.recnum * w.bsize + before ∧
        Covers mem w (before + c) ⟨pieces, ended, bytesWritten⟩ := by
  have hdrop : (w.data mem).drop before = piece.data ++ (w.data mem).drop (before + c) :=
    hdata ▸ drop_data_part hle
  have hlength : piece.data.length = c := hdata ▸ length_bytesAt ..
  constructor
  · rintro ⟨hcons, hplaced, hcomplete, hreported⟩
    refine ⟨hplaced [] piece pieces rfl, ?_, fun pre p post heq => ?_, fun hended => ?_, ?_⟩
    · rw [hdrop] at hcons
      exact (List.prefix_append_right_inj _).1 hcons
    · rw [hplaced (piece :: pre) p post (congrArg (piece :: ·) heq), map_cons,
        List.flatten_cons, length_append, hlength]
      ring
    · have hall := hcomplete hended
      rw [hdrop] at hall
      exact List.append_cancel_left hall
    · rw [hreported, map_cons, List.sum_cons, hwritten, Nat.add_assoc]
  · rintro ⟨hfirst, hcons, hplaced, hcomplete, hreported⟩
    refine ⟨?_, fun pre p post heq => ?_, fun hended => ?_, ?_⟩
    · rw [hdrop]
      exact (List.prefix_append_right_inj _).2 hcons
    · cases pre with
      | nil =>
        obtain ⟨rfl, -⟩ := List.cons.inj heq
        exact hfirst
      | cons q pre =>
        obtain ⟨rfl, hrest⟩ := List.cons.inj heq
        rw [hplaced pre p post hrest, map_cons, List.flatten_cons, length_append, hlength]
        ring
    · rw [hdrop, map_cons, List.flatten_cons]
      exact congrArg _ (hcomplete hended)
    · dsimp only at hreported ⊢
      rw [hreported, map_cons, List.sum_cons, hwritten, Nat.add_assoc]

theorem covers_single {piece : Piece} {ended : Ended} {bytesWritten : ℤ} {c : ℕ}
    (hdata : piece.data = bytesAt mem (w.srcAddr + before) c) (hle : before + c ≤ w.len)
    (hcomplete : ended = .finished → before + c = w.len) :
    Covers mem w before ⟨[piece], ended, bytesWritten⟩ ↔
      piece.recnum * w.bsize = w.recnum * w.bsize + before ∧
        bytesWritten = (before + piece.written : ℕ) := by
  have hdrop : (w.data mem).drop before = piece.data ++ (w.data mem).drop (before + c) :=
    hdata ▸ drop_data_part hle
  constructor
  · rintro ⟨-, hplaced, -, hreported⟩
    refine ⟨hplaced [] piece [] rfl, hreported.trans ?_⟩
    simp
  · rintro ⟨hfirst, hreported⟩
    refine ⟨?_, fun pre p post heq => ?_, fun hended => ?_, ?_⟩
    · rw [hdrop, List.map_singleton, List.flatten_singleton]
      exact List.prefix_append ..
    · cases pre with
      | nil =>
        obtain ⟨rfl, -⟩ := List.cons.inj heq
        exact hfirst
      | cons q pre => simp at heq
    · rw [hdrop, List.map_singleton, List.flatten_singleton, hcomplete hended,
        drop_data le_rfl, Nat.sub_self]
      exact (append_nil _).symm
    · rw [hreported]
      simp

end

/-- A request before a part, that starts behind some bytes; the lists of continuations start and end
with a page. -/
structure Ready (mem : ℕ → Byte) (w : Request) (before : ℕ) (ior : Ior) (copy : PageListCopy) :
    Prop where
  bound : w.srcAddr + w.len + pageMask < modulus
  lt : before < w.len
  lists : Lists mem (w.srcAddr + before) ior.count copy
  data : ior.data = some copy
  total : ior.total = w.len
  residual : ior.residual = 0
  error : ior.error = false
  copy : ior.copy = none
  last : w.srcAddr + before + ior.count =
    if before = 0 then w.srcAddr + w.len else roundPage (w.srcAddr + w.len)

namespace Ready
variable (h : Ready mem w before ior copy)
include h

theorem round_eq : roundPage (w.srcAddr + before + ior.count) = roundPage (w.srcAddr + w.len) := by
  rw [h.last]
  split
  · rfl
  · exact (roundPage_eq_iff (roundPage_add_lt _)).2 (roundPage_aligned _)

theorem exact_iff : before + ior.count = w.len ↔
    (0 < before → PageAligned (w.srcAddr + w.len)) := by
  have hlast := h.last
  have hround := le_roundPage h.bound
  rw [← roundPage_eq_iff h.bound]
  split at hlast <;> omega

theorem part_eq (hcont : copy.cont = none) : copy.part = ior.count := by
  rw [PageListCopy.part, if_pos hcont, h.lists.size]

theorem src_add_part (hcont : copy.cont ≠ none) : w.srcAddr + before + copy.part =
    truncPage (w.srcAddr + before) + copy.pageList.length * pageSize := by
  rw [PageListCopy.part, if_neg hcont, h.lists.src_add_held]

theorem part_aligned (hcont : copy.cont ≠ none) : PageAligned (w.srcAddr + before + copy.part) := by
  rw [h.src_add_part hcont]
  exact Nat.dvd_add (truncPage_aligned h.lists.src_lt) (Nat.dvd_mul_left _ _)

theorem part_lt (hcont : copy.cont ≠ none) : before + copy.part < w.len := by
  have hlt := h.lists.lt_of_cont hcont
  have hlast := h.last
  have heq := h.src_add_part hcont
  split at hlast
  · omega
  · have halign := h.part_aligned hcont
    have hnext := halign.le_of_lt (roundPage_aligned (w.srcAddr + w.len)) (by omega)
    have hround := roundPage_lt_add h.bound
    omega

theorem part_le : copy.part ≤ ior.count := by
  by_cases hcont : copy.cont = none
  · exact (h.part_eq hcont).le
  · have hlt := h.lists.lt_of_cont hcont
    have heq := h.src_add_part hcont
    omega

theorem part_pos (hcont : copy.cont ≠ none) : 0 < copy.part := by
  have heq := h.src_add_part hcont
  have hlt := lt_truncPage_add h.lists.src_lt
  have hpages := Nat.mul_le_mul_right pageSize h.lists.nonempty
  omega

theorem next {args : CopyinArgs} {next : PageListCopy} (bsize : ℕ) (hcont : copy.cont = some args)
    (hnext : copyinPageList mem source args.srcAddr args.srcLen true = some next) :
    Ready mem w (before + copy.part)
      { recnum := ior.recnum + copy.part / bsize
        data := some next
        mapped := kmemIoMapCopyout copy
        count := next.size
        total := ior.total
        allocSize := copy.pageList.length * pageSize
        residual := 0
        error := ior.error
        copy := none } next := by
  have hne : copy.cont ≠ none := hcont ▸ Option.some_ne_none args
  have hlists := copyin_lists hnext
  have hargs := h.lists.cont
  rw [if_neg (mt h.lists.cont_eq_none.2 hne), hcont, ← h.src_add_part hne, h.round_eq] at hargs
  obtain rfl := Option.some.inj hargs
  have hlt := h.part_lt hne
  have hpos := h.part_pos hne
  have hround := le_roundPage h.bound
  refine ⟨h.bound, hlt, ?_, rfl, h.total, rfl, h.error, rfl, ?_⟩
  · dsimp only
    rw [hlists.size, ← Nat.add_assoc]
    exact hlists
  · dsimp only
    rw [if_neg (by omega), hlists.size]
    dsimp only
    omega

theorem dWrite_written : ior.dWrite .written = some
    ([⟨ior.recnum, bytesAt mem (w.srcAddr + before) copy.part, copy.part⟩], { ior with
        data := none
        mapped := kmemIoMapCopyout copy
        allocSize := copy.pageList.length * pageSize
        count := copy.part
        residual := 0
        copy := some copy }) := by
  unfold Ior.dWrite
  rw [h.lists.deviceWriteGet_eq h.data rfl]
  dsimp only
  rw [h.lists.mapped_eq]

theorem dWrite_failed (bytes : ℕ) : ior.dWrite (.failed bytes) = some
    ([⟨ior.recnum, bytesAt mem (w.srcAddr + before) copy.part, min bytes copy.part⟩], { ior with
        data := none
        mapped := kmemIoMapCopyout copy
        allocSize := copy.pageList.length * pageSize
        count := copy.part
        residual := copy.part - bytes
        error := true
        copy := some copy }) := by
  unfold Ior.dWrite
  rw [h.lists.deviceWriteGet_eq h.data rfl]
  dsimp only
  rw [h.lists.mapped_eq]

theorem dealloc_refused (bsize : ℕ) : ior.deviceWriteDealloc bsize mem source = (true, ior) := by
  unfold Ior.deviceWriteDealloc
  rw [h.copy]
  split <;> rfl

theorem last_covers {written : ℕ} {ended : Ended} {bytesWritten : ℤ}
    (hended : ended = .finished → copy.cont = none)
    (hbytes : bytesWritten = (w.len : ℤ) - (ior.count - written)) : Covers mem w before
        ⟨[⟨ior.recnum, bytesAt mem (w.srcAddr + before) copy.part, written⟩], ended, bytesWritten⟩ ↔
      ior.recnum * w.bsize = w.recnum * w.bsize + before ∧
        (0 < before → PageAligned (w.srcAddr + w.len)) := by
  rw [← h.exact_iff]
  by_cases hexact : before + ior.count = w.len
  · have hle : before + copy.part ≤ w.len := by
      by_cases hcont : copy.cont = none
      · rw [h.part_eq hcont, hexact]
      · exact (h.part_lt hcont).le
    rw [covers_single rfl hle fun hfinished => by rw [h.part_eq (hended hfinished), hexact]]
    refine and_congr_right fun _ => iff_of_true ?_ hexact
    dsimp only
    omega
  · refine iff_of_false (fun hcovers => hexact ?_) fun hboth => hexact hboth.2
    have hreported := hcovers.reported
    simp only [List.map_singleton, List.sum_singleton] at hreported
    omega

end Ready

omit [PageSize] in
theorem add_div_mul_iff {recnum c b n : ℕ} (h : recnum * b = n) :
    (recnum + c / b) * b = n + c ↔ b ∣ c := by
  rw [Nat.add_mul, h, Nat.add_left_cancel_iff]
  exact ⟨fun heq => ⟨c / b, by rw [Nat.mul_comm, heq]⟩, Nat.div_mul_cancel⟩

theorem writeLoop_covers {turns : List Turn} (h : Ready mem w before ior copy)
    (hturns : roundPage (w.srcAddr + w.len) ≤
      truncPage (w.srcAddr + before) + turns.length * pageSize) :
    (∃ o, writeLoop w.bsize mem turns ior = some o ∧ Covers mem w before o) ↔
      ior.recnum * w.bsize = w.recnum * w.bsize + before ∧
        (0 < before → PageAligned (w.srcAddr + w.len)) ∧ Fits mem w turns copy := by
  induction turns generalizing before ior copy with
  | nil =>
    have hle := le_roundPage h.bound
    have htrunc := truncPage_le h.lists.src_lt
    have hlt := h.lt
    simp only [List.length_nil, Nat.zero_mul, Nat.add_zero] at hturns
    omega
  | cons turn turns ih =>
    have halloc : copy.pageList.length * pageSize ≠ 0 :=
      (Nat.mul_pos h.lists.nonempty pageSize_pos).ne'
    have hpart := h.part_le
    unfold writeLoop Fits
    cases hdriver : turn.driver with
    | noRoom =>
      refine iff_of_false ?_ fun hright => hright.2.2.2.1 rfl
      rintro ⟨o, ho, -⟩
      cases ho
    | refused =>
      refine iff_of_false ?_ fun hright => hright.2.2.1 rfl
      rintro ⟨o, ho, hcovers⟩
      unfold Ior.dWrite at ho
      dsimp only at ho
      rw [h.dealloc_refused] at ho
      dsimp only at ho
      rw [h.total, h.residual] at ho
      obtain rfl := Option.some.inj ho
      have hreported := hcovers.reported
      have hlt := h.lt
      simp only [map_nil, List.sum_nil] at hreported
      omega
    | failed bytes =>
      rw [h.dWrite_failed]
      unfold Ior.deviceWriteDealloc
      dsimp only
      rw [if_neg halloc, h.total, h.lists.size]
      have hended : turn.ended ior ≠ .finished := by
        unfold Turn.ended
        rw [hdriver]
        nofun
      cases hcont : copy.cont with
      | none =>
        simp only [Option.some.injEq, exists_eq_left']
        rw [h.last_covers (fun hfinished => absurd hfinished hended) (by
          rw [← h.part_eq hcont]
          omega)]
        simp
      | some args =>
        simp only [Option.some.injEq, exists_eq_left', if_true]
        rw [h.last_covers (fun hfinished => absurd hfinished hended) (by omega)]
        simp
    | written =>
      rw [h.dWrite_written]
      unfold Ior.deviceWriteDealloc
      dsimp only
      rw [if_neg halloc, h.total, h.lists.size]
      cases hcont : copy.cont with
      | none =>
        simp only [Option.some.injEq, exists_eq_left']
        rw [h.last_covers (fun _ => hcont) (by
          rw [← h.part_eq hcont]
          omega)]
        simp
      | some args =>
        have hne : copy.cont ≠ none := hcont ▸ Option.some_ne_none args
        dsimp only
        rw [h.error]
        cases hnext : copyinPageList mem turn.source args.srcAddr args.srcLen true with
        | none =>
          have hended : turn.ended ior ≠ .finished := by
            unfold Turn.ended
            rw [hdriver, h.data, Option.bind_some, hcont]
            nofun
          simp only [Option.some.injEq, exists_eq_left', Bool.false_eq_true, if_false]
          rw [h.last_covers (fun hfinished => absurd hfinished hended) (by omega)]
          simp [hnext]
        | some next =>
          have hready := h.next w.bsize hcont hnext
          rw [h.error, h.total] at hready
          have htrunc := truncPage_eq_self hready.lists.src_lt
            (Nat.add_assoc w.srcAddr before copy.part ▸ h.part_aligned hne)
          have hpages := Nat.mul_le_mul_right pageSize h.lists.nonempty
          have heq := h.src_add_part hne
          rw [length_cons, Nat.add_mul] at hturns
          have hstep := ih hready (by omega)
          have hheld : copy.part = copy.held := if_neg hne
          have hpos : 0 < before + copy.part := Nat.add_pos_right before (h.part_pos hne)
          have hplaced : ior.recnum * w.bsize = w.recnum * w.bsize + before →
              ((ior.recnum + copy.part / w.bsize) * w.bsize =
                w.recnum * w.bsize + (before + copy.part) ↔ w.bsize ∣ copy.held) := fun hrec => by
            rw [← Nat.add_assoc, add_div_mul_iff hrec, hheld]
          dsimp only at hstep
          simp only [Bool.false_eq_true, if_false, Option.map_eq_some_iff, exists_exists_and_eq_and]
          have hcons : ∀ o : Outcome, Covers mem w before
              ⟨[⟨ior.recnum, bytesAt mem (w.srcAddr + before) copy.part, copy.part⟩] ++ o.pieces,
                o.ended, o.bytesWritten⟩ ↔ ior.recnum * w.bsize = w.recnum * w.bsize + before ∧
                  Covers mem w (before + copy.part) o := fun o =>
            covers_cons rfl rfl (h.part_lt hne).le
          simp only [hcons]
          constructor
          · rintro ⟨o, ho, hrec, hcovers⟩
            obtain ⟨hnextRec, halign, hfits⟩ := hstep.1 ⟨o, ho, hcovers⟩
            refine ⟨hrec, fun _ => halign hpos, nofun, nofun, fun _ args' hargs next' hnext' => ?_⟩
            obtain rfl := Option.some.inj hargs
            obtain rfl : next = next' := Option.some.inj (hnext.symm.trans hnext')
            exact ⟨halign hpos, (hplaced hrec).1 hnextRec, hfits⟩
          · rintro ⟨hrec, -, -, -, hfits⟩
            obtain ⟨halign, hdvd, hfits⟩ := hfits trivial args rfl next hnext
            obtain ⟨o, ho, hcovers⟩ := hstep.2 ⟨(hplaced hrec).2 hdvd, fun _ => halign, hfits⟩
            exact ⟨o, ho, hrec, hcovers⟩

end

local instance fourKilobytes : PageSize := pages4096

/-- Each part is written, and its continuation finds all pages. -/
def writtenTurn : Turn := ⟨.written, fun _ => .present⟩

end MachKernel.Device.Write
