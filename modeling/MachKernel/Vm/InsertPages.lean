import MachKernel.Vm.Copyout
import MachKernel.Vm.DeleteWait

/-! The range that `vm_map_copyout_page_list` takes, and the turns of its loop. -/

namespace MachKernel.Vm
open List Option
open Word32 Linked

/-! ## Room -/

section
variable [PageSize] {m m' : VmMap} {pre post : List VmMapEntry} {c size start : ℕ}
  {place last' : Option ℕ}

theorem copyoutSpace_spec (hwf : m.WellFormed) (hpos : 0 < size) (hlt : size < modulus)
    (hal : PageAligned size) (hgap : Gap m.entries m.minOffset c place pre post)
    (h : copyoutSpace size m.maxOffset c place post = some (start, last')) :
    ∃ pre' post', last' = last VmMapEntry.id pre' ∧ FreeRange m pre' post' start size := by
  have hb := hwf.bounds
  have haligned : ∀ {c place pre post}, Gap m.entries m.minOffset c place pre post →
      c < modulus ∧ PageAligned c := fun hgap =>
    Gap.start_aligned hwf (by omega) hb.2.2 (by rwa [max_self])
  have hroom : ∀ {c place pre post}, Gap m.entries m.minOffset c place pre post →
      ¬ (m.maxOffset < add c size ∨ add c size < c) → add c size = c + size ∧
        c + size ≤ m.maxOffset := fun hgap hfits => by
    have hadd := add_of_le_add (haligned hgap).1 hlt (by omega)
    omega
  induction post generalizing c place pre with
  | nil =>
    rw [copyoutSpace] at h
    split_ifs at h with hfits
    cases h
    obtain ⟨-, hmax⟩ := hroom hgap hfits
    exact ⟨pre, [], hgap.place, hgap.freeRange le_rfl le_rfl hmax (by simp) hpos
      ⟨(haligned hgap).2, hal⟩⟩
  | cons next rest ih =>
    rw [copyoutSpace] at h
    split_ifs at h with hfits hnext
    · cases h
      obtain ⟨hadd, hmax⟩ := hroom hgap hfits
      refine ⟨pre, next :: rest, hgap.place, hgap.freeRange le_rfl le_rfl hmax (fun e he => ?_) hpos
        ⟨(haligned hgap).2, hal⟩⟩
      have hasc := hwf.ascending
      rw [hgap.split] at hasc
      have hasc' := (pairwise_append.mp hasc).2.1
      rcases mem_cons.mp he with rfl | he
      · omega
      · have := (pairwise_cons.mp hasc').1 e he
        have := hwf.nonempty next (by rw [hgap.split]; simp)
        omega
    · exact ih (hgap.next hwf) h

end

/-- A page of memory is at an address: in the object of an entry. -/
structure VmMapEntry.Places (e : VmMapEntry) (x : ℕ) (object : ObjId) (offset : ℕ) : Prop where
  inside : e.vmeStart ≤ x ∧ x < e.vmeEnd
  memory : e.isAMap = false ∧ e.isSubMap = false
  object : e.object = some object
  offset : add e.offset (sub x e.vmeStart) = offset

/-- An address has its place, and its entry is in transition. -/
def VmMap.Transit (m : VmMap) (x : ℕ) (object : ObjId) (offset : ℕ) : Prop :=
  ∃ e ∈ m.entries, e.inTransition = true ∧ e.Places x object offset

/-- What other threads do while the map is unlocked: it stays well formed, and what is in transition
stays where it is. -/
def Unlocked.Heeds {α : Type*} [PageSize] (w : Unlocked α) : Prop :=
  ∀ s : MapState α, s.map.WellFormed → (w.others s).map.WellFormed ∧
    ∀ x object offset, s.map.Transit x object offset → (w.others s).map.Transit x object offset

theorem VmMap.WellFormed.firstFree_gap [PageSize] {m : VmMap} (hwf : m.WellFormed) :
    ∃ pre post, after VmMapEntry.id m.firstFree m.entries = post ∧
      Gap m.entries m.minOffset m.copyoutStart m.firstFree pre post := by
  have hstart : m.searchStart m.minOffset = (m.copyoutStart, m.firstFree, m) := by
    unfold VmMap.searchStart VmMap.copyoutStart
    rw [if_pos rfl]
    cases m.firstFree <;> rfl
  obtain ⟨c, place, hint, pre, post, hsearch, -, hgap⟩ := hwf.searchStart_spec m.minOffset
  rw [hstart] at hsearch
  obtain ⟨rfl, rfl, -⟩ := Prod.mk.inj hsearch |>.imp_right Prod.mk.inj
  refine ⟨pre, post, ?_, hgap⟩
  have hd := hwf.distinct
  rw [hgap.split] at hd
  rw [hgap.place, hgap.split, after_last hd]

namespace MapState
variable {α : Type*} [PageSize] {s s' : MapState α} {size start : ℕ} {last' : Option ℕ}

theorem findRoom_spec {ws ws' : List (Unlocked α)} (hwf : s.map.WellFormed) (hpos : 0 < size)
    (hlt : size < modulus) (hal : PageAligned size) (hws : ∀ w ∈ ws, w.Heeds)
    (hr : s.findRoom size ws = some (some (start, last'), s', ws')) :
    s'.map.WellFormed ∧ (∀ w ∈ ws', w.Heeds) ∧
      ∃ pre post, last' = last VmMapEntry.id pre ∧ FreeRange s'.map pre post start size := by
  fun_induction MapState.findRoom size ws s with
  | case1 ws s m found hfound =>
    cases hr
    obtain ⟨pre, post, hafter, hgap⟩ := hwf.lock.firstFree_gap
    rw [hafter] at hfound
    exact ⟨hwf.lock, hws, copyoutSpace_spec hwf.lock hpos hlt hal hgap hfound⟩
  | case2 => cases hr
  | case3 s m hfull hwait w ws ih =>
    exact ih (hws w mem_cons_self _ hwf.lock).1 (fun w hw => hws w (mem_cons_of_mem _ hw)) hr
  | case4 => cases hr

end MapState

/-- The size that the pages of a copy have together. -/
def MapCopy.span [PageSize] (copy : MapCopy) : ℕ :=
  sub (roundPage (add copy.offset copy.size)) (truncPage copy.offset)

namespace CopyoutState
variable {α : Type*}

/-! ## The entry for the pages -/

section
variable [PageSize] {s s' : CopyoutState α} {pre post : List VmMapEntry} {run : CollapseRun}
  {start size i offset : ℕ} {object : ObjId}

/-- What `vm_map_copyout_page_list` makes of the map before it inserts pages: the range is taken,
and it is part of an entry in transition, which holds the object that the pages go to. -/
structure Marks (m m' : VmMap) (start size i : ℕ) (object : ObjId) (offset : ℕ)
    (e : VmMapEntry) : Prop where
  takes : m.Takes m' start size
  mem : e ∈ m'.entries
  id : e.id = i
  inTransition : e.inTransition = true
  stop : e.vmeEnd = start + size
  places : e.Places start object offset
  others : ∀ a ∈ m'.entries, a ≠ e → a ∈ m.entries

theorem createLast_marks (hwf : s.map.WellFormed) (hrange : FreeRange s.map pre post start size) :
    ∃ e, Marks s.map (s.createLast start size (last VmMapEntry.id pre)).2.2.map start size
      (s.createLast start size (last VmMapEntry.id pre)).2.1
      (s.createLast start size (last VmMapEntry.id pre)).1 0 e := by
  have hstop : add start size = start + size := by
    have := hrange.inside
    have := hwf.bounds
    exact add_of_lt (by omega)
  have hsub : sub start start = 0 := by
    have := hrange.inside
    have := hwf.bounds
    rw [sub_of_le (by omega) le_rfl, Nat.sub_self]
  have hpos := hrange.pos
  let e : VmMapEntry :=
    { id := s.map.nextId, vmeStart := start, vmeEnd := add start size
      object := some (s.kernel.store.vmObjectAllocate size).1
      offset := 0, isAMap := false, isSubMap := false, inTransition := true, needsWakeup := false
      needsCopy := false, protection := vmProtDefault, maxProtection := vmProtAll
      inheritance := vmInheritDefault, wiredCount := 0, userWiredCount := 0 }
  have hlinked : (s.createLast start size (last VmMapEntry.id pre)).2.2.map.entries =
      (s.map.entryLink (last VmMapEntry.id pre) e).entries := rfl
  obtain ⟨hentries, ht⟩ := hrange.single hwf ⟨rfl, rfl, hstop⟩ hlinked ⟨rfl, rfl, rfl⟩ ⟨rfl, rfl⟩
    rfl (by
      unfold CopyoutState.createLast
      dsimp only
      split_ifs
      · exact .inr rfl
      · exact .inl rfl)
  refine ⟨e, ht, ?_, rfl, rfl, hstop, ⟨⟨le_rfl, ?_⟩, ⟨rfl, rfl⟩, rfl, ?_⟩, fun a ha hne => ?_⟩
  · rw [hentries]
    exact mem_append_right _ mem_cons_self
  · change start < add start size
    omega
  · change add 0 (sub start start) = 0
    rw [hsub]
    rfl
  · rw [hentries] at ha
    rw [hrange.split]
    simp only [mem_append, mem_cons] at ha ⊢
    tauto

theorem extendLast_marks (hwf : s.map.WellFormed) {init : List VmMapEntry} {e : VmMapEntry}
    (hrange : FreeRange s.map (init ++ [e]) post start size) (hend : e.vmeEnd = start)
    (hplain : e.isAMap = false ∧ e.isSubMap = false) (store : ObjectStore α) :
    ∃ e', Marks s.map (s.extendLast e store object offset start size).map start size e.id object
      (add offset (sub start e.vmeStart)) e' := by
  have hstop : add start size = start + size := by
    have := hrange.inside
    have := hwf.bounds
    exact add_of_lt (by omega)
  have hmem : e ∈ s.map.entries := by rw [hrange.split]; simp
  have hlt := hwf.nonempty e hmem
  have hpos := hrange.pos
  have hsplit : s.map.entries = init ++ e :: post := by rw [hrange.split, append_assoc]; rfl
  let e' : VmMapEntry := { e with
    object := some object, offset := offset, vmeEnd := start + size, inTransition := true }
  have hentries : (s.extendLast e store object offset start size).map.entries =
      init ++ [e'] ++ post := by
    unfold CopyoutState.extendLast
    dsimp only
    rw [hsplit, hstop, update_split (hsplit ▸ hwf.distinct), append_assoc]
    rfl
  have hgrown : e'.id = e.id ∧ e'.vmeStart = e.vmeStart ∧ e'.vmeEnd = start + size :=
    ⟨rfl, rfl, rfl⟩
  have ht := hrange.grow hwf hend hgrown hentries ⟨rfl, rfl, rfl⟩ ⟨rfl, rfl⟩ (.inr rfl) (.inl rfl)
  refine ⟨e', ht, ?_, rfl, rfl, rfl, ⟨⟨?_, ?_⟩, hplain, rfl, rfl⟩, fun a ha hne => ?_⟩
  · rw [hentries]
    simp
  · change e.vmeStart ≤ start
    omega
  · change start < start + size
    omega
  · rw [hentries] at ha
    rw [hrange.split]
    simp only [mem_append, mem_singleton] at ha ⊢
    tauto

theorem pageListEntry_marks (hwf : s.map.WellFormed) (hrange : FreeRange s.map pre post start size)
    (hr : s.pageListEntry run start size (last VmMapEntry.id pre) = some (object, i, offset, s')) :
    SamePages s s' ∧ s'.queueFree = s.queueFree ∧ s'.npages = s.npages ∧
      ∃ e, Marks s.map s'.map start size i object offset e := by
  unfold CopyoutState.pageListEntry at hr
  dsimp only at hr
  split at hr
  · cases hr
    exact ⟨⟨rfl, rfl, rfl⟩, rfl, rfl, createLast_marks hwf hrange⟩
  · next e hlast =>
    obtain ⟨i, hi, hat⟩ := bind_eq_some_iff.mp hlast
    by_cases hext : extensible start e = true
    · rw [if_pos hext] at hr
      unfold extensible at hext
      simp only [decide_eq_true_eq] at hext
      obtain ⟨hend, hmap, hsub, -⟩ := hext
      obtain ⟨init, e₀, rfl⟩ : ∃ init e₀, pre = init ++ [e₀] := by
        rcases eq_nil_or_concat' pre with rfl | h
        · cases hi
        · exact h
      obtain rfl : e₀ = e := by
        have hid : e₀.id = i := by simpa [last] using hi
        have hfind := hwf.entryAt (e := e₀) (by rw [hrange.split]; simp)
        rw [hid, hat] at hfind
        exact (some.inj hfind).symm
      cases hobject : e₀.object with
      | none =>
        rw [hobject] at hr
        cases hr
        have hzero : add 0 (sub start e₀.vmeStart) = sub start e₀.vmeStart := by
          rw [add_of_lt (by have := sub_lt start e₀.vmeStart; omega), Nat.zero_add]
        refine ⟨⟨rfl, rfl, rfl⟩, rfl, rfl, ?_⟩
        rw [← hzero]
        exact extendLast_marks hwf hrange hend ⟨hmap, hsub⟩ _
      | some o =>
        rw [hobject] at hr
        dsimp only at hr
        split at hr
        · cases hr
        · next store hcollapse =>
          split at hr
          · cases hr
          · next ob hob =>
            split_ifs at hr
            · cases hr
              exact ⟨⟨rfl, rfl, rfl⟩, rfl, rfl,
                createLast_marks (s := { s with kernel := { s.kernel with store := store } }) hwf
                  hrange⟩
            · cases hr
              exact ⟨⟨rfl, rfl, rfl⟩, rfl, rfl, extendLast_marks hwf hrange hend ⟨hmap, hsub⟩ _⟩
    · rw [if_neg hext] at hr
      cases hr
      exact ⟨⟨rfl, rfl, rfl⟩, rfl, rfl, createLast_marks hwf hrange⟩

end

/-- What is known when the first page is about to be inserted: the map in which the room was found,
the range and its entry, the object and the offset of the first page, and the state. -/
structure Prepared (α : Type*) where
  before : VmMap
  start : ℕ
  object : ObjId
  entry : ℕ
  offset : ℕ
  ws : List (Unlocked α)
  state : CopyoutState α

section
variable [PageSize]

/-- `vm_map_copyout_page_list` up to `insert_pages`. -/
def prepare (s : CopyoutState α) (run : CollapseRun) (ws : List (Unlocked α)) (c : CopyId)
    (copy : MapCopy) : Option (Prepared α) :=
  (s.stealTabled c).bind fun s =>
    match s.toMapState.findRoom copy.span ws with
    | some (some (start, last), t, ws) =>
      (CopyoutState.pageListEntry { s with toMapState := t } run start copy.span last).map
        fun (object, entry, offset, s) => ⟨t.map, start, object, entry, offset, ws, s⟩
    | _ => none

/-- A call that found room: what the loop has inserted, and what is done after it. -/
structure Returned (s s' : CopyoutState α) (run : CollapseRun) (ws : List (Unlocked α)) (c : CopyId)
    (copy : MapCopy) (kr : KernReturn) (address : ℕ) (p : Prepared α) (r : Inserted α) (c' : CopyId)
    (last : MapCopy) (t : MapState α) : Prop where
  prepare : s.prepare run ws c copy = some p
  insertPages : insertPages p.object (copy.span / pageSize) p.offset p.ws
    ⟨.success, some c, false, p.state⟩ 0 = some r
  left : r.copy = some c'
  zone : r.state.zone c' = some last
  clear : r.state.toMapState.clearTransition r.contInvoked p.entry p.start (add p.start copy.span) =
    some t
  result : kr = r.result
  success : kr = .success → address = add p.start (sub last.offset (truncPage last.offset)) ∧
    s' = CopyoutState.zfree { r.state with toMapState := t } c'
  failure : kr ≠ .success → s' = CopyoutState.zfree
    { r.state with toMapState := (t.vmMapDelete p.start (add p.start copy.span)).2 } c'

theorem vmMapCopyoutPageList_returned {s s' : CopyoutState α} {run : CollapseRun}
    {ws : List (Unlocked α)} {c : CopyId} {copy : MapCopy} {kr : KernReturn} {address : ℕ}
    (hr : s.vmMapCopyoutPageList run ws c copy = some (kr, address, s')) :
    kr = .noSpace ∧ s.prepare run ws c copy = none ∨
      ∃ p r c' last t, Returned s s' run ws c copy kr address p r c' last t := by
  unfold CopyoutState.vmMapCopyoutPageList at hr
  split at hr
  · cases hr
  · next s₁ hsteal =>
    dsimp only at hr
    split at hr
    · cases hr
    · next t ws' hroom =>
      obtain ⟨s₂, -, hr⟩ := map_eq_some_iff.mp hr
      cases hr
      refine .inl ⟨rfl, ?_⟩
      unfold CopyoutState.prepare MapCopy.span
      rw [hsteal, bind_some, hroom]
    · next start last t ws' hroom =>
      split at hr
      · cases hr
      · next object i offset s₂ hentry =>
        have hprepare : s.prepare run ws c copy =
            some ⟨t.map, start, object, i, offset, ws', s₂⟩ := by
          unfold CopyoutState.prepare MapCopy.span
          rw [hsteal, bind_some, hroom]
          dsimp only
          rw [hentry]
          rfl
        split at hr
        · next result c' contInvoked s₃ hinsert =>
          split at hr
          · next copy' t' hzone hclear =>
            refine .inr ⟨⟨t.map, start, object, i, offset, ws', s₂⟩,
              ⟨result, some c', contInvoked, s₃⟩, c', copy', t', ?_⟩
            split_ifs at hr with hsuccess
            · cases hr
              exact ⟨hprepare, hinsert, rfl, hzone, hclear, hsuccess.symm, fun _ => ⟨rfl, rfl⟩,
                fun hne => absurd rfl hne⟩
            · cases hr
              exact ⟨hprepare, hinsert, rfl, hzone, hclear, rfl, fun heq => absurd heq hsuccess,
                fun _ => rfl⟩
          · cases hr
        · cases hr

end

/-! ## The turns of the loop -/

/-- Where the loop is: the times that the map is still unlocked, what has been inserted, and the
number of the next page in the list of the copy. -/
structure Turn (α : Type*) where
  ws : List (Unlocked α)
  inserted : Inserted α
  i : ℕ

/-- A turn of `insertPages`, after which the loop goes on or ends. -/
def insertTurn (object : ObjId) (offset : ℕ) (t : Turn α) : Option (Turn α ⊕ Inserted α) :=
  match t.inserted.copy with
  | none => none
  | some c =>
    match t.inserted.state.zone c with
    | some ⟨copyOffset, copySize, .pageList pageList npages cont⟩ =>
      match pageList[t.i]? with
      | some (some m) =>
        match t.inserted.state.vmPageReplace m object offset with
        | none => none
        | some s =>
          let rest (cont : Option Cont) : MapCopy :=
            ⟨copyOffset, copySize, .pageList (pageList.set t.i none) (npages - 1) cont⟩
          match npages - 1, cont with
          | 0, some cont =>
            match t.ws with
            | [] => none
            | w :: ws =>
              match (s.setCopy c (rest none)).invokeCont w c cont with
              | none => none
              | some (.success, copy, s) => some (.inl ⟨ws, ⟨.success, copy, true, s⟩, 0⟩)
              | some (result, copy, s) => some (.inr ⟨result, copy, true, s⟩)
          | _, cont =>
            some (.inl ⟨t.ws, { t.inserted with state := s.setCopy c (rest cont) }, t.i + 1⟩)
      | _ => none
    | _ => none

theorem insertPages_succ [PageSize] (object : ObjId) (turns offset : ℕ) (t : Turn α) :
    insertPages object (turns + 1) offset t.ws t.inserted t.i =
      match insertTurn object offset t with
      | none => none
      | some (.inr r) => some r
      | some (.inl t) => insertPages object turns (add offset pageSize) t.ws t.inserted t.i := by
  obtain ⟨ws, r, i⟩ := t
  conv_lhs => unfold CopyoutState.insertPages
  unfold CopyoutState.insertTurn
  dsimp only
  cases r.copy with
  | none => rfl
  | some c =>
    dsimp only
    cases r.state.zone c with
    | none => rfl
    | some copy =>
      obtain ⟨copyOffset, copySize, body⟩ := copy
      cases body with
      | entryList entries => rfl
      | object object => rfl
      | pageList pageList npages cont =>
        dsimp only
        rcases pageList[i]? with _ | _ | m
        · rfl
        · rfl
        · dsimp only
          cases r.state.vmPageReplace m object offset with
          | none => rfl
          | some s =>
            dsimp only
            rcases npages - 1 with _ | n
            · cases cont with
              | none => rfl
              | some cont =>
                cases ws with
                | nil => rfl
                | cons w ws =>
                  simp only
                  rcases (s.setCopy c ⟨copyOffset, copySize, .pageList (pageList.set i none) 0
                    none⟩).invokeCont w c cont with _ | ⟨result, copy, s⟩
                  · rfl
                  · cases result <;> rfl
            · cases cont <;> rfl

/-! ## The map in the loop -/

section
variable {s s' : CopyoutState α} {c : CopyId} {m : PageId} {object : ObjId} {offset : ℕ}
  {w : Unlocked α} {cont : Cont} {result : KernReturn} {copy : Option CopyId}

theorem vmPageFree_map (hr : s.vmPageFree m = some s') : s'.map = s.map := by
  unfold CopyoutState.vmPageFree at hr
  split_ifs at hr
  cases hr
  rfl

theorem copyPageDiscard_map {pageList : List (Option PageId)} {npages : ℕ}
    (hr : s.copyPageDiscard pageList npages = some s') : s'.map = s.map := by
  induction npages generalizing s with
  | zero =>
    cases hr
    rfl
  | succ npages ih =>
    unfold CopyoutState.copyPageDiscard at hr
    split at hr
    · exact ih hr
    · split at hr
      · exact (ih hr :)
      · obtain ⟨s₁, hfree, hr⟩ := bind_eq_some_iff.mp hr
        rw [ih hr, vmPageFree_map hfree]

theorem vmMapCopyDiscard_map {c : Option CopyId} (hr : s.vmMapCopyDiscard c = some s') :
    s'.map = s.map := by
  unfold CopyoutState.vmMapCopyDiscard at hr
  split at hr
  · cases hr
    rfl
  · split at hr
    · cases hr
    · split at hr
      · cases hr
        rfl
      · cases hr
        rfl
      · obtain ⟨s₁, hdiscard, hr⟩ := map_eq_some_iff.mp hr
        cases hr
        exact (copyPageDiscard_map hdiscard :)

theorem stealPage_map {m' : PageId} (hr : s.stealPage m = some (m', s')) : s'.map = s.map := by
  unfold CopyoutState.stealPage at hr
  split at hr
  · split at hr
    · cases hr
    · cases hr
      rfl
  · cases hr
    rfl

theorem stealPages_map {l l' : List (Option PageId)} {npages : ℕ}
    (hr : s.stealPages l npages = some (l', s')) : s'.map = s.map := by
  fun_induction CopyoutState.stealPages l npages s generalizing l' with
  | case1 => cases hr; rfl
  | case2 s m l npages ih =>
    obtain ⟨⟨m', s₁⟩, hsteal, hr⟩ := bind_eq_some_iff.mp hr
    obtain ⟨⟨l₂, s₂⟩, hrest, hr⟩ := map_eq_some_iff.mp hr
    cases hr
    rw [ih s₁ hrest, stealPage_map hsteal]
  | case3 => cases hr

theorem stealTabled_map (hr : s.stealTabled c = some s') : s'.map = s.map := by
  unfold CopyoutState.stealTabled at hr
  split at hr
  · split at hr
    · obtain ⟨⟨l, s₁⟩, hsteal, hr⟩ := map_eq_some_iff.mp hr
      cases hr
      exact (stealPages_map hsteal :)
    · cases hr
      rfl
  · cases hr

theorem takePages_map (pages : List (PageId × PagePlace)) : (s.takePages pages).map = s.map := by
  rw [(takePages_spec pages).2.2.1]

theorem invokeCont_map (hr : s.invokeCont w c cont = some (result, copy, s')) :
    s'.map = (w.others s.toMapState).map.lock := by
  unfold CopyoutState.invokeCont at hr
  dsimp only at hr
  cases cont with
  | fails result =>
    cases hr
    rfl
  | null =>
    obtain ⟨s₁, hdiscard, hr⟩ := map_eq_some_iff.mp hr
    cases hr
    exact congrArg VmMap.lock (vmMapCopyDiscard_map hdiscard)
  | pageList offset size pages cont =>
    obtain ⟨s₁, hdiscard, hr⟩ := bind_eq_some_iff.mp hr
    obtain ⟨s₂, hsteal, hr⟩ := map_eq_some_iff.mp hr
    cases hr
    refine congrArg VmMap.lock ?_
    rw [stealTabled_map hsteal, vmMapCopyDiscard_map hdiscard]
    exact takePages_map (s := { s with toMapState := w.others s.toMapState }) pages

theorem insertTurn_map {t : Turn α} {next : Turn α ⊕ Inserted α}
    (hr : insertTurn object offset t = some next) :
    (∃ t', next = .inl t' ∧ t'.ws = t.ws ∧ t'.inserted.state.map = t.inserted.state.map ∧
        t'.inserted.contInvoked = t.inserted.contInvoked ∧ t'.inserted.result = t.inserted.result) ∨
      ∃ w ws k r, t.ws = w :: ws ∧
        r.state.map = (w.others ⟨k, t.inserted.state.map⟩).map.lock ∧ r.contInvoked = true ∧
        (r.result = .success ∧ next = .inl ⟨ws, r, 0⟩ ∨ r.result ≠ .success ∧ next = .inr r) := by
  unfold CopyoutState.insertTurn at hr
  split at hr
  · cases hr
  · next c hcopy =>
    split at hr
    · split at hr
      · split at hr
        · cases hr
        · next s hreplace =>
          have hsame := (vmPageReplace_spec hreplace).2.2.1
          dsimp only at hr
          split at hr
          · split at hr
            · cases hr
            · next w ws hws =>
              split at hr
              · cases hr
              · next copy s₁ hinvoke =>
                cases hr
                refine .inr ⟨w, ws, s.kernel, _, hws, ?_, rfl, .inl ⟨rfl, rfl⟩⟩
                rw [← hsame]
                exact (invokeCont_map hinvoke :)
              · next result copy s₁ hne hinvoke =>
                cases hr
                refine .inr ⟨w, ws, s.kernel, _, hws, ?_, rfl, .inr ⟨fun h => hne h, rfl⟩⟩
                rw [← hsame]
                exact (invokeCont_map hinvoke :)
          · cases hr
            exact .inl ⟨_, rfl, rfl, congrArg MapState.map hsame, rfl, rfl⟩
      · cases hr
    · cases hr

theorem prepare_marks [PageSize] {run : CollapseRun} {ws : List (Unlocked α)} {copy : MapCopy}
    {p : Prepared α} (hwf : s.map.WellFormed) (hpos : 0 < copy.span) (hal : PageAligned copy.span)
    (hws : ∀ w ∈ ws, w.Heeds) (hp : s.prepare run ws c copy = some p) :
    ∃ pre post e s₁, p.before.WellFormed ∧ FreeRange p.before pre post p.start copy.span ∧
      Marks p.before p.state.map p.start copy.span p.entry p.object p.offset e ∧
      (∀ w ∈ p.ws, w.Heeds) ∧ s.stealTabled c = some s₁ ∧ SamePages s₁ p.state ∧
      p.state.queueFree = s₁.queueFree ∧ p.state.npages = s₁.npages := by
  unfold CopyoutState.prepare at hp
  obtain ⟨s₁, hsteal, hp⟩ := bind_eq_some_iff.mp hp
  split at hp
  · next start last' t ws' hroom =>
    obtain ⟨⟨object, i, offset, s₂⟩, hentry, hp⟩ := map_eq_some_iff.mp hp
    cases hp
    obtain ⟨hwf', hws', pre, post, rfl, hrange⟩ := MapState.findRoom_spec
      (stealTabled_map hsteal ▸ hwf) hpos (sub_lt _ _) hal hws hroom
    obtain ⟨hsame, hqueue, hn, e, hmarks⟩ := pageListEntry_marks
      (s := { s₁ with toMapState := t }) hwf' hrange hentry
    exact ⟨pre, post, e, s₁, hwf', hrange, hmarks, hws', hsteal,
      ⟨hsame.zone, hsame.pages, hsame.nextCopy⟩, hqueue, hn⟩
  · cases hp

theorem insertPages_keeps [PageSize] {P : VmMap → Prop} (hlock : ∀ m, P m → P m.lock) {turns : ℕ}
    {t : Turn α} {r : Inserted α} (hws : ∀ w ∈ t.ws, ∀ s : MapState α, P s.map → P (w.others s).map)
    (hr : insertPages object turns offset t.ws t.inserted t.i = some r)
    (h : P t.inserted.state.map) : P r.state.map := by
  induction turns generalizing offset t with
  | zero =>
    cases hr
    exact h
  | succ turns ih =>
    rw [insertPages_succ] at hr
    cases hturn : insertTurn object offset t with
    | none =>
      rw [hturn] at hr
      cases hr
    | some next =>
      rw [hturn] at hr
      rcases insertTurn_map hturn with ⟨t', rfl, hsame, hmap, -⟩ |
        ⟨w, ws, k, r', heq, hmap, -, hnext⟩
      · exact ih (hsame ▸ hws) hr (hmap ▸ h)
      · have hleft : P r'.state.map := by
          rw [hmap]
          exact hlock _ (hws w (by rw [heq]; exact mem_cons_self) _ h)
        rcases hnext with ⟨-, rfl⟩ | ⟨-, rfl⟩
        · refine ih (fun w hw => hws w ?_) hr hleft
          rw [heq]
          exact mem_cons_of_mem _ hw
        · cases hr
          exact hleft

end

end CopyoutState

end MachKernel.Vm
