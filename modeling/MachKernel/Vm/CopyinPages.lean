import MachKernel.Vm.CopyinAbort
import MachKernel.Vm.MapCopyOwned

/-! Which pages `vm_map_copyin_page_list` puts in its lists, and how it leaves the locks. -/

namespace MachKernel.Vm
open List Option
open Word32 Linked

section
variable {α : Type*}

/-- What a read at an address of the map sees: an offset of the object of its entry, or of the
entry of a sharing map that it leads to. -/
def Sees (maps : MapState α) (x : ℕ) (object : ObjId) (offset : ℕ) : Prop :=
  ∃ e ∈ maps.map.entries, e.Covers x ∧ e.isSubMap = false ∧
    (e.isAMap = false ∧ e.object = some object ∧ offset = add e.offset (sub x e.vmeStart) ∨
      e.isAMap = true ∧ ∃ j m, e.object = some j ∧ maps.kernel.mapAt j = some m ∧
        ∃ t ∈ m.entries, t.Covers (add e.offset (sub x e.vmeStart)) ∧ t.object = some object ∧
          offset = add t.offset (sub (add e.offset (sub x e.vmeStart)) t.vmeStart))

/-- The part of an entry up to an address. -/
def VmMapEntry.sizeTo (e : VmMapEntry) (hi : ℕ) : ℕ := min hi e.vmeEnd - e.vmeStart

/-- An entry shows memory: no address of it up to `hi` lies beyond the entry of the sharing map that
its first address leads to, and no offset wraps. -/
structure VmMapEntry.Fits (e : VmMapEntry) (k : Kernel α) (hi : ℕ) : Prop where
  plain : e.isSubMap = false
  memory : e.isAMap = false → e.offset + e.sizeTo hi < modulus
  share : e.isAMap = true → ∀ j m, e.object = some j → k.mapAt j = some m →
    ∀ t ∈ m.entries, t.Covers e.offset →
      e.offset + e.sizeTo hi ≤ t.vmeEnd ∧ t.offset + (e.offset + e.sizeTo hi - t.vmeStart) < modulus

/-- The maps, where the entries of a range show memory. -/
structure MapState.Fits [PageSize] (maps : MapState α) (lo hi : ℕ) : Prop where
  map : maps.map.WellFormed
  share : ∀ j m, maps.kernel.mapAt j = some m → m.WellFormed
  entries : ∀ e ∈ maps.map.entries, lo < e.vmeEnd → e.vmeStart < hi → e.Fits maps.kernel hi

end

/-! ## The source of an entry -/

section
variable {α : Type*} {k k' : Kernel α} {e : VmMapEntry} {hi : ℕ}

theorem VmMapEntry.Fits.congr (h : e.Fits k hi) (hmaps : k'.maps = k.maps) : e.Fits k' hi := by
  refine ⟨h.plain, h.memory, fun hmap j m hj hm => h.share hmap j m hj ?_⟩
  unfold Kernel.mapAt at hm ⊢
  rw [← hmaps]
  exact hm

theorem objectOf_maps (k : Kernel α) (e : VmMapEntry) :
    (CopyinPages.objectOf k e).2.maps = k.maps := by
  unfold CopyinPages.objectOf
  cases e.object <;> rfl

theorem mapAt_congr (hmaps : k'.maps = k.maps) (j : ℕ) : k'.mapAt j = k.mapAt j := by
  unfold Kernel.mapAt
  rw [hmaps]

theorem mapAt_setMap_ne {j j' : ℕ} (hne : j' ≠ j) (m : VmMap) :
    (k.setMap j m).mapAt j' = k.mapAt j' := by
  have hfind := @find_update _ SubMap.id (fun sm => { sm with map := m }) (fun _ => rfl) j j' k.maps
  unfold Kernel.mapAt Kernel.setMap
  dsimp only
  rw [hfind]
  cases k.maps.find? fun sm => sm.id = j' with
  | none => rfl
  | some sm => simp [hne]

variable [PageSize] {m : VmMap} {maps : MapState α} {lo : ℕ} {o : ObjId}

theorem setObject_wellFormed (h : m.WellFormed) (i : ℕ) (o : ObjId) :
    (CopyinPages.setObject m i o).WellFormed := by
  refine h.mapEntries fun e => ?_
  split_ifs <;> exact ⟨rfl, rfl, rfl⟩

omit [PageSize] in
theorem mem_setObject (he : e ∈ m.entries) (o : ObjId) :
    { e with object := some o } ∈ (CopyinPages.setObject m e.id o).entries := by
  have hmem := mem_map_of_mem
    (f := fun a => if a.id = e.id then { a with object := some o } else a) he
  rwa [if_pos rfl] at hmem

omit [PageSize] in
theorem setObject_mem {i : ℕ} {a : VmMapEntry} (ha : a ∈ (CopyinPages.setObject m i o).entries) :
    ∃ b ∈ m.entries, a = if b.id = i then { b with object := some o } else b := by
  obtain ⟨b, hb, rfl⟩ := mem_map.mp ha
  exact ⟨b, hb, rfl⟩

theorem MapState.Fits.setObject (h : maps.Fits lo hi) (he : e ∈ maps.map.entries)
    (hmap : e.isAMap = false) (o : ObjId) (hmaps : k.maps = maps.kernel.maps) :
    MapState.Fits ⟨k, CopyinPages.setObject maps.map e.id o⟩ lo hi := by
  refine ⟨setObject_wellFormed h.map e.id o, fun j m hm => h.share j m (mapAt_congr hmaps j ▸ hm),
    fun a ha hlo hhi => ?_⟩
  obtain ⟨b, hb, rfl⟩ := setObject_mem ha
  by_cases hid : b.id = e.id
  · rw [if_pos hid] at hlo hhi ⊢
    obtain rfl := h.map.distinct.eq_of_name hb he hid
    obtain ⟨hplain, hmemory, -⟩ := h.entries b hb hlo hhi
    exact ⟨hplain, hmemory, fun htrue => by rw [hmap] at htrue; cases htrue⟩
  · rw [if_neg hid] at hlo hhi ⊢
    exact (h.entries b hb hlo hhi).congr hmaps

theorem MapState.Fits.setShared (h : maps.Fits lo hi) {j : ℕ} {sm sm' : VmMap}
    (hj : maps.kernel.mapAt j = some sm) (hsm : sm'.WellFormed)
    (hentries : ∀ a ∈ sm'.entries, ∃ b ∈ sm.entries, a.vmeStart = b.vmeStart ∧
      a.vmeEnd = b.vmeEnd ∧ a.offset = b.offset) (hmaps : k.maps = maps.kernel.maps) :
    MapState.Fits ⟨k.setMap j sm', maps.map⟩ lo hi := by
  have hat : ∀ j' m, (k.setMap j sm').mapAt j' = some m → j' = j ∧ m = sm' ∨
      j' ≠ j ∧ maps.kernel.mapAt j' = some m := fun j' m hm => by
    rcases eq_or_ne j' j with rfl | hne
    · rw [Kernel.mapAt_setMap, mapAt_congr hmaps, hj] at hm
      exact .inl ⟨rfl, (some.inj hm).symm⟩
    · rw [mapAt_setMap_ne hne, mapAt_congr hmaps] at hm
      exact .inr ⟨hne, hm⟩
  refine ⟨h.map, fun j' m hm => ?_, fun e he hlo hhi => ?_⟩
  · rcases hat j' m hm with ⟨-, rfl⟩ | ⟨-, hm⟩
    · exact hsm
    · exact h.share j' m hm
  · obtain ⟨hplain, hmemory, hshare⟩ := h.entries e he hlo hhi
    refine ⟨hplain, hmemory, fun hmap j' m hj' hm t ht hc => ?_⟩
    rcases hat j' m hm with ⟨rfl, rfl⟩ | ⟨-, hm⟩
    · obtain ⟨b, hb, hstart, hend, hoffset⟩ := hentries t ht
      have hcb : b.Covers e.offset := by
        unfold VmMapEntry.Covers at hc ⊢
        rw [← hstart, ← hend]
        exact hc
      rw [hstart, hend, hoffset]
      exact hshare hmap j' sm hj' hj b hb hcb
    · exact hshare hmap j' m hj' hm t ht hc

/-- What the source of an entry is: its pages are those that reads see. -/
structure Source (s s' : CopyinPages α) (e : VmMapEntry) (object : ObjId) (srcOffset lo : ℕ) :
    Prop where
  srcSize : s'.srcSize = min s.srcEnd e.vmeEnd - s.srcStart
  fits : srcOffset + s'.srcSize < modulus
  sees : ∀ n < s'.srcSize, Sees s'.maps (s.srcStart + n) object (srcOffset + n)
  maps : s'.maps.Fits lo s.srcEnd
  same : s'.srcStart = s.srcStart ∧ s'.srcEnd = s.srcEnd ∧ s'.pageList = s.pageList ∧
    s'.cont = s.cont ∧ s'.looked = s.looked ∧ s'.locks = s.locks

omit [PageSize] in
theorem release_locks (s : CopyinPages α) (lock : Option ℕ) :
    Function.update (s.take lock).locks lock ((s.take lock).locks lock - 1) = s.locks :=
  s.release_take lock

theorem entrySource_spec {s s' : CopyinPages α} {object : ObjId} {srcOffset : ℕ}
    (h : s.maps.Fits lo s.srcEnd) (he : e ∈ s.maps.map.entries) (hc : e.Covers s.srcStart)
    (hlo : lo ≤ s.srcStart) (hlt : s.srcStart < s.srcEnd) (hend : s.srcEnd < modulus)
    (hr : s.entrySource e = some (object, srcOffset, s')) : Source s s' e object srcOffset lo := by
  obtain ⟨hstart, hstop⟩ := hc
  have hin := h.map.inside e he
  have hb := h.map.bounds
  obtain ⟨hplain, hmemory, hshare⟩ := h.entries e he (by omega) (by omega)
  have hto : e.sizeTo s.srcEnd = min s.srcEnd e.vmeEnd - e.vmeStart := rfl
  have hskip : sub s.srcStart e.vmeStart = s.srcStart - e.vmeStart := sub_of_le (by omega) hstart
  have hsize : (if e.vmeEnd < s.srcEnd then sub e.vmeEnd s.srcStart else sub s.srcEnd s.srcStart) =
      min s.srcEnd e.vmeEnd - s.srcStart := by
    split_ifs with hle
    · rw [sub_of_le (by omega) hstop.le, min_eq_right hle.le]
    · rw [sub_of_le hend hlt.le, min_eq_left (by omega)]
  have hpart : min s.srcEnd e.vmeEnd - e.vmeStart =
      (s.srcStart - e.vmeStart) + (min s.srcEnd e.vmeEnd - s.srcStart) := by omega
  unfold CopyinPages.entrySource at hr
  rw [hsize, hskip] at hr
  dsimp only at hr
  split_ifs at hr with hmap
  · -- the entry leads to a sharing map
    split at hr
    · cases hr
    · next j hj =>
      split at hr
      · cases hr
      · next sm hsm =>
        have hwf := (h.share j sm hsm).lock
        obtain ⟨found, hint, pre, post, hlook, hhint, hsplit, -, hcase⟩ :=
          hwf.lookupEntry_spec e.offset
        rw [hlook] at hr
        rcases hcase with ⟨rfl, -⟩ | ⟨rfl, init, tmp, rfl, -, htlo, hthi⟩
        · cases hr
        · have hplace : Linked.last VmMapEntry.id (init ++ [tmp]) = some tmp.id := by
            simp [Linked.last]
          have hwf' := hwf.saveHint hhint
          have htmp : tmp ∈ sm.entries := by
            change tmp ∈ sm.lock.entries
            rw [hsplit]
            simp
          have hat : (sm.lock.saveHint hint).entryAt tmp.id = some tmp := hwf'.entryAt htmp
          rw [hplace] at hr
          dsimp only at hr
          rw [hat] at hr
          dsimp only at hr
          obtain ⟨hinner, hoffset⟩ := hshare hmap j sm hj hsm tmp htmp ⟨htlo, hthi⟩
          have htin := hwf.inside tmp htmp
          have htb := hwf.bounds
          have hoff : add e.offset (s.srcStart - e.vmeStart) =
              e.offset + (s.srcStart - e.vmeStart) := add_of_lt (by omega)
          have hsub : ¬ sub tmp.vmeEnd (e.offset + (s.srcStart - e.vmeStart)) <
              min s.srcEnd e.vmeEnd - s.srcStart := by
            rw [sub_of_le (by omega) (by omega)]
            omega
          simp only [CopyinPages.take_maps, CopyinPages.take_srcStart, hskip, hoff, if_neg hsub,
            sub_of_le (show e.offset < modulus by omega) htlo] at hr
          have hkernel := objectOf_maps s.maps.kernel tmp
          generalize CopyinPages.objectOf s.maps.kernel tmp = ok at hr hkernel
          obtain ⟨o, k⟩ := ok
          cases hr
          have hsum : add (add tmp.offset (e.offset - tmp.vmeStart)) (s.srcStart - e.vmeStart) =
              tmp.offset + (e.offset - tmp.vmeStart) + (s.srcStart - e.vmeStart) := by
            rw [add_of_lt (a := tmp.offset) (by omega), add_of_lt (by omega)]
          have hentries := mem_setObject (m := sm.lock.saveHint hint) htmp o
          refine ⟨rfl, ?_, fun n hn => ?_, ?_, rfl, rfl, rfl, rfl, rfl, release_locks s (some j)⟩
          · rw [hsum]
            change _ + (min s.srcEnd e.vmeEnd - s.srcStart) < modulus
            omega
          · change n < min s.srcEnd e.vmeEnd - s.srcStart at hn
            have hx : sub (s.srcStart + n) e.vmeStart = s.srcStart - e.vmeStart + n := by
              rw [sub_of_le (by omega) (by omega)]
              omega
            have haddr : add e.offset (s.srcStart - e.vmeStart + n) =
                e.offset + (s.srcStart - e.vmeStart + n) := add_of_lt (by omega)
            refine ⟨e, he, ⟨by omega, by omega⟩, hplain, .inr ⟨hmap, j, _, hj, ?_, _, hentries, ?_,
              rfl, ?_⟩⟩
            · change (k.setMap j _).mapAt j = _
              rw [Kernel.mapAt_setMap, mapAt_congr hkernel, hsm]
              rfl
            · rw [hx, haddr]
              exact ⟨by dsimp only; omega, by dsimp only; omega⟩
            · rw [hx, haddr, hsum]
              dsimp only
              rw [sub_of_le (by omega) (by omega), add_of_lt (by omega)]
              omega
          · refine h.setShared hsm (setObject_wellFormed hwf' tmp.id o) (fun a ha => ?_) hkernel
            obtain ⟨b, hb, rfl⟩ := setObject_mem ha
            refine ⟨b, hb, ?_⟩
            split_ifs <;> exact ⟨rfl, rfl, rfl⟩
  · have hmemory' := hmemory (by simpa using hmap)
    have hkernel := objectOf_maps s.maps.kernel e
    generalize CopyinPages.objectOf s.maps.kernel e = ok at hr hkernel
    obtain ⟨o, k⟩ := ok
    cases hr
    have hsum : add e.offset (s.srcStart - e.vmeStart) = e.offset + (s.srcStart - e.vmeStart) :=
      add_of_lt (by omega)
    refine ⟨rfl, ?_, fun n hn => ?_, h.setObject he (by simpa using hmap) o hkernel, rfl, rfl, rfl,
      rfl, rfl, rfl⟩
    · rw [hsum]
      dsimp only
      omega
    · dsimp only at hn
      have hx : sub (s.srcStart + n) e.vmeStart = s.srcStart - e.vmeStart + n := by
        rw [sub_of_le (by omega) (by omega)]
        omega
      refine ⟨_, mem_setObject he o, ⟨by dsimp only; omega, by dsimp only; omega⟩, hplain,
        .inl ⟨by simpa using hmap, rfl, ?_⟩⟩
      dsimp only
      rw [hx, hsum, add_of_lt (by omega)]
      omega

end

/-! ## The pages of an entry -/

section
variable [PageSize] {α : Type*} {w : CopyinMeets α} {srcDestroy isCont : Bool} {lo hi stop : ℕ}
  {s s' : CopyinPages α} {object : ObjId} {locks : Option ℕ → ℤ}

/-- Each page of a list is the one that a read at its address sees. -/
def Lists (lo : ℕ) (l : List (ListedPage α)) : Prop :=
  ∀ i p, l[i]? = some p → Sees p.seen (lo + i * pageSize) p.object p.offset

/-- The locks with that of the source map taken. -/
def locked (locks : Option ℕ → ℤ) : Option ℕ → ℤ :=
  Function.update locks none (locks none + 1)

/-- Between pages: those up to `srcStart` are in the list. -/
structure Reading (held : Option ℕ → ℤ) (lo hi : ℕ) (s : CopyinPages α) : Prop where
  maps : s.maps.Fits lo hi
  locks : s.locks = held
  srcStart : s.srcStart = lo + s.pageList.length * pageSize
  srcEnd : s.srcEnd = hi
  cont : s.cont = none
  room : s.pageList.length ≤ vmMapCopyPageListMax
  looked : s.looked = s.pageList.length
  lists : Lists lo s.pageList

/-- The arguments of a continuation for what comes after the pages of a list. -/
structure VmMapCopyinArgs.Rest (args : VmMapCopyinArgs) (lo hi n : ℕ) : Prop where
  srcAddr : args.srcAddr = lo + n * pageSize
  srcLen : args.srcLen = hi - args.srcAddr
  left : args.srcAddr < hi

/-- After the pages of an entry, which ends at `stop`: it has been read, or the map has been
unlocked for a fault, or a continuation takes the rest. -/
structure PagesRead (locks : Option ℕ → ℤ) (lo hi stop : ℕ) (s : CopyinPages α) (need : Bool) :
    Prop where
  maps : s.maps.Fits lo hi
  locks : s.locks = if need then locks else locked locks
  srcStart : s.srcStart = lo + s.pageList.length * pageSize
  room : s.pageList.length ≤ vmMapCopyPageListMax
  lists : Lists lo s.pageList
  goesOn : s.cont = none ∧ s.srcEnd = hi ∧ s.looked = s.pageList.length ∧ s.srcStart ≤ stop ∧
      (need = false → s.srcStart = stop) ∨
    ∃ args, s.cont = some args ∧ args.Rest lo hi s.pageList.length ∧ s.srcEnd = s.srcStart ∧
      s.pageList ≠ []

/-- No fault fails, but in a continuation that has pages already; and in the windows of the faults
the other threads leave entries that show memory. -/
structure CopyinMeets.Mild (w : CopyinMeets α) (isCont : Bool) (lo hi : ℕ) : Prop where
  keeps : ∀ i others, w.sights i = .faulted others ∨ w.sights i = .memoryError others →
    ∀ maps : MapState α, maps.Fits lo hi → (others maps).Fits lo hi
  errors : ∀ i others, i < vmMapCopyPageListMax → w.sights i = .memoryError others →
    isCont = true ∧ 0 < i

omit [PageSize] in
theorem release_locked (h : s.locks = locked locks) : (s.release none).locks = locks := by
  unfold CopyinPages.release
  dsimp only
  rw [h]
  funext l
  rcases eq_or_ne l none with rfl | hne
  · simp [locked]
  · simp [locked, hne]

theorem Lists.append {l : List (ListedPage α)} (h : Lists lo l) {p : ListedPage α}
    (hp : Sees p.seen (lo + l.length * pageSize) p.object p.offset) : Lists lo (l ++ [p]) := by
  intro i q hq
  rcases Nat.lt_or_ge i l.length with hlt | hge
  · rw [List.getElem?_append_left hlt] at hq
    exact h i q hq
  · rw [List.getElem?_append_right hge] at hq
    obtain ⟨hi, rfl⟩ := List.getElem?_eq_some_iff.mp hq
    obtain rfl : i = l.length := by
      rw [length_singleton] at hi
      omega
    simpa using hp

theorem Reading.continuation (h : Reading locks lo hi s) (hlt : s.srcStart < hi)
    (hmod : hi < modulus) (srcDestroy stale : Bool) :
    ∃ args, (s.makeContinuation srcDestroy stale).cont = some args ∧
      args.Rest lo hi s.pageList.length := by
  refine ⟨_, rfl, h.srcStart, ?_, hlt⟩
  dsimp only
  rw [h.srcEnd, sub_of_le hmod hlt.le]

theorem Reading.list (h : Reading locks lo hi s) {srcOffset : ℕ}
    (hsees : Sees s.maps s.srcStart object srcOffset) (hadd : s.srcStart + pageSize < modulus)
    (hroom : s.pageList.length < vmMapCopyPageListMax) :
    Reading locks lo hi (s.list object srcOffset) := by
  have hlen : (s.list object srcOffset).pageList.length = s.pageList.length + 1 :=
    length_append
  refine ⟨h.maps, h.locks, ?_, h.srcEnd, h.cont, by omega, ?_, h.lists.append ?_⟩
  · rw [hlen, Nat.succ_mul, ← Nat.add_assoc, ← h.srcStart]
    exact add_of_lt hadd
  · rw [hlen, ← h.looked]
    rfl
  · rw [← h.srcStart]
    exact hsees

theorem pageLoop_spec (hw : w.Mild isCont lo hi) (hmod : hi < modulus) (hstop : stop ≤ hi)
    {srcLastOffset : ℕ} (hlast : srcLastOffset < modulus) (room : ℕ) :
    ∀ {s : CopyinPages α} {srcOffset : ℕ}, Reading (locked locks) lo hi s →
      room = vmMapCopyPageListMax - s.pageList.length → s.srcStart ≤ stop →
      pageSize ∣ stop - s.srcStart → srcOffset + (stop - s.srcStart) = srcLastOffset →
      (∀ n < stop - s.srcStart, Sees s.maps (s.srcStart + n) object (srcOffset + n)) →
      ∃ s' need, CopyinPages.pageLoop w srcDestroy isCont object srcLastOffset room srcOffset s =
        .ok (s', need) ∧ PagesRead locks lo hi stop s' need := by
  have hthrough : ∀ {s : CopyinPages α}, Reading (locked locks) lo hi s → s.srcStart = stop →
      PagesRead locks lo hi stop s false := fun h heq =>
    ⟨h.maps, h.locks, h.srcStart, h.room, h.lists,
      .inl ⟨h.cont, h.srcEnd, h.looked, heq.le, fun _ => heq⟩⟩
  induction room with
  | zero =>
    intro s srcOffset h hroom hle hdvd hoffset hsees
    unfold CopyinPages.pageLoop
    have hmax : vmMapCopyPageListMax = 8 := rfl
    split_ifs with hlt
    · obtain ⟨args, hcont, hrest⟩ := h.continuation (by omega) hmod srcDestroy w.stale
      refine ⟨_, _, rfl, h.maps, h.locks, h.srcStart, h.room, h.lists,
        .inr ⟨args, hcont, hrest, rfl, fun hnil => ?_⟩⟩
      have : s.pageList.length = 0 := by rw [show s.pageList = [] from hnil]; rfl
      omega
    · exact ⟨_, _, rfl, hthrough h (by omega)⟩
  | succ room ih =>
    intro s srcOffset h hroom hle hdvd hoffset hsees
    have hn : s.pageList.length < vmMapCopyPageListMax := by omega
    unfold CopyinPages.pageLoop
    split_ifs with hlt
    · have hpage : pageSize ≤ stop - s.srcStart := Nat.le_of_dvd (by omega) hdvd
      have hnext : add srcOffset pageSize = srcOffset + pageSize := add_of_lt (by omega)
      have hlisted : Reading (locked locks) lo hi (s.list object srcOffset) :=
        h.list (by simpa using hsees 0 (by omega)) (by omega) hn
      have hstart : (s.list object srcOffset).srcStart = s.srcStart + pageSize :=
        add_of_lt (by omega)
      cases hsight : w.sights s.looked with
      | resident =>
        dsimp only
        rw [hnext]
        have hlen : (s.list object srcOffset).pageList.length = s.pageList.length + 1 :=
          length_append
        refine ih hlisted (by omega) (by omega) ?_ (by omega) fun n hn => ?_
        · rw [hstart, Nat.sub_add_eq]
          exact Nat.dvd_sub hdvd dvd_rfl
        · rw [hstart] at hn ⊢
          have := hsees (pageSize + n) (by omega)
          rw [← Nat.add_assoc, ← Nat.add_assoc] at this
          exact this
      | faulted others =>
        refine ⟨_, _, rfl, hw.keeps _ _ (.inl hsight) _ h.maps, ?_, hlisted.srcStart, hlisted.room,
          hlisted.lists, .inl ⟨hlisted.cont, hlisted.srcEnd, hlisted.looked, ?_, nofun⟩⟩
        · exact release_locked hlisted.locks
        · change (s.list object srcOffset).srcStart ≤ stop
          omega
      | memoryError others =>
        obtain ⟨hcont, hpos⟩ := hw.errors _ others (by rw [h.looked]; exact hn) hsight
        have hne : s.pageList ≠ [] := fun hnil => by
          rw [h.looked, hnil] at hpos
          exact absurd hpos (Nat.lt_irrefl 0)
        dsimp only
        rw [if_pos ⟨hcont, hne⟩]
        obtain ⟨args, hargs, hrest⟩ := h.continuation (by omega) hmod srcDestroy w.stale
        exact ⟨_, _, rfl, hw.keeps _ _ (.inr hsight) _ h.maps, release_locked h.locks, h.srcStart,
          h.room, h.lists, .inr ⟨args, hargs, hrest, rfl, hne⟩⟩
    · exact ⟨_, _, rfl, hthrough h (by omega)⟩

/-! ## A call -/

/-- How the loop over the entries ends: the map is locked, and the list holds the pages of the range
or leaves the rest to a continuation. -/
def EntriesRead (locks : Option ℕ → ℤ) (lo hi : ℕ) : PagesEnd α → Prop
  | .panic => True
  | .error _ s => s.locks = locked locks
  | .copied s => s.locks = locked locks ∧ Lists lo s.pageList ∧
      (s.cont = none ∧ s.srcEnd = hi ∧ lo + s.pageList.length * pageSize = hi ∨
        ∃ args, s.cont = some args ∧ args.Rest lo hi s.pageList.length)

/-- Where the loop goes on: at an entry with the next address, or with a lookup. -/
def At (locks : Option ℕ → ℤ) (lo hi : ℕ) (s : CopyinPages α) : Option ℕ → Prop
  | none => Reading locks lo hi s
  | some i => Reading (locked locks) lo hi s ∧
      ∃ e ∈ s.maps.map.entries, e.id = i ∧ e.Covers s.srcStart

theorem Reading.lockMap (h : Reading locks lo hi s) : Reading (locked locks) lo hi s.lockMap :=
  ⟨⟨h.maps.map.lock, h.maps.share, h.maps.entries⟩, by rw [← h.locks]; rfl, h.srcStart, h.srcEnd,
    h.cont, h.room, h.looked, h.lists⟩

theorem entryLoop_spec (hw : w.Mild isCont lo hi) (hmod : hi < modulus) (hlo : PageAligned lo)
    (hhi : PageAligned hi) (turns : ℕ) :
    ∀ {s : CopyinPages α} {place : Option ℕ} {r : PagesEnd α}, At locks lo hi s place →
      s.srcStart < hi → CopyinPages.entryLoop w srcDestroy isCont turns s place = some r →
      EntriesRead locks lo hi r := by
  induction turns with
  | zero =>
    intro s place r _ _ hr
    cases hr
  | succ turns ih =>
    intro s place r h hlt hr
    cases place with
    | none =>
      have hlocked := Reading.lockMap h
      unfold CopyinPages.entryLoop at hr
      dsimp only at hr
      obtain ⟨found, hint, pre, post, hlook, hhint, hsplit, -, hcase⟩ :=
        hlocked.maps.map.lookupEntry_spec s.lockMap.srcStart
      have hmap := hlocked.maps.map.saveHint hhint
      rw [hlook] at hr
      rcases hcase with ⟨rfl, -⟩ | ⟨rfl, init, e, rfl, -, hstart, hend⟩
      · cases hr
        exact hlocked.locks
      · have hplace : Linked.last VmMapEntry.id (init ++ [e]) = some e.id := by
          simp [Linked.last]
        have he : e ∈ s.lockMap.maps.map.entries := by
          rw [hsplit]
          simp
        rw [hplace] at hr
        dsimp only at hr
        refine ih ?_ ?_ hr
        · exact ⟨⟨⟨hmap, hlocked.maps.share, hlocked.maps.entries⟩, hlocked.locks, hlocked.srcStart,
            hlocked.srcEnd, hlocked.cont, hlocked.room, hlocked.looked, hlocked.lists⟩, e, he, rfl,
            hstart, hend⟩
        · exact hlt
    | some i =>
      obtain ⟨hread, e, he, rfl, hc⟩ := h
      unfold CopyinPages.entryLoop at hr
      rw [hread.maps.map.entryAt he] at hr
      dsimp only at hr
      split_ifs at hr with hprot
      · cases hr
        exact hread.locks
      · split at hr
        · cases hr
          trivial
        · next object srcOffset s₁ hsource =>
          have hsrcEnd := hread.srcEnd
          obtain ⟨hsize, hfits, hsees, hmaps, hsame⟩ := entrySource_spec (hsrcEnd.symm ▸ hread.maps)
            he hc (by rw [hread.srcStart]; omega) (by omega) (by omega) hsource
          obtain ⟨hstart₁, hend₁, hlist₁, hcont₁, hlooked₁, hlocks₁⟩ := hsame
          have hread₁ : Reading (locked locks) lo hi s₁ :=
            ⟨hsrcEnd ▸ hmaps, hlocks₁.trans hread.locks, by rw [hstart₁, hlist₁, hread.srcStart],
              hend₁.trans hsrcEnd, hcont₁.trans hread.cont, by rw [hlist₁]; exact hread.room,
              by rw [hlooked₁, hlist₁, hread.looked], by rw [hlist₁]; exact hread.lists⟩
          have hin := hread.maps.map.inside e he
          have hal := hread.maps.map.aligned e he
          have hb := hread.maps.map.bounds
          have hcend := hc.2
          have hstop : PageAligned (min hi e.vmeEnd) := by
            rcases le_total hi e.vmeEnd with hle | hle
            · rw [min_eq_left hle]
              exact hhi
            · rw [min_eq_right hle]
              exact hal.2
          have hdvd : pageSize ∣ min hi e.vmeEnd - s₁.srcStart := by
            rw [hread₁.srcStart]
            exact Nat.dvd_sub hstop (Nat.dvd_add hlo (Nat.dvd_mul_left _ _))
          rw [hsrcEnd] at hsize
          have hsees₁ : ∀ n < min hi e.vmeEnd - s₁.srcStart,
              Sees s₁.maps (s₁.srcStart + n) object (srcOffset + n) := fun n hn => by
            rw [hstart₁] at hn ⊢
            exact hsees n (by omega)
          obtain ⟨s₂, need, hloop, hpages⟩ : ∃ s₂ need, CopyinPages.pageLoop w srcDestroy isCont
              object (srcOffset + s₁.srcSize) (vmMapCopyPageListMax - s₁.pageList.length) srcOffset
              s₁ = .ok (s₂, need) ∧ PagesRead locks lo hi (min hi e.vmeEnd) s₂ need :=
            pageLoop_spec hw hmod (min_le_left hi e.vmeEnd) hfits _ hread₁ rfl (by omega) hdvd
              (by omega) hsees₁
          rw [add_of_lt hfits, hloop] at hr
          dsimp only at hr
          have hlocks₂ : (if need = true then s₂.lockMap else s₂).locks = locked locks := by
            have hlocks := hpages.locks
            split_ifs with hneed
            · rw [if_pos hneed] at hlocks
              rw [← hlocks]
              rfl
            · rwa [if_neg hneed] at hlocks
          have hsame : (if need = true then s₂.lockMap else s₂).pageList = s₂.pageList ∧
              (if need = true then s₂.lockMap else s₂).cont = s₂.cont ∧
              (if need = true then s₂.lockMap else s₂).srcEnd = s₂.srcEnd := by
            split_ifs <;> exact ⟨rfl, rfl, rfl⟩
          rcases hpages.goesOn with ⟨hcont, hend₂, hlooked, hle, hthrough⟩ |
            ⟨args, hargs, hrest, hend₂, hne⟩
          · by_cases hdone : s₂.srcEnd ≤ s₂.srcStart ∧ s₂.srcEnd ≠ 0
            · -- the whole range has been read
              rw [if_pos hdone] at hr
              cases hr
              refine ⟨hlocks₂, ?_, .inl ⟨?_, ?_, ?_⟩⟩
              · rw [hsame.1]
                exact hpages.lists
              · rw [hsame.2.1]
                exact hcont
              · rw [hsame.2.2]
                exact hend₂
              · rw [hsame.1, ← hpages.srcStart]
                omega
            rw [if_neg hdone] at hr
            by_cases hneed : need = true
            · -- after a fault
              rw [if_pos hneed] at hr
              have hlocks := hpages.locks
              rw [if_pos hneed] at hlocks
              refine ih ?_ ?_ hr
              · exact ⟨hpages.maps, hlocks, hpages.srcStart, hend₂, hcont, hpages.room, hlooked,
                  hpages.lists⟩
              · omega
            · -- the next entry
              rw [if_neg hneed] at hr
              have hlocks := hpages.locks
              rw [if_neg hneed] at hlocks
              have hstart₂ := hthrough (by simpa using hneed)
              split at hr
              · split_ifs at hr
                · cases hr
                  exact hlocks
                · cases hr
                  trivial
              · next next rest hafter =>
                split_ifs at hr with hgap
                · cases hr
                  exact hlocks
                · have hnext : next ∈ s₂.maps.map.entries :=
                    mem_of_mem_after (hafter ▸ mem_cons_self)
                  have hne := hpages.maps.map.nonempty next hnext
                  refine ih ?_ ?_ hr
                  · refine ⟨⟨hpages.maps, hlocks, ?_, hend₂, hcont, hpages.room, hlooked,
                      hpages.lists⟩, next, hnext, rfl, ?_, ?_⟩
                    · dsimp only
                      rw [← hpages.srcStart]
                      omega
                    · dsimp only
                      omega
                    · dsimp only
                      omega
                  · dsimp only
                    omega
          · -- a continuation takes the rest
            have hpos : 0 < s₂.pageList.length := length_pos_of_ne_nil hne
            have hsize := Nat.mul_pos hpos (pageSize_pos)
            have hstart₂ := hpages.srcStart
            rw [if_pos (by omega)] at hr
            cases hr
            refine ⟨hlocks₂, ?_, .inr ⟨args, ?_, ?_⟩⟩
            · rw [hsame.1]
              exact hpages.lists
            · rw [hsame.2.1]
              exact hargs
            · rw [hsame.1]
              exact hrest

/-- What becomes of the lists and the locks when the pages are stolen. -/
structure Kept (s s' : CopyinPages α) : Prop where
  pageList : s'.pageList = s.pageList
  cont : s'.cont = s.cont
  srcEnd : s'.srcEnd = s.srcEnd
  locks : s'.locks = s.locks

omit [PageSize] in
theorem copied_kept (s : CopyinPages α) (maps : MapState α) :
    Kept s (CopyinPages.lockMap { s.release none with maps := maps }) := by
  refine ⟨rfl, rfl, rfl, ?_⟩
  funext l
  rcases eq_or_ne l none with rfl | hne
  · simp [CopyinPages.lockMap, CopyinPages.take, CopyinPages.release]
  · simp [CopyinPages.lockMap, CopyinPages.take, CopyinPages.release]

theorem stealLoop_kept {srcStart : ℕ} (n : ℕ) : ∀ {i unwireEnd : ℕ} {s s' : CopyinPages α},
      s.stealLoop w srcDestroy srcStart n i unwireEnd = some s' → Kept s s' := by
  induction n with
  | zero =>
    intro i unwireEnd s s' hr
    cases hr
    exact ⟨rfl, rfl, rfl, rfl⟩
  | succ n ih =>
    intro i unwireEnd s s' hr
    unfold CopyinPages.stealLoop at hr
    dsimp only at hr
    split at hr
    · cases hr
      exact copied_kept s _
    · split_ifs at hr with hsteal hwired
      · -- the entry of a wired page is unwired
        split at hr
        · split at hr
          · cases hr
          · have hkept := ih hr
            exact ⟨hkept.pageList, hkept.cont, hkept.srcEnd, hkept.locks⟩
        · cases hr
      · exact ih hr
      · cases hr
        exact copied_kept s _

/-- Nothing is left of the source but its destruction. -/
def Finished (copy : PageListCopy α) : Prop :=
  ∀ args, copy.cont = some args → args.srcLen = 0

/-- A call for the pages from `lo` to `hi`. -/
def PageListOutcome.Copies (held : Option ℕ → ℤ) (lo hi : ℕ) : PageListOutcome α → Prop
  | .panic => True
  | .ret _ copy _ locks => locks = held ∧ ∀ c, copy = some c → Lists lo c.pageList ∧
      (Finished c ∧ lo + c.pageList.length * pageSize = hi ∨
        ∃ args, c.cont = some args ∧ args.Rest lo hi c.pageList.length)

/-- What a call must meet for a range: the range does not end with the address space, its entries
show memory, and no fault fails, but in a continuation that has pages already. -/
structure CopyinMeets.Serves (w : CopyinMeets α) (isCont : Bool) (maps : MapState α)
    (srcAddr len : ℕ) : Prop where
  top : len = 0 ∨ roundPage (add srcAddr len) ≠ 0
  fits : maps.Fits (truncPage srcAddr) (roundPage (add srcAddr len))
  mild : w.Mild isCont (truncPage srcAddr) (roundPage (add srcAddr len))

variable {alwaysSteal : Bool} {maps : MapState α} {r : PageListOutcome α} {turns newCopy : ℕ}
  {args : VmMapCopyinArgs}

theorem vmMapCopyinPageList_spec {srcAddr len : ℕ}
    (h : w.Serves isCont maps srcAddr len) (haddr : srcAddr < modulus) {stealPages : Bool}
    (hr : vmMapCopyinPageList w alwaysSteal turns maps locks srcAddr len srcDestroy stealPages
      isCont = some r) : r.Copies locks (truncPage srcAddr) (roundPage (add srcAddr len)) := by
  unfold vmMapCopyinPageList at hr
  dsimp only at hr
  by_cases hlen : len = 0
  · rw [if_pos hlen] at hr
    cases hr
    exact ⟨rfl, nofun⟩
  rw [if_neg hlen] at hr
  have htop := h.top.resolve_left hlen
  by_cases hover : roundPage (add srcAddr len) ≤ truncPage srcAddr ∧
      (roundPage (add srcAddr len) < truncPage srcAddr ∨ truncPage srcAddr ≠ 0)
  · rw [if_pos hover] at hr
    cases hr
    exact ⟨rfl, nofun⟩
  rw [if_neg hover] at hr
  have hlt : truncPage srcAddr < roundPage (add srcAddr len) := by
    by_contra hle
    omega
  have hread : Reading locks (truncPage srcAddr) (roundPage (add srcAddr len))
      ⟨maps, locks, truncPage srcAddr, roundPage (add srcAddr len), 0, [], none, true, 0⟩ :=
    ⟨h.fits, rfl, by simp, rfl, rfl, Nat.zero_le _, rfl, nofun⟩
  have hspec := fun e => @entryLoop_spec _ α w srcDestroy isCont _ _ locks h.mild (roundPage_lt _)
    (truncPage_aligned haddr) (roundPage_aligned _) turns _ none e hread hlt
  generalize CopyinPages.entryLoop w srcDestroy isCont turns _ none = ends at hr hspec
  cases ends with
  | none => cases hr
  | some ends =>
    specialize hspec ends rfl
    cases ends with
    | panic =>
      cases hr
      trivial
    | error kr s =>
      cases hr
      exact ⟨release_locked hspec, nofun⟩
    | copied s =>
      obtain ⟨hlocked, hlists, hends⟩ := hspec
      dsimp only at hr
      by_cases hsteals : (alwaysSteal || stealPages) = true
      · rw [if_pos hsteals] at hr
        split at hr
        · cases hr
          trivial
        · next s' hsteal =>
          obtain ⟨hlist, hcont, -, hlocks⟩ := stealLoop_kept _ hsteal
          cases hr
          refine ⟨release_locked (hlocks.trans hlocked), fun c hc => ?_⟩
          cases hc
          dsimp only
          rw [hlist]
          refine ⟨hlists, ?_⟩
          rcases hends with ⟨hnone, -, hall⟩ | ⟨args, hargs, hrest⟩
          · refine .inl ⟨fun args hargs => ?_, hall⟩
            dsimp only at hargs
            rw [hcont, hnone] at hargs
            cases hargs
          · exact .inr ⟨args, hcont.trans hargs, hrest⟩
      · rw [if_neg hsteals] at hr
        cases hr
        refine ⟨release_locked hlocked, fun c hc => ?_⟩
        cases hc
        refine ⟨hlists, ?_⟩
        rcases hends with ⟨hnone, -, hall⟩ | ⟨args, hargs, hrest⟩
        · -- at most the destruction of the source is left
          refine .inl ⟨fun args hargs => ?_, hall⟩
          dsimp only at hargs
          rw [hnone] at hargs
          split_ifs at hargs
          cases hargs
          rfl
        · refine .inr ⟨args, ?_, hrest⟩
          dsimp only
          rw [if_neg fun hdestroy => by rw [hargs] at hdestroy; cases hdestroy.2]
          exact hargs

theorem vmMapCopyInvokeCont_spec {n : ℕ} (hargs : args.Rest lo hi n)
    (hlo : PageAligned lo) (hhi : PageAligned hi) (hmod : hi < modulus)
    (h : w.Serves true maps args.srcAddr args.srcLen)
    (hr : vmMapCopyInvokeCont w alwaysSteal turns maps locks args newCopy = some (.done r)) :
    r.Copies locks (lo + n * pageSize) hi := by
  obtain ⟨haddr, hlen, hleft⟩ := hargs
  have hal : PageAligned (lo + n * pageSize) := Nat.dvd_add hlo (Nat.dvd_mul_left _ _)
  have hstart : truncPage args.srcAddr = lo + n * pageSize := by
    rw [haddr]
    exact truncPage_eq_self (by omega) hal
  have hsum : add args.srcAddr args.srcLen = hi := by
    rw [hlen, add_of_lt (by omega)]
    omega
  have hend : roundPage hi = hi := by
    have hle := hhi.le_of_lt (b := modulus) pageSize_dvd_modulus hmod
    have := pageSize_pos
    exact (roundPage_eq_iff (by unfold pageMask; omega)).mpr hhi
  unfold vmMapCopyInvokeCont vmMapCopyinPageListCont at hr
  rw [if_neg (by simp; omega)] at hr
  obtain ⟨r₁, hcall, hdone⟩ := map_eq_some_iff.mp hr
  have hcopies := vmMapCopyinPageList_spec h (by omega) hcall
  rw [hstart, hsum, hend] at hcopies
  cases r₁ with
  | panic =>
    cases hdone
    trivial
  | ret result copy maps' locks' =>
    dsimp only at hdone
    split_ifs at hdone with hdestroy
    · cases copy with
      | none =>
        cases hdone
        trivial
      | some copy =>
        cases hdone
        obtain ⟨hlocks, hcopy⟩ := hcopies
        refine ⟨hlocks, fun c hc => ?_⟩
        cases hc
        obtain ⟨hlists, hends⟩ := hcopy copy rfl
        refine ⟨hlists, ?_⟩
        rcases hends with ⟨hfinished, hall⟩ | ⟨args', hargs', hrest⟩
        · refine .inl ⟨fun a ha => ?_, hall⟩
          obtain ⟨b, hb, rfl⟩ := map_eq_some_iff.mp ha
          exact hfinished b hb
        · refine .inr ⟨_, map_eq_some_iff.mpr ⟨args', hargs', rfl⟩, ?_⟩
          exact ⟨hrest.srcAddr, hrest.srcLen, hrest.left⟩
    · cases hdone
      exact hcopies

/-! ## A call and its continuations -/

/-- The copy's continuation, if there is one. -/
def PageListOutcome.cont : PageListOutcome α → Option VmMapCopyinArgs
  | .ret _ (some copy) _ _ => copy.cont
  | _ => none

def PageListOutcome.pages : PageListOutcome α → List (ListedPage α)
  | .ret _ (some copy) _ _ => copy.pageList
  | _ => []

/-- The locks are as they were before the call; a panic is no exit. -/
def PageListOutcome.Balanced (held : Option ℕ → ℤ) : PageListOutcome α → Prop
  | .ret _ _ _ locks => locks = held
  | .panic => True

/-- The outcome has a copy, which leaves nothing of the source to read. -/
def PageListOutcome.Whole : PageListOutcome α → Prop
  | .ret _ (some copy) _ _ => Finished copy
  | _ => False

/-- The call of a continuation, with the maps and the locks that it finds. -/
structure ContCall (α : Type*) where
  args : VmMapCopyinArgs
  meets : CopyinMeets α
  turns : ℕ
  newCopy : ℕ
  maps : MapState α
  locks : Option ℕ → ℤ
  outcome : PageListOutcome α

/-- The continuations are invoked one after the other, each from the copy of the call before. -/
def Invoked (alwaysSteal : Bool) : PageListOutcome α → List (ContCall α) → Prop
  | _, [] => True
  | r, c :: calls => r.cont = some c.args ∧
      vmMapCopyInvokeCont c.meets alwaysSteal c.turns c.maps c.locks c.args c.newCopy =
        some (.done c.outcome) ∧
      Invoked alwaysSteal c.outcome calls

/-- The pages of a call and of its continuations. -/
def allPages (r : PageListOutcome α) (calls : List (ContCall α)) : List (ListedPage α) :=
  r.pages ++ calls.flatMap fun c => c.outcome.pages

/-- How the last of the calls ends. -/
def lastOutcome (r : PageListOutcome α) (calls : List (ContCall α)) : PageListOutcome α :=
  (calls.getLast?.map ContCall.outcome).getD r

/-- The pages are those that reads from `lo` on see, up to `hi` when the copies are whole; and each
call leaves the locks as they were. -/
structure CopiesRange (held : Option ℕ → ℤ) (lo hi : ℕ) (r : PageListOutcome α)
    (calls : List (ContCall α)) : Prop where
  pages : Lists lo (allPages r calls)
  whole : (lastOutcome r calls).Whole → lo + (allPages r calls).length * pageSize = hi
  locks : r.Balanced held ∧ ∀ c ∈ calls, c.outcome.Balanced c.locks

theorem Lists.join {l l' : List (ListedPage α)} (h : Lists lo l)
    (h' : Lists (lo + l.length * pageSize) l') : Lists lo (l ++ l') := by
  intro i p hp
  rcases Nat.lt_or_ge i l.length with hlt | hge
  · rw [getElem?_append_left hlt] at hp
    exact h i p hp
  · rw [getElem?_append_right hge] at hp
    have hsees := h' _ p hp
    rwa [Nat.add_assoc, ← Nat.add_mul, Nat.add_sub_cancel' hge] at hsees

theorem PageListOutcome.Copies.lists (h : r.Copies locks lo hi) : Lists lo r.pages := by
  rcases r with ⟨kr, _ | copy, maps, held⟩ | _
  · nofun
  · exact (h.2 copy rfl).1
  · nofun

theorem PageListOutcome.Copies.balanced (h : r.Copies locks lo hi) : r.Balanced locks := by
  cases r with
  | panic => trivial
  | ret => exact h.1

theorem PageListOutcome.Copies.range (h : r.Copies locks lo hi) : CopiesRange locks lo hi r [] := by
  have hpages : allPages r [] = r.pages := append_nil _
  refine ⟨?_, fun hwhole => ?_, h.balanced, forall_mem_nil _⟩
  · rw [hpages]
    exact h.lists
  · rw [hpages]
    rcases r with ⟨kr, _ | copy, maps, held⟩ | _
    · exact hwhole.elim
    · rcases (h.2 copy rfl).2 with ⟨-, hall⟩ | ⟨args, hcont, hrest⟩
      · exact hall
      · have hlen := hwhole args hcont
        obtain ⟨-, hrest, hleft⟩ := hrest
        omega
    · exact hwhole.elim

theorem destroy_cont (hlen : args.srcLen = 0)
        (hr : vmMapCopyInvokeCont w alwaysSteal turns maps locks args newCopy = some (.done r)) :
    r.cont = none ∧ r.pages = [] ∧ r.Balanced locks ∧ ¬ r.Whole := by
  unfold vmMapCopyInvokeCont vmMapCopyinPageListCont at hr
  rw [if_pos (by simp [hlen])] at hr
  cases hr
  exact ⟨rfl, rfl, rfl, id⟩

theorem Invoked.copies (hhi : PageAligned hi) (hmod : hi < modulus) (calls : List (ContCall α)) :
    ∀ {lo : ℕ} {held : Option ℕ → ℤ} {r : PageListOutcome α}, PageAligned lo →
      r.Copies held lo hi → Invoked alwaysSteal r calls →
      (∀ c ∈ calls, c.meets.Serves true c.maps c.args.srcAddr c.args.srcLen) →
      CopiesRange held lo hi r calls := by
  induction calls with
  | nil =>
    intro lo held r _ h _ _
    exact h.range
  | cons c calls ih =>
    intro lo held r hlo h hinvoked hserves
    obtain ⟨hcont, hcall, hinvoked⟩ := hinvoked
    rcases r with ⟨kr, _ | copy, maps, locks'⟩ | _
    · cases hcont
    · have hlast : ∀ r₀ : PageListOutcome α, lastOutcome r₀ (c :: calls) =
          lastOutcome c.outcome calls := fun r₀ => by
        unfold lastOutcome
        rw [getLast?_cons]
        cases calls.getLast? <;> rfl
      have hpages : ∀ r₀ : PageListOutcome α, allPages r₀ (c :: calls) =
          r₀.pages ++ allPages c.outcome calls := fun r₀ => rfl
      obtain ⟨hlocks, hcopy⟩ := h
      obtain ⟨hlists, hends⟩ := hcopy copy rfl
      rcases hends with ⟨hfinished, -⟩ | ⟨args, hargs, hrest⟩
      · -- the continuation only destroys the source
        obtain ⟨hnone, hno, hbalanced, hwhole⟩ := destroy_cont (hfinished _ hcont) hcall
        obtain rfl : calls = [] := by
          cases calls with
          | nil => rfl
          | cons c' calls =>
            have hmore := hinvoked.1
            rw [hnone] at hmore
            cases hmore
        refine ⟨?_, fun h => (hwhole h).elim, hlocks, fun c' hc' => ?_⟩
        · rw [hpages]
          unfold allPages
          rw [hno]
          exact hlists.join nofun
        · rw [mem_singleton.mp hc']
          exact hbalanced
      · obtain rfl : args = c.args := some.inj (hargs.symm.trans hcont)
        have hcopies := vmMapCopyInvokeCont_spec hrest hlo hhi hmod (hserves c mem_cons_self) hcall
        obtain ⟨hlists', hwhole, hbalanced⟩ := ih (Nat.dvd_add hlo (Nat.dvd_mul_left _ _)) hcopies
          hinvoked fun c' hc' => hserves c' (mem_cons_of_mem _ hc')
        refine ⟨?_, fun h => ?_, hlocks, ?_⟩
        · rw [hpages]
          exact hlists.join hlists'
        · rw [hlast] at h
          have hend := hwhole h
          rw [hpages, length_append, Nat.add_mul]
          change lo + (copy.pageList.length * pageSize + _) = hi
          omega
        · intro c' hc'
          rcases mem_cons.mp hc' with rfl | hc'
          · exact hbalanced.1
          · exact hbalanced.2 c' hc'
    · cases hcont

end

theorem ninePages_fits (lo hi : ℕ) : letI := pages4096; ninePages.Fits lo hi := by
  let _ := pages4096
  refine ⟨⟨pairwise_singleton _ _, ?_, ?_, ?_, rfl, rfl, ⟨by decide, by decide, by decide⟩,
    nodup_singleton 0, ?_, nofun, nofun⟩, fun j m hm => ?_, fun e he _ _ => ?_⟩
  · simp [ninePages, writableEntry]
  · simp only [ninePages, mem_singleton, forall_eq]
    decide
  · simp [ninePages, VmMap.create, writableEntry]
  · simp [ninePages, writableEntry]
  · simp [ninePages, Kernel.mapAt] at hm
  · obtain rfl := mem_singleton.mp he
    refine ⟨rfl, fun _ => ?_, fun h => by cases h⟩
    have := min_le_right hi 36864
    change 0 + (min hi 36864 - 0) < modulus
    have : (36864 : ℕ) < modulus := by decide
    omega

theorem allResident_mild [PageSize] (isCont : Bool) (lo hi : ℕ) : allResident.Mild isCont lo hi :=
  ⟨fun _ _ h => h.elim nofun nofun, nofun⟩

/-- How much is left to the continuation of a copy. -/
def ContEnd.rest {α : Type} : ContEnd α → Option (Option ℕ)
  | .done (.ret _ (some copy) _ _) => some (copy.cont.map VmMapCopyinArgs.srcLen)
  | _ => none

/-- Two pages of a sharing map that has an entry for each, and a page of memory after them. -/
def sharedPages : MapState ℕ where
  kernel := ⟨noObjects, fun _ => false, [], 0, [⟨1, 1, { VmMap.create 0 65536 with
      entries := [{ writableEntry with vmeEnd := 4096, object := some 10 },
        { writableEntry with id := 1, vmeStart := 4096, vmeEnd := 8192, object := some 11 }]
      nentries := 2
      size := 8192
      nextId := 2 }⟩]⟩
  map :=
    { VmMap.create 0 65536 with
      entries := [{ writableEntry with vmeEnd := 8192, object := some 1, isAMap := true },
        { writableEntry with id := 1, vmeStart := 8192, vmeEnd := 12288, object := some 12 }]
      nentries := 2
      size := 12288
      nextId := 2 }

/-- The only page of a map cannot be read. -/
def unreadable : CopyinMeets ℕ := { allResident with sights := fun _ => .memoryError id }

end MachKernel.Vm
