import MachKernel.Vm.CopyinPageList

/-! Discarding a page list before its continuation has been invoked. -/

namespace MachKernel.Vm
open Word32 Linked

section
variable {α : Type*}

/-- Discarding a copy comes to its end. It unmaps what is left of a range that is to be destroyed,
and nothing else. -/
def Discards (maps : MapState α) (args : VmMapCopyinArgs) (r : Option (ContEnd α)) : Prop :=
  ∃ kr maps' locks, r = some (.done (.ret kr none maps' locks)) ∧ ∀ x, view maps'.map.entries x =
      if args.destroyAddr ≤ x ∧ x < args.destroyAddr + args.destroyLen then none
      else view maps.map.entries x

variable [PageSize] {copy : PageListCopy α} {args : VmMapCopyinArgs} {out : Target → ℕ}

theorem discard_nullStore (hcont : copy.cont = some args) (w : CopyinMeets α) (alwaysSteal : Bool)
    (turns : ℕ) (maps : MapState α) (locks : Option ℕ → ℤ) :
    copy.discard w alwaysSteal turns maps locks = some (.nullStore
      (maps.vmMapRemove args.srcAddr (add args.srcAddr args.srcLen)).2) := by
  unfold PageListCopy.discard
  rw [hcont]
  rfl

/-- Whatever the copy and the state of the source, the continuation is aborted with a store through
a missing pointer. -/
theorem discard_faults (hcont : copy.cont = some args) (w : CopyinMeets α) (alwaysSteal : Bool)
    (turns : ℕ) (maps : MapState α) (locks : Option ℕ → ℤ) :
    (∃ maps', copy.discard w alwaysSteal turns maps locks = some (.nullStore maps')) ∧
      ¬ Discards maps args (copy.discard w alwaysSteal turns maps locks) := by
  have hnull := discard_nullStore hcont w alwaysSteal turns maps locks
  refine ⟨⟨_, hnull⟩, ?_⟩
  rintro ⟨kr, maps', locks', hdone, -⟩
  rw [hnull] at hdone
  cases hdone

end

/-- Nine pages of memory, one more than a list holds. -/
def ninePages : MapState ℕ where
  kernel := ⟨noObjects, fun _ => false, [], 0, []⟩
  map :=
    { VmMap.create 0 65536 with
      entries := [{ writableEntry with vmeEnd := 36864 }]
      nentries := 1
      size := 36864
      nextId := 1 }

/-- All pages are there. -/
def allResident : CopyinMeets ℕ := ⟨fun _ => .resident, fun _ => .keeps, id, false⟩

/-- The arguments left to the continuation of a copy. -/
def PageListOutcome.rest {α : Type} : PageListOutcome α → Option (ℕ × ℕ × ℕ × ℕ × Bool)
  | .ret .success (some copy) _ _ => copy.cont.map fun a =>
    (a.srcAddr, a.srcLen, a.destroyAddr, a.destroyLen, a.stealPages)
  | _ => none

theorem ninePages_copied : letI := pages4096
    ∃ copy maps locks, vmMapCopyinPageList allResident true 2 ninePages (fun _ => 0) 0 36864 false
        false false = some (.ret .success (some copy) maps locks) ∧
      copy.cont = some ⟨32768, 4096, 0, 0, false⟩ := by
  let _ := pages4096
  have hrun : (vmMapCopyinPageList allResident true 2 ninePages (fun _ => 0) 0 36864 false false
      false).bind PageListOutcome.rest = some (32768, 4096, 0, 0, false) := by decide +kernel
  obtain ⟨r, hr, hcopy⟩ := Option.bind_eq_some_iff.mp hrun
  unfold PageListOutcome.rest at hcopy
  split at hcopy
  · next copy maps locks =>
    obtain ⟨args, hcont, hargs⟩ := Option.map_eq_some_iff.mp hcopy
    obtain ⟨srcAddr, srcLen, destroyAddr, destroyLen, stealPages⟩ := args
    cases hargs
    exact ⟨copy, maps, locks, hr, hcont⟩
  · cases hcopy

theorem discard_faults_ninePages : letI := pages4096
    ∃ copy maps locks, vmMapCopyinPageList allResident true 2 ninePages (fun _ => 0) 0 36864 false
        false false = some (.ret .success (some copy) maps locks) ∧
      (∃ maps', copy.discard allResident true 2 maps locks = some (.nullStore maps')) ∧
      ¬ Discards maps ⟨32768, 4096, 0, 0, false⟩ (copy.discard allResident true 2 maps locks) := by
  let _ := pages4096
  obtain ⟨copy, maps, locks, hr, hcont⟩ := ninePages_copied
  exact ⟨copy, maps, locks, hr, discard_faults hcont allResident true 2 maps locks⟩

/-- The copy of the nine pages cannot be discarded. -/
theorem ninePages_undiscardable : letI := pages4096
    ∃ copy maps locks args, vmMapCopyinPageList allResident true 2 ninePages (fun _ => 0) 0 36864
        false false false = some (.ret .success (some copy) maps locks) ∧ copy.cont = some args ∧
      ¬ Discards maps args (copy.discard allResident true 2 maps locks) := by
  let _ := pages4096
  obtain ⟨copy, maps, locks, hr, hcont⟩ := ninePages_copied
  refine ⟨copy, maps, locks, _, hr, hcont, ?_⟩
  rintro ⟨kr, maps', locks', hdone, -⟩
  rw [discard_nullStore hcont] at hdone
  cases hdone

end MachKernel.Vm
