import WordMachine.Proofs.Assembly.Program

/-! Indices in bounds: patches go to instructions that are there, and labels lie in the order of
their declaration. -/
namespace WordMachine.Assembly

def Draft.InBounds (draft : Draft) : Prop :=
  ∀ opened ∈ draft.openOperands.toList, opened.index < draft.placed.size

@[simp] private theorem Draft.size_mending (draft : Draft) (opened : List OpenOperand) :
    (draft.mending opened).placed.size = draft.placed.size := by
  have hlength (placed : List Placed) :
      (opened.foldl (mendAt draft.labels.toList) placed).length = placed.length := by
    induction opened generalizing placed with
    | nil => rfl
    | cons one opened ih => rw [List.foldl_cons, ih, mendAt, List.length_modify]
  rw [Draft.mending, List.size_toArray, hlength, Array.length_toList]

namespace Drafting

variable {draft draft' : Draft}

private theorem inBounds_of_read {statement : Statement} (h : draft.Silent)
    (hbounds : draft.InBounds)
    (hread : read statement draft = .ok () draft') : draft'.InBounds := by
  obtain ⟨-, entry, -, rfl⟩ | ⟨-, rfl⟩ := cases_of_read h hread
  · have hsize : ((draft.declaring statement.labels).placing statement entry).placed.size =
        draft.placed.size + 1 := Array.size_push _
    intro opened hopened
    rw [Draft.openOperands_placing, List.mem_append] at hopened
    rw [hsize]
    rcases hopened with hbefore | hnew
    · exact Nat.lt_succ_of_lt (hbounds opened hbefore)
    · rw [(Draft.of_mem_opened hnew).1]
      exact Nat.lt_succ_self _
  · exact hbounds

private theorem inBounds_of_forM_read {statements : List Statement} (h : draft.Silent)
    (hbounds : draft.InBounds) (hread : statements.forM read draft = .ok () draft') :
    draft'.InBounds :=
  forM_read_induct h hbounds (fun _ _ _ _ hsilent hbounds hone =>
    inBounds_of_read hsilent hbounds hone) hread

end Drafting

/-- Whatever has been patched before, the next patch goes to an instruction that is there. -/
theorem index_lt_of_patch {ramSize : Nat} {source : List Char} {draft middle : Draft}
    {front rest : List OpenOperand} {opened : OpenOperand}
    (hread : (statements source).forM Drafting.read (.blank ramSize) = .ok () draft)
    (hopen : draft.openOperands.toList = front ++ opened :: rest)
    (hpatch : front.forM Drafting.patch draft = .ok () middle) :
    opened.index < middle.placed.size := by
  have hnone : (Draft.blank ramSize).InBounds := nofun
  have hbounds := Drafting.inBounds_of_forM_read (silent_blank ramSize) hnone hread
  have hsilent := (Drafting.grows_of_forM_read (silent_blank ramSize) hread).silent
  have hkind : ∀ one ∈ front, one.operand.kind ≠ .register := by
    intro one hone
    exact kind_of_read hread one (hopen ▸ List.mem_append_left _ hone)
  -- Patches change instructions, but never how many there are.
  obtain ⟨-, rfl⟩ := (Drafting.forM_patch_eq_ok hsilent hkind).mp hpatch
  rw [Draft.size_mending]
  exact hbounds opened (hopen ▸ List.mem_append_right front (List.mem_cons_self ..))

section Labels

variable {index : Nat} {statements : List Statement}

/-- A label lies between the index at which reading starts and the one at which it ends. -/
private theorem index_le_of_mem_labelsFrom {label : Label}
    (h : label ∈ labelsFrom index statements) :
    index ≤ label.index ∧ label.index ≤ index + statements.countP Statement.hasInstruction := by
  induction statements generalizing index with
  | nil => cases h
  | cons statement rest ih =>
    rw [List.countP_cons]
    rcases List.mem_append.mp h with hhere | hlater
    · obtain ⟨name, -, rfl⟩ := List.mem_map.mp hhere
      exact ⟨Nat.le_refl index, Nat.le_add_right index _⟩
    · obtain ⟨hlower, hupper⟩ := ih hlater
      omega

private theorem labelsFrom_sorted (index : Nat) (statements : List Statement) :
    (labelsFrom index statements).Pairwise fun label later => label.index ≤ later.index := by
  induction statements generalizing index with
  | nil => exact .nil
  | cons statement rest ih =>
    refine List.pairwise_append.mpr ⟨?_, ih _, ?_⟩
    · rw [List.pairwise_map]
      exact List.pairwise_of_forall fun _ _ => Nat.le_refl index
    · intro label hlabel later hlater
      obtain ⟨name, -, rfl⟩ := List.mem_map.mp hlabel
      exact Nat.le_trans (Nat.le_add_right index _) (index_le_of_mem_labelsFrom hlater).1

theorem names_labelsFrom (index : Nat) (statements : List Statement) :
    (labelsFrom index statements).map Label.name = statements.flatMap Statement.labels := by
  induction statements generalizing index with
  | nil => rfl
  | cons statement rest ih =>
    rw [labelsFrom, List.map_append, ih, List.map_map, List.flatMap_cons]
    congr 1
    exact List.map_id _

end Labels

section Program

variable {ramSize : Nat} {source : List Char} {program : Program}

private theorem size_eq_of_assemble (h : assemble ramSize source = .ok program) :
    program.size = (statements source).countP Statement.hasInstruction := by
  obtain ⟨-, hfulfils, -⟩ := fulfils_of_assemble h
  rw [List.countP_eq_length_filter]
  exact hfulfils.length_eq.symm

/-- There is a word for the index of each instruction and of each label. -/
theorem bounds_of_assemble (h : assemble ramSize source = .ok program) :
    program.size ≤ Isa.maxProgramLength ∧
      ∀ label ∈ program.labels, label.index ≤ min program.size (Isa.maxProgramLength - 1) := by
  have hlabelled := ((exists_assemble_iff ramSize source).mp ⟨program, h⟩).1
  obtain ⟨-, hshort, hindexed⟩ := wellLabelled_iff.mp hlabelled
  rw [Nat.zero_add, ← size_eq_of_assemble h] at hshort
  refine ⟨hshort, fun label hlabel => ?_⟩
  rw [(fulfils_of_assemble h).1, labelTable_eq] at hlabel
  have hupper := (index_le_of_mem_labelsFrom hlabel).2
  rw [Nat.zero_add, ← size_eq_of_assemble h] at hupper
  have hne := hindexed label hlabel
  omega

/-- Labels come in the order of declaration, and so do their indices. -/
theorem labels_sorted_of_assemble (h : assemble ramSize source = .ok program) :
    program.labels.map Label.name = (statements source).flatMap Statement.labels ∧
      program.labels.Pairwise fun label later => label.index ≤ later.index := by
  rw [(fulfils_of_assemble h).1, labelTable_eq]
  exact ⟨names_labelsFrom 0 _, labelsFrom_sorted 0 _⟩

end Program

end WordMachine.Assembly
