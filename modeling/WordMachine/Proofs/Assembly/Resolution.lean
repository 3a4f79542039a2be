import WordMachine.Proofs.Assembly.Patching

/-! Assembly gives what two passes give: labels are found while statements are read and operands
are patched behind, but nothing of that is left in the program. -/
namespace WordMachine.Assembly

open Isa (Argument Entry Instruction Operand)

/-- What reading statements does to a draft, whatever the instructions are. -/
structure Draft.Grows (draft draft' : Draft) (statements : List Statement) : Prop where
  silent : draft'.Silent
  ramSize : draft'.ramSize = draft.ramSize
  labels : draft'.labels.toList =
    draft.labels.toList ++ labelsFrom draft.placed.size statements
  size : draft'.placed.size = draft.placed.size + statements.countP Statement.hasInstruction
  /-- No register waits for a label. -/
  labelled : ∀ opened ∈ draft'.openOperands.toList,
    opened ∈ draft.openOperands.toList ∨ opened.operand.kind ≠ .register

/-- Whether an instruction is the one that a statement stands for. -/
def Fulfils (ramSize : Nat) (labels : List Label) (statement : Statement)
    (instruction : Instruction) : Prop :=
  ∃ entry arguments, statement.Reads ramSize labels entry arguments ∧
    instruction = entry.build (arguments.map Argument.word)

/-- Whether patching what the reading of statements has left open gives the instruction of each,
and changes none in front of them or behind. -/
def Draft.Mends (labels : List Label) (draft draft' : Draft) (statements : List Statement) : Prop :=
  ∃ placed opened, draft'.placed.toList = draft.placed.toList ++ placed ∧
    draft'.openOperands.toList = draft.openOperands.toList ++ opened ∧
    ∀ front rest, front.length = draft.placed.size → ∃ final,
      opened.foldl (mendAt labels) (front ++ placed ++ rest) = front ++ final ++ rest ∧
        List.Forall₂ (fun statement placed =>
          Fulfils draft.ramSize labels statement placed.instruction)
          (statements.filter Statement.hasInstruction) final

private theorem Draft.Grows.append {draft middle draft' : Draft} {before after : List Statement}
    (hbefore : draft.Grows middle before) (hafter : middle.Grows draft' after) :
    draft.Grows draft' (before ++ after) where
  silent := hafter.silent
  ramSize := hafter.ramSize.trans hbefore.ramSize
  labels := by
    rw [hafter.labels, hbefore.labels, hbefore.size, labelsFrom_append, List.append_assoc]
  size := by
    rw [hafter.size, hbefore.size, List.countP_append, Nat.add_assoc]
  labelled := by
    intro opened hopened
    rcases hafter.labelled opened hopened with hmiddle | hkind
    · exact hbefore.labelled opened hmiddle
    · exact .inr hkind

namespace Drafting

variable {draft draft' : Draft} {statement : Statement} {labels later : List Label}

private theorem grows_of_read (h : draft.Silent) (hread : read statement draft = .ok () draft') :
    draft.Grows draft' [statement] := by
  obtain ⟨hhas, entry, -, rfl⟩ | ⟨hhas, rfl⟩ := cases_of_read h hread
  · constructor
    · exact h
    · rfl
    · simp [Draft.placing, Draft.declaring, Draft.opening, labelsFrom]
    · simp [Draft.placing, Draft.declaring, Draft.opening, hhas]
    · intro opened hopened
      rw [Draft.openOperands_placing, List.mem_append] at hopened
      exact hopened.imp_right fun hmem => (Draft.of_mem_opened hmem).2
  · constructor
    · exact h
    · rfl
    · simp [Draft.declaring, labelsFrom]
    · simp [Draft.declaring, hhas]
    · exact fun opened hopened => .inl hopened

/-- What each of some statements keeps is kept when all are read. -/
theorem forM_read_induct {motive : Draft → Prop} {statements : List Statement} (h : draft.Silent)
    (hstart : motive draft)
    (hstep : ∀ statement ∈ statements, ∀ draft draft' : Draft, draft.Silent → motive draft →
      read statement draft = .ok () draft' → motive draft')
    (hread : statements.forM read draft = .ok () draft') : motive draft' := by
  induction statements generalizing draft with
  | nil =>
    rw [forM_nil_eq_ok.mp hread]
    exact hstart
  | cons statement rest ih =>
    obtain ⟨hhead, hrest⟩ := List.forall_mem_cons.mp hstep
    obtain ⟨middle, hmiddle, htail⟩ := forM_cons_eq_ok.mp hread
    exact ih (grows_of_read h hmiddle).silent (hhead draft middle h hstart hmiddle) hrest htail

private theorem names_of_read (h : draft.Silent) (hread : read statement draft = .ok () draft') :
    draft'.names = draft.names ++ statement.labels := by
  rw [Draft.names, (grows_of_read h hread).labels]
  simp [labelsFrom, Draft.names, Function.comp_def]

private theorem size_le_of_read (h : draft.Silent)
    (hsize : draft.placed.size ≤ Isa.maxProgramLength)
    (hread : read statement draft = .ok () draft') :
    draft'.placed.size ≤ Isa.maxProgramLength := by
  have hgrown := (grows_of_read h hread).size
  rw [List.countP_singleton] at hgrown
  obtain ⟨hhas, entry, haccepts, -⟩ | ⟨hhas, -⟩ := cases_of_read h hread
  · rw [if_pos hhas] at hgrown
    have hroom : draft.placed.size < Isa.maxProgramLength := haccepts.room
    omega
  · rw [if_neg hhas] at hgrown
    omega

/-- Reading a statement succeeds, with open operands that can be patched, exactly when the
statement is right by itself. -/
private theorem exists_read_iff (h : draft.Silent)
    (hlabels : labels = draft.labels.toList ++ labelsFrom draft.placed.size [statement] ++ later) :
    (∃ draft', read statement draft = .ok () draft' ∧
      ∀ opened ∈ draft'.openOperands.toList, opened.Resolves draft.ramSize labels) ↔
    (Declarable draft.names statement.labels ∧
      (statement.labels ≠ [] ∨ statement.hasInstruction →
        draft.placed.size < Isa.maxProgramLength)) ∧
      (statement.hasInstruction → ∃ instruction,
        Fulfils draft.ramSize labels statement instruction) ∧
      ∀ opened ∈ draft.openOperands.toList, opened.Resolves draft.ramSize labels := by
  have hdeclaring : labels = (draft.declaring statement.labels).labels.toList ++ later := by
    rw [hlabels, labelsFrom, labelsFrom, List.append_nil]
    simp [Draft.declaring]
  have hopen (entry : Entry) :=
    Draft.openOperands_placing (draft.declaring statement.labels) statement entry
  by_cases hhas : statement.hasInstruction = true
  · simp only [read_eq_ok h, hhas, if_true, or_true, forall_const]
    constructor
    · rintro ⟨_, ⟨⟨hdeclarable, -⟩, entry, haccepts, rfl⟩, hresolves⟩
      rw [hopen, List.forall_mem_append] at hresolves
      obtain ⟨hroom, arguments, hreads⟩ :=
        (Draft.accepts_iff hdeclaring).mp ⟨haccepts, hresolves.2⟩
      exact ⟨⟨hdeclarable, hroom⟩, ⟨_, entry, arguments, hreads, rfl⟩, hresolves.1⟩
    · rintro ⟨⟨hdeclarable, hroom⟩, ⟨_, entry, arguments, hreads, -⟩, hresolves⟩
      obtain ⟨haccepts, hopened⟩ :=
        (Draft.accepts_iff hdeclaring).mpr ⟨hroom, arguments, hreads⟩
      refine ⟨_, ⟨⟨hdeclarable, fun _ => hroom⟩, entry, haccepts, rfl⟩, ?_⟩
      rw [hopen, List.forall_mem_append]
      exact ⟨hresolves, hopened⟩
  · simp only [read_eq_ok h, hhas, Bool.false_eq_true, if_false, or_false, false_implies, true_and]
    constructor
    · rintro ⟨_, ⟨hdeclares, rfl⟩, hresolves⟩
      exact ⟨hdeclares, hresolves⟩
    · rintro ⟨hdeclares, hresolves⟩
      exact ⟨_, ⟨hdeclares, rfl⟩, hresolves⟩

/-- Reading statements succeeds, with open operands that can be patched, exactly when the first
pass finds nothing wrong and each statement is right by itself. -/
theorem exists_forM_read_iff {statements : List Statement} (h : draft.Silent)
    (hsize : draft.placed.size ≤ Isa.maxProgramLength)
    (hlabels : labels = draft.labels.toList ++ labelsFrom draft.placed.size statements) :
    (∃ draft', statements.forM read draft = .ok () draft' ∧
      ∀ opened ∈ draft'.openOperands.toList, opened.Resolves draft.ramSize labels) ↔
    (Declarable draft.names (statements.flatMap Statement.labels) ∧
      Placeable draft.placed.size statements) ∧
      (∀ statement ∈ statements, statement.hasInstruction → ∃ instruction,
        Fulfils draft.ramSize labels statement instruction) ∧
      ∀ opened ∈ draft.openOperands.toList, opened.Resolves draft.ramSize labels := by
  induction statements generalizing draft with
  | nil =>
    have hnone : (Declarable draft.names ([].flatMap Statement.labels) ∧
        Placeable draft.placed.size []) := ⟨⟨.nil, nofun⟩, hsize, nofun⟩
    simp only [forM_nil_eq_ok, exists_eq_left]
    exact ⟨fun hresolves => ⟨hnone, nofun, hresolves⟩, fun hall => hall.2.2⟩
  | cons statement rest ih =>
    have hsplit : labels = draft.labels.toList ++ labelsFrom draft.placed.size [statement] ++
        labelsFrom (draft.placed.size + if statement.hasInstruction then 1 else 0) rest := by
      rw [hlabels, labelsFrom, labelsFrom, labelsFrom, List.append_nil, List.append_assoc]
    have hone := exists_read_iff h hsplit
    rw [List.flatMap_cons, declarable_append, placeable_cons hsize, List.forall_mem_cons]
    -- What the rest needs to know of the draft in between is the same for every such draft.
    have hrest (middle : Draft) (hread : read statement draft = .ok () middle) :=
      have hgrows := grows_of_read h hread
      ih hgrows.silent (size_le_of_read h hsize hread) (by
        rw [hsplit, hgrows.labels, hgrows.size, List.countP_singleton])
    constructor
    · rintro ⟨draft', hread, hresolves⟩
      obtain ⟨middle, hhead, htail⟩ := forM_cons_eq_ok.mp hread
      have hgrows := grows_of_read h hhead
      rw [← hgrows.ramSize] at hresolves
      obtain ⟨⟨hdeclarable, hplaceable⟩, hstatements, hmiddle⟩ :=
        (hrest middle hhead).mp ⟨draft', htail, hresolves⟩
      rw [hgrows.ramSize] at hstatements hmiddle
      rw [names_of_read h hhead] at hdeclarable
      rw [hgrows.size, List.countP_singleton] at hplaceable
      obtain ⟨⟨hfirst, hroom⟩, hstatement, hopen⟩ := hone.mp ⟨middle, hhead, hmiddle⟩
      exact ⟨⟨⟨hfirst, hdeclarable⟩, hroom, hplaceable⟩, ⟨hstatement, hstatements⟩, hopen⟩
    · rintro ⟨⟨⟨hfirst, hdeclarable⟩, hroom, hplaceable⟩, ⟨hstatement, hstatements⟩, hopen⟩
      obtain ⟨middle, hhead, hmiddle⟩ := hone.mpr ⟨⟨hfirst, hroom⟩, hstatement, hopen⟩
      have hgrows := grows_of_read h hhead
      rw [← names_of_read h hhead] at hdeclarable
      rw [← List.countP_singleton, ← hgrows.size] at hplaceable
      rw [← hgrows.ramSize] at hstatements hmiddle
      obtain ⟨draft', htail, hresolves⟩ :=
        (hrest middle hhead).mpr ⟨⟨hdeclarable, hplaceable⟩, hstatements, hmiddle⟩
      rw [hgrows.ramSize] at hresolves
      exact ⟨draft', forM_cons_eq_ok.mpr ⟨middle, hhead, htail⟩, hresolves⟩

/-- Patching what a statement has left open gives its instruction. -/
private theorem mends_of_read (h : draft.Silent) (hread : read statement draft = .ok () draft')
    (hlabels : labels = draft.labels.toList ++ labelsFrom draft.placed.size [statement] ++ later)
    (hresolves : ∀ opened ∈ draft'.openOperands.toList,
      opened.Resolves draft.ramSize labels) :
    draft.Mends labels draft' [statement] := by
  have hdeclaring : labels = (draft.declaring statement.labels).labels.toList ++ later := by
    rw [hlabels, labelsFrom, labelsFrom, List.append_nil]
    simp [Draft.declaring]
  obtain ⟨hhas, entry, haccepts, rfl⟩ | ⟨hhas, rfl⟩ := cases_of_read h hread
  · have hopen :=
      Draft.openOperands_placing (draft.declaring statement.labels) statement entry
    rw [hopen, List.forall_mem_append] at hresolves
    obtain ⟨-, arguments, hreads⟩ :=
      (Draft.accepts_iff hdeclaring).mp ⟨haccepts, hresolves.2⟩
    refine ⟨[⟨statement.line, (draft.declaring statement.labels).built statement entry⟩], _,
      by simp [Draft.placing, Draft.opening, Draft.declaring], hopen, ?_⟩
    intro front rest hfront
    rw [List.append_assoc, List.singleton_append, foldl_mendAt,
      Draft.foldl_mend_built hdeclaring hreads]
    · refine ⟨[⟨statement.line, _⟩], by rw [List.append_assoc, List.singleton_append], ?_⟩
      rw [List.filter_cons_of_pos hhas]
      exact .cons ⟨entry, arguments, hreads, rfl⟩ .nil
    · intro one hone
      exact (Draft.of_mem_opened hone).1.trans hfront.symm
  · refine ⟨[], [], by simp [Draft.declaring], by simp [Draft.declaring], ?_⟩
    intro front rest _
    refine ⟨[], rfl, ?_⟩
    rw [List.filter_cons_of_neg hhas]
    exact .nil

private theorem mends_append {middle : Draft} {before after : List Statement}
    (hgrows : draft.Grows middle before) (hbefore : draft.Mends labels middle before)
    (hafter : middle.Mends labels draft' after) :
    draft.Mends labels draft' (before ++ after) := by
  obtain ⟨placed, opened, hplaced, hopened, hmend⟩ := hbefore
  obtain ⟨laterPlaced, laterOpened, hlater, hlaterOpened, hlaterMend⟩ := hafter
  refine ⟨placed ++ laterPlaced, opened ++ laterOpened,
    by rw [hlater, hplaced, List.append_assoc],
    by rw [hlaterOpened, hopened, List.append_assoc], ?_⟩
  intro front rest hfront
  obtain ⟨final, hfinal, hfulfils⟩ := hmend front (laterPlaced ++ rest) hfront
  have hlength : (front ++ final).length = middle.placed.size := by
    rw [hgrows.size, List.length_append, hfront, List.countP_eq_length_filter,
      hfulfils.length_eq]
  obtain ⟨laterFinal, hlaterFinal, hlaterFulfils⟩ := hlaterMend (front ++ final) rest hlength
  refine ⟨final ++ laterFinal, ?_, ?_⟩
  · rw [List.foldl_append]
    simp only [List.append_assoc] at hfinal hlaterFinal ⊢
    rw [hfinal, hlaterFinal]
  · rw [List.filter_append]
    rw [hgrows.ramSize] at hlaterFulfils
    exact List.rel_append hfulfils hlaterFulfils

theorem grows_of_forM_read {statements : List Statement} (h : draft.Silent)
    (hread : statements.forM read draft = .ok () draft') : draft.Grows draft' statements := by
  induction statements generalizing draft with
  | nil =>
    obtain rfl := forM_nil_eq_ok.mp hread
    exact ⟨h, rfl, (List.append_nil _).symm, rfl, fun opened hopened => .inl hopened⟩
  | cons statement rest ih =>
    obtain ⟨middle, hhead, htail⟩ := forM_cons_eq_ok.mp hread
    have hgrows := grows_of_read h hhead
    exact hgrows.append (ih hgrows.silent htail)

theorem mends_of_forM_read {statements : List Statement} (h : draft.Silent)
    (hread : statements.forM read draft = .ok () draft')
    (hlabels : labels = draft.labels.toList ++ labelsFrom draft.placed.size statements)
    (hresolves : ∀ opened ∈ draft'.openOperands.toList,
      opened.Resolves draft.ramSize labels) : draft.Mends labels draft' statements := by
  induction statements generalizing draft with
  | nil =>
    obtain rfl := forM_nil_eq_ok.mp hread
    exact ⟨[], [], (List.append_nil _).symm, (List.append_nil _).symm,
      fun front rest _ => ⟨[], rfl, .nil⟩⟩
  | cons statement rest ih =>
    obtain ⟨middle, hhead, htail⟩ := forM_cons_eq_ok.mp hread
    have hgrows := grows_of_read h hhead
    rw [← List.singleton_append, labelsFrom_append, ← List.append_assoc] at hlabels
    have hrest := ih hgrows.silent htail (by rw [hlabels, hgrows.labels, hgrows.size])
      (by rwa [hgrows.ramSize])
    have ⟨_, opened, _, hopened, _⟩ := hrest
    rw [hopened, List.forall_mem_append] at hresolves
    exact mends_append hgrows (mends_of_read h hhead hlabels hresolves.1) hrest

end Drafting

end WordMachine.Assembly
