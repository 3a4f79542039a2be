import WordMachine.Proofs.Assembly.Resolution

/-! Whole programs: patching, encoding, and what assembly as a whole comes to. -/
namespace WordMachine.Assembly

open Isa (Argument Entry Instruction Operand)

def Draft.mending (draft : Draft) (opened : List OpenOperand) : Draft :=
  { draft with
    placed := (opened.foldl (mendAt draft.labels.toList) draft.placed.toList).toArray }

namespace Drafting

variable {draft draft' : Draft} {opened : OpenOperand}

private theorem patch_eq_ok (h : draft.Silent) (hkind : opened.operand.kind ≠ .register) :
    patch opened draft = .ok () draft' ↔
      opened.Resolves draft.ramSize draft.labels.toList ∧ draft' = draft.mending [opened] := by
  have hget : (get : Drafting Draft) draft = .ok draft draft := rfl
  rw [patch, bind_of_ok hget, Draft.labelIndex?_eq]
  cases hindex : index? draft.labels.toList opened.label with
  | none =>
    refine ⟨nofun, ?_⟩
    rintro ⟨⟨target, htarget, -⟩, -⟩
    rw [hindex] at htarget
    cases htarget
  | some target =>
    have hresolves : opened.Resolves draft.ramSize draft.labels.toList ↔
        (Argument.number target).Suits draft.ramSize opened.operand := by
      rw [OpenOperand.Resolves, hindex]
      constructor
      · rintro ⟨_, ⟨⟩, hsuits⟩
        exact hsuits
      · exact fun hsuits => ⟨target, rfl, hsuits⟩
    have hword : opened.word draft.labels.toList = (Argument.number target).word := by
      rw [OpenOperand.word, hindex]
      rfl
    have hmend : (do
        note (.patched opened.label (Argument.number target).word opened.index)
        modify fun draft => { draft with
          placed := draft.placed.modify opened.index fun placed => { placed with
            instruction := placed.instruction.set opened.operand.field
              (Argument.number target).word } } : Drafting Unit) draft =
        .ok () (draft.mending [opened]) := by
      rw [bind_of_ok (note_silent h _), Draft.mending, List.foldl_cons, List.foldl_nil, mendAt,
        ← Array.toList_modify]
      simp only [mend, hword]
      rfl
    dsimp only
    rw [hresolves, bind_eq_ok]
    constructor
    · rintro ⟨word, middle, hfit, hrest⟩
      obtain ⟨hok, rfl⟩ := orFail_eq_ok.mp hfit
      obtain ⟨hsuits, rfl⟩ := (fit_eq_ok hkind).mp hok
      rw [hmend] at hrest
      exact ⟨hsuits, (EStateM.Result.ok.inj hrest).2.symm⟩
    · rintro ⟨hsuits, rfl⟩
      exact ⟨_, draft, orFail_eq_ok.mpr ⟨(fit_eq_ok hkind).mpr ⟨hsuits, rfl⟩, rfl⟩, hmend⟩

theorem forM_patch_eq_ok (h : draft.Silent) {opened : List OpenOperand}
    (hkind : ∀ one ∈ opened, one.operand.kind ≠ .register) :
    opened.forM patch draft = .ok () draft' ↔
      (∀ one ∈ opened, one.Resolves draft.ramSize draft.labels.toList) ∧
        draft' = draft.mending opened := by
  induction opened generalizing draft with
  | nil =>
    rw [forM_nil_eq_ok]
    exact ⟨fun hdraft => ⟨nofun, hdraft⟩, fun hdraft => hdraft.2⟩
  | cons one opened ih =>
    obtain ⟨hone, hrest⟩ := List.forall_mem_cons.mp hkind
    have hmended : (draft.mending [one]).Silent := h
    rw [forM_cons_eq_ok, List.forall_mem_cons]
    constructor
    · rintro ⟨middle, hpatch, htail⟩
      obtain ⟨hresolves, rfl⟩ := (patch_eq_ok h hone).mp hpatch
      obtain ⟨hall, hdraft⟩ := (ih hmended hrest).mp htail
      exact ⟨⟨hresolves, hall⟩, hdraft⟩
    · rintro ⟨⟨hresolves, hall⟩, hdraft⟩
      exact ⟨_, (patch_eq_ok h hone).mpr ⟨hresolves, rfl⟩,
        (ih hmended hrest).mpr ⟨hall, hdraft⟩⟩

private theorem encode_eq_ok {placed : Placed} {word : CodeWord} :
    encode placed draft = .ok word draft' ↔
      placed.instruction.encode = .ok word ∧ draft' = draft := by
  unfold encode
  cases placed.instruction.encode with
  | ok found =>
    change EStateM.Result.ok found draft = .ok word draft' ↔ _
    rw [EStateM.Result.ok.injEq, Except.ok.injEq, eq_comm (a := draft)]
  | error error => exact ⟨nofun, nofun⟩

private theorem mapM_encode_eq_ok {placed : List Placed} {words : List CodeWord} :
    placed.mapM encode draft = .ok words draft' ↔
      List.Forall₂ (fun placed word => placed.instruction.encode = .ok word) placed words ∧
        draft' = draft := by
  induction placed generalizing words draft' with
  | nil =>
    have hrun : ([] : List Placed).mapM encode draft = .ok [] draft := rfl
    rw [hrun, EStateM.Result.ok.injEq, List.forall₂_nil_left_iff, eq_comm (a := draft), eq_comm]
  | cons one placed ih =>
    rw [List.mapM_cons, bind_eq_ok]
    constructor
    · rintro ⟨word, middle, hone, hrest⟩
      obtain ⟨hword, rfl⟩ := encode_eq_ok.mp hone
      obtain ⟨rest, middle, htail, hpure⟩ := bind_eq_ok.mp hrest
      obtain ⟨hwords, rfl⟩ := ih.mp htail
      obtain ⟨rfl, rfl⟩ := EStateM.Result.ok.inj hpure
      exact ⟨.cons hword hwords, rfl⟩
    · rintro ⟨hwords, rfl⟩
      obtain ⟨word, rest, hword, hrest, rfl⟩ := List.forall₂_cons_left_iff.mp hwords
      exact ⟨word, _, encode_eq_ok.mpr ⟨hword, rfl⟩,
        bind_eq_ok.mpr ⟨rest, _, ih.mpr ⟨hrest, rfl⟩, rfl⟩⟩

theorem complete_eq_ok {program : Program} :
    complete draft = .ok program draft' ↔
      (program.instructions = draft.placed.toList.map Placed.instruction ∧
        program.labels = draft.labels.toList ∧
        List.Forall₂ (fun instruction word => instruction.encode = .ok word)
          program.instructions program.words) ∧
      draft' = draft := by
  obtain ⟨instructions, labels, words⟩ := program
  have hget : (get : Drafting Draft) draft = .ok draft draft := rfl
  rw [complete, bind_of_ok hget, bind_eq_ok]
  constructor
  · rintro ⟨words, middle, hencode, hpure⟩
    obtain ⟨hwords, rfl⟩ := mapM_encode_eq_ok.mp hencode
    obtain ⟨⟨⟩, rfl⟩ := EStateM.Result.ok.inj hpure
    exact ⟨⟨rfl, rfl, List.forall₂_map_left_iff.mpr hwords⟩, rfl⟩
  · rintro ⟨⟨rfl, rfl, hwords⟩, rfl⟩
    exact ⟨words, _, mapM_encode_eq_ok.mpr ⟨List.forall₂_map_left_iff.mp hwords, rfl⟩, rfl⟩

theorem patchAll_eq_ok (h : draft.Silent)
    (hkind : ∀ one ∈ draft.openOperands.toList, one.operand.kind ≠ .register) :
    patchAll draft = .ok () draft' ↔
      (∀ one ∈ draft.openOperands.toList, one.Resolves draft.ramSize draft.labels.toList) ∧
        draft' = draft.mending draft.openOperands.toList := by
  have hget : (get : Drafting Draft) draft = .ok draft draft := rfl
  rw [patchAll, bind_of_ok hget, forM_patch_eq_ok h hkind]

end Drafting

theorem wellLabelled_iff {source : List Char} : WellLabelled source ↔
    Declarable [] ((statements source).flatMap Statement.labels) ∧
      Placeable 0 (statements source) := by
  have hlength : (instructionStatements source).length =
      0 + (statements source).countP Statement.hasInstruction := by
    rw [instructionStatements, ← List.countP_eq_length_filter, Nat.zero_add]
  constructor
  · rintro ⟨hnames, hdistinct, hshort, hindexed⟩
    rw [hlength] at hshort
    rw [labelTable_eq] at hindexed
    refine ⟨⟨hdistinct, fun name hname => ?_⟩, hshort, hindexed⟩
    obtain ⟨statement, hstatement, hlabel⟩ := List.mem_flatMap.mp hname
    exact ⟨hnames statement hstatement name hlabel, List.not_mem_nil⟩
  · rintro ⟨⟨hdistinct, hall⟩, hshort, hindexed⟩
    rw [← hlength] at hshort
    rw [← labelTable_eq] at hindexed
    refine ⟨fun statement hstatement name hname => ?_, hdistinct, hshort, hindexed⟩
    exact (hall name (List.mem_flatMap.mpr ⟨statement, hstatement, hname⟩)).1

def Unlabelled (source : List Char) : Prop :=
  ∀ statement ∈ statements source, statement.labels = []

theorem Unlabelled.labelTable_eq {source : List Char} (h : Unlabelled source) :
    labelTable source = [] := by
  refine List.flatMap_eq_nil_iff.mpr ?_
  rintro ⟨statement, position⟩ hmem
  dsimp only
  rw [h statement (List.fst_mem_of_mem_zipIdx hmem), List.map_nil]

/-- Without labels there is nothing that the first pass could find wrong but the length. -/
theorem Unlabelled.wellLabelled_iff {source : List Char} (h : Unlabelled source) :
    WellLabelled source ↔ (instructionStatements source).length ≤ Isa.maxProgramLength := by
  refine ⟨WellLabelled.short, fun hshort => ⟨?_, ?_, hshort, ?_⟩⟩
  · intro statement hstatement name hname
    rw [h statement hstatement] at hname
    cases hname
  · rw [List.flatMap_eq_nil_iff.mpr h]
    exact List.nodup_nil
  · rw [h.labelTable_eq]
    exact nofun

section Program

variable {ramSize : Nat} {source : List Char} {draft : Draft} {program : Program}

def Draft.blank (ramSize : Nat) : Draft :=
  { ramSize, journal := { threshold := none } }

theorem silent_blank (ramSize : Nat) : (Draft.blank ramSize).Silent := rfl

theorem assemble_eq_ok : assemble ramSize source = .ok program ↔
    ∃ draft, Drafting.program source (.blank ramSize) = .ok program draft := by
  rw [assemble, assembleWith, ← Draft.blank]
  cases Drafting.program source (.blank ramSize) with
  | ok found draft =>
    simp only [Except.ok.injEq, EStateM.Result.ok.injEq]
    constructor
    · intro h
      exact ⟨draft, h, rfl⟩
    · rintro ⟨_, h, -⟩
      exact h
  | error error draft =>
    constructor
    · intro h
      cases h
    · rintro ⟨_, ⟨⟩⟩

theorem assemble_eq_error {error : Error} : assemble ramSize source = .error error ↔
    ∃ draft, Drafting.program source (.blank ramSize) = .error error draft := by
  rw [assemble, assembleWith, ← Draft.blank]
  cases Drafting.program source (.blank ramSize) with
  | ok found draft => exact ⟨nofun, nofun⟩
  | error found draft =>
    simp only [Except.error.injEq, EStateM.Result.error.injEq]
    constructor
    · intro h
      exact ⟨draft, h, rfl⟩
    · rintro ⟨_, h, -⟩
      exact h

private theorem labelTable_eq_append (ramSize : Nat) (source : List Char) : labelTable source =
    (Draft.blank ramSize).labels.toList ++
      labelsFrom (Draft.blank ramSize).placed.size (statements source) :=
  labelTable_eq source

variable (hread : (statements source).forM Drafting.read (.blank ramSize) = .ok () draft)

include hread

theorem labels_of_read : draft.labels.toList = labelTable source := by
  have hgrows := Drafting.grows_of_forM_read (silent_blank ramSize) hread
  rw [hgrows.labels, ← labelTable_eq_append ramSize source]

theorem kind_of_read :
    ∀ opened ∈ draft.openOperands.toList, opened.operand.kind ≠ .register := by
  intro opened hopened
  have hgrows := Drafting.grows_of_forM_read (silent_blank ramSize) hread
  rcases hgrows.labelled opened hopened with hnone | hkind
  · cases hnone
  · exact hkind

/-- Patched drafts hold what the statements stand for. -/
theorem fulfils_of_read (hresolves : ∀ opened ∈ draft.openOperands.toList,
      opened.Resolves ramSize (labelTable source)) :
    List.Forall₂ (Fulfils ramSize (labelTable source)) (instructionStatements source)
      ((draft.mending draft.openOperands.toList).placed.toList.map Placed.instruction) := by
  obtain ⟨placed, opened, hplaced, hopened, hmend⟩ :=
    Drafting.mends_of_forM_read (silent_blank ramSize) hread
      (labelTable_eq_append ramSize source) hresolves
  obtain ⟨final, hfinal, hfulfils⟩ := hmend [] [] rfl
  have hplaced : draft.placed.toList = placed := hplaced
  have hopened : draft.openOperands.toList = opened := hopened
  rw [List.nil_append, List.append_nil, List.nil_append, List.append_nil] at hfinal
  rw [Draft.mending, labels_of_read hread, hplaced, hopened, hfinal]
  exact List.forall₂_map_right_iff.mpr hfulfils

omit hread

/-- A source assembles when its statements can be read, the open operands patched and the
instructions encoded. -/
private theorem assemble_eq_ok_iff : assemble ramSize source = .ok program ↔
    ∃ draft, (statements source).forM Drafting.read (.blank ramSize) = .ok () draft ∧
      (∀ opened ∈ draft.openOperands.toList, opened.Resolves ramSize (labelTable source)) ∧
      program.instructions =
        (draft.mending draft.openOperands.toList).placed.toList.map Placed.instruction ∧
      program.labels = labelTable source ∧
      List.Forall₂ (fun instruction word => instruction.encode = .ok word)
        program.instructions program.words := by
  rw [assemble_eq_ok, Drafting.program]
  constructor
  · rintro ⟨_, hrun⟩
    obtain ⟨⟨⟩, draft, hread, hrest⟩ := bind_eq_ok.mp hrun
    obtain ⟨⟨⟩, mended, hpatch, hcomplete⟩ := bind_eq_ok.mp hrest
    have hgrows := Drafting.grows_of_forM_read (silent_blank ramSize) hread
    obtain ⟨hresolves, rfl⟩ :=
      (Drafting.patchAll_eq_ok hgrows.silent (kind_of_read hread)).mp hpatch
    obtain ⟨⟨hinstructions, hlabels, hwords⟩, -⟩ := Drafting.complete_eq_ok.mp hcomplete
    have hlabelled : draft.labels.toList = labelTable source := labels_of_read hread
    rw [hgrows.ramSize, hlabelled] at hresolves
    exact ⟨draft, hread, hresolves, hinstructions, hlabels.trans hlabelled, hwords⟩
  · rintro ⟨draft, hread, hresolves, hinstructions, hlabels, hwords⟩
    have hgrows := Drafting.grows_of_forM_read (silent_blank ramSize) hread
    rw [← labels_of_read hread] at hresolves hlabels
    have hram : draft.ramSize = ramSize := hgrows.ramSize
    rw [← hram] at hresolves
    have hpatch := (Drafting.patchAll_eq_ok hgrows.silent (kind_of_read hread)).mpr
      ⟨hresolves, rfl⟩
    have hcomplete : Drafting.complete (draft.mending draft.openOperands.toList) =
        .ok program (draft.mending draft.openOperands.toList) :=
      Drafting.complete_eq_ok.mpr ⟨⟨hinstructions, hlabels, hwords⟩, rfl⟩
    refine ⟨draft.mending draft.openOperands.toList, ?_⟩
    rw [bind_of_ok hread, bind_of_ok hpatch, hcomplete]

/-- What statements stand for can be encoded. -/
theorem exists_words_of_fulfils {labels : List Label} {statements : List Statement}
    {instructions : List Instruction}
    (h : List.Forall₂ (Fulfils ramSize labels) statements instructions) :
    ∃ words, List.Forall₂ (fun instruction word => instruction.encode = .ok word)
      instructions words := by
  induction h with
  | nil => exact ⟨[], .nil⟩
  | cons hhead htail ih =>
    obtain ⟨entry, arguments, hreads, rfl⟩ := hhead
    obtain ⟨words, hwords⟩ := ih
    exact ⟨_ :: words, .cons (Instruction.encode_of_encodable hreads.encodable) hwords⟩

/-- A program holds the table of all labels and what the statements stand for, word for word. -/
theorem fulfils_of_assemble (h : assemble ramSize source = .ok program) :
    program.labels = labelTable source ∧
      List.Forall₂ (Fulfils ramSize (labelTable source)) (instructionStatements source)
        program.instructions ∧
      List.Forall₂ (fun instruction word => instruction.encode = .ok word)
        program.instructions program.words := by
  obtain ⟨draft, hread, hresolves, hinstructions, hlabels, hwords⟩ := assemble_eq_ok_iff.mp h
  refine ⟨hlabels, ?_, hwords⟩
  rw [hinstructions]
  exact fulfils_of_read hread hresolves

/-- The word at an index is that of the instruction which the statement at the index stands for. -/
theorem exists_statement_of_assemble (h : assemble ramSize source = .ok program) {index : Nat}
    (hindex : index < program.size) : ∃ statement instruction word,
      (instructionStatements source)[index]? = some statement ∧
      program.words[index]? = some word ∧
      Fulfils ramSize (labelTable source) statement instruction ∧
      instruction.encode = .ok word := by
  obtain ⟨-, hfulfils, hwords⟩ := fulfils_of_assemble h
  have hinstruction : index < program.instructions.length := hindex
  have hstatement : index < (instructionStatements source).length := by
    rwa [hfulfils.length_eq]
  have hword : index < program.words.length := by
    rwa [← hwords.length_eq]
  exact ⟨_, program.instructions[index], _, List.getElem?_eq_getElem hstatement,
    List.getElem?_eq_getElem hword, hfulfils.get hstatement hinstruction,
    hwords.get hinstruction hword⟩

/-- Assembly succeeds exactly when both passes find nothing wrong. -/
theorem exists_assemble_iff (ramSize : Nat) (source : List Char) :
    (∃ program, assemble ramSize source = .ok program) ↔
      WellLabelled source ∧ ∀ statement ∈ instructionStatements source, ∃ entry arguments,
        statement.Reads ramSize (labelTable source) entry arguments := by
  have hreading := Drafting.exists_forM_read_iff (silent_blank ramSize)
    (Nat.zero_le Isa.maxProgramLength) (labelTable_eq_append ramSize source)
  constructor
  · rintro ⟨program, hprogram⟩
    obtain ⟨draft, hread, hresolves, -⟩ := assemble_eq_ok_iff.mp hprogram
    obtain ⟨hlabelled, hstatements, -⟩ := hreading.mp ⟨draft, hread, hresolves⟩
    refine ⟨wellLabelled_iff.mpr hlabelled, fun statement hstatement => ?_⟩
    obtain ⟨hmem, hhas⟩ := List.mem_filter.mp hstatement
    obtain ⟨_, entry, arguments, hreads, -⟩ := hstatements statement hmem hhas
    exact ⟨entry, arguments, hreads⟩
  · rintro ⟨hlabelled, hstatements⟩
    have hfulfil (statement : Statement) (hmem : statement ∈ statements source)
        (hhas : statement.hasInstruction) : ∃ instruction,
          Fulfils ramSize (labelTable source) statement instruction := by
      obtain ⟨entry, arguments, hreads⟩ :=
        hstatements statement (List.mem_filter.mpr ⟨hmem, hhas⟩)
      exact ⟨_, entry, arguments, hreads, rfl⟩
    obtain ⟨draft, hread, hresolves⟩ :=
      hreading.mpr ⟨wellLabelled_iff.mp hlabelled, hfulfil, nofun⟩
    obtain ⟨words, hwords⟩ := exists_words_of_fulfils (fulfils_of_read hread hresolves)
    exact ⟨⟨_, labelTable source, words⟩, assemble_eq_ok_iff.mpr
      ⟨draft, hread, hresolves, rfl, rfl, hwords⟩⟩

/-- A statement stands for one instruction. -/
private theorem Fulfils.unique {labels : List Label} {statement : Statement}
    {instruction other : Instruction} (h : Fulfils ramSize labels statement instruction)
    (hother : Fulfils ramSize labels statement other) : instruction = other := by
  obtain ⟨entry, arguments, hreads, rfl⟩ := h
  obtain ⟨entry', arguments', hreads', rfl⟩ := hother
  obtain rfl : entry = entry' := hreads.selects.unique hreads'.selects
  have harguments : arguments = arguments' := by
    refine List.right_unique_forall₂' ?_ hreads.means hreads'.means
    rintro ⟨operand, text⟩ argument argument' ⟨hargument, -⟩ ⟨hargument', -⟩
    exact Option.some.inj (hargument.symm.trans hargument')
  rw [harguments]

/-- What two passes give is the one program of a source. -/
theorem assemble_eq_ok_iff_fulfils : assemble ramSize source = .ok program ↔
    WellLabelled source ∧ program.labels = labelTable source ∧
      List.Forall₂ (Fulfils ramSize (labelTable source)) (instructionStatements source)
        program.instructions ∧
      List.Forall₂ (fun instruction word => instruction.encode = .ok word)
        program.instructions program.words := by
  constructor
  · intro h
    exact ⟨((exists_assemble_iff ramSize source).mp ⟨program, h⟩).1, fulfils_of_assemble h⟩
  · rintro ⟨hlabelled, hlabels, hfulfils, hwords⟩
    obtain ⟨found, hfound⟩ := (exists_assemble_iff ramSize source).mpr
      ⟨hlabelled, fun statement hstatement => by
        obtain ⟨_, entry, arguments, hreads, -⟩ :=
          exists_forall₂_iff.mp ⟨_, hfulfils⟩ statement hstatement
        exact ⟨entry, arguments, hreads⟩⟩
    obtain ⟨hlabels', hfulfils', hwords'⟩ := fulfils_of_assemble hfound
    have hinstructions : found.instructions = program.instructions :=
      List.right_unique_forall₂' (fun _ _ _ hfulfil => hfulfil.unique) hfulfils' hfulfils
    rw [hinstructions] at hwords'
    have hsame : found.words = program.words :=
      List.right_unique_forall₂' (fun _ _ _ hword hother => Except.ok.inj (hword.symm.trans hother))
        hwords' hwords
    obtain ⟨instructions, labels, words⟩ := program
    obtain ⟨_, _, _⟩ := found
    simp only at hinstructions hsame hlabels hlabels'
    rw [hfound, hinstructions, hsame, hlabels, hlabels']

/-- Assembly succeeds exactly when both passes find nothing wrong, and then it gives what they
give. -/
theorem assemble_twoPass (ramSize : Nat) (source : List Char) :
    ((∃ program, assemble ramSize source = .ok program) ↔
      WellLabelled source ∧ ∀ statement ∈ instructionStatements source, ∃ entry arguments,
        statement.Reads ramSize (labelTable source) entry arguments) ∧
    ∀ program, assemble ramSize source = .ok program →
      program.labels = labelTable source ∧
      List.Forall₂ (fun statement instruction => ∃ entry arguments,
          statement.Reads ramSize (labelTable source) entry arguments ∧
          instruction = entry.build (arguments.map Argument.word))
        (instructionStatements source) program.instructions ∧
      List.Forall₂ (fun instruction word => instruction.encode = .ok word)
        program.instructions program.words := by
  refine ⟨exists_assemble_iff ramSize source, ?_⟩
  intro program hprogram
  exact fulfils_of_assemble hprogram

/-- A jump to a label that is declared behind it. -/
theorem assemble_twoPass_forward :
    let source := "jmpi [end]; end: hlt".toList
    let program : Program :=
      ⟨[{ opcode := 0x15, immediate := 1 }, { opcode := 0xff }], [⟨"end".toList, 1⟩], [0x10015, 0xff]⟩
    assemble 8 source = .ok program ∧ WellLabelled source ∧ program.labels = labelTable source := by
  intro source program
  have hassemble : assemble 8 source = .ok program := by
    decide +kernel
  obtain ⟨hsucceeds, hgives⟩ := assemble_twoPass 8 source
  exact ⟨hassemble, (hsucceeds.mp ⟨program, hassemble⟩).1, (hgives program hassemble).1⟩

end Program

end WordMachine.Assembly
