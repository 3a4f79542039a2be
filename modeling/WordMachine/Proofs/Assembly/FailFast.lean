import WordMachine.Proofs.Assembly.Blame
import WordMachine.Proofs.Assembly.Bounds
import WordMachine.Proofs.Assembly.Lines
import WordMachine.Proofs.Text.Blank

/-! Assembly fails fast: the first statement that cannot be read ends it, whatever stands behind.
What is left to patching is blamed on the statement that refers to the label. -/
namespace WordMachine.Assembly

open Isa (Entry)

/-- Whether an operand of a statement is a name between brackets, with blanks or without. -/
def Statement.RefersTo (statement : Statement) (name : List Char) : Prop :=
  ∃ before after, (∀ c ∈ before ++ after, Text.isBlank c = true) ∧
    '[' :: (before ++ name ++ after) ++ [']'] ∈ statement.operands

/-- Whether each open operand is one of these statements, by its line and its label. -/
def Draft.OpensFrom (draft : Draft) (statements : List Statement) : Prop :=
  ∀ opened ∈ draft.openOperands.toList, ∃ statement ∈ statements,
    opened.line = statement.line ∧ statement.RefersTo opened.label

private theorem refersTo_of_referredLabel? {statement : Statement} {text name : List Char}
    (htext : text ∈ statement.operands) (h : referredLabel? text = some name) :
    statement.RefersTo name := by
  unfold referredLabel? at h
  split at h
  next rest =>
    obtain ⟨hlast, hname⟩ := Option.ite_none_right_eq_some.mp h
    obtain ⟨inner, rfl⟩ := List.getLast?_eq_some_iff.mp hlast
    rw [List.dropLast_concat, Option.some.injEq] at hname
    obtain ⟨before, after, hblank, hinner⟩ := Text.exists_eq_trim inner
    rw [hname] at hinner
    rw [hinner] at htext
    exact ⟨before, after, hblank, htext⟩
  next => exact nomatch h

/-- An operand that a statement opens is one of its own. -/
private theorem Draft.refersTo_of_mem_opened {draft : Draft} {statement : Statement} {entry : Entry}
    {one : OpenOperand} (h : one ∈ draft.opened statement entry) :
    one.line = statement.line ∧ statement.RefersTo one.label := by
  obtain ⟨⟨operand, text⟩, hoperand, hone⟩ := List.mem_flatMap.mp h
  rw [opens, Option.mem_toList, Option.map_eq_some_iff] at hone
  obtain ⟨name, hpending, rfl⟩ := hone
  refine ⟨rfl, refersTo_of_referredLabel? (List.of_mem_zip hoperand).2 ?_⟩
  have hrefers := (Option.ite_none_left_eq_some.mp hpending).2
  exact (Option.filter_eq_some_iff.mp hrefers).1

namespace Drafting

variable {draft draft' : Draft} {statement : Statement} {error : Error}

private theorem opensFrom_of_read {statements : List Statement} (h : draft.Silent)
    (hopens : draft.OpensFrom statements) (hstatement : statement ∈ statements)
    (hread : read statement draft = .ok () draft') : draft'.OpensFrom statements := by
  obtain ⟨-, entry, -, rfl⟩ | ⟨-, rfl⟩ := cases_of_read h hread
  · intro opened hopened
    rw [Draft.openOperands_placing, List.mem_append] at hopened
    rcases hopened with hbefore | hnew
    · exact hopens opened hbefore
    · exact ⟨statement, hstatement, Draft.refersTo_of_mem_opened hnew⟩
  · exact hopens

/-- What is left open comes of a statement that refers to its label. -/
private theorem opensFrom_of_forM_read {statements : List Statement} (h : draft.Silent)
    (hopens : draft.OpensFrom statements) (hread : statements.forM read draft = .ok () draft') :
    draft'.OpensFrom statements :=
  forM_read_induct h hopens (fun _ hstatement _ _ hsilent hopens hone =>
    opensFrom_of_read hsilent hopens hstatement hone) hread

end Drafting

section Program

variable {ramSize : Nat} {source : List Char} {error : Error}

private theorem assemble_of_read {front rest : List Statement} {statement : Statement}
    {middle after : Draft} (hstatements : statements source = front ++ statement :: rest)
    (hfront : front.forM Drafting.read (.blank ramSize) = .ok () middle)
    (hread : Drafting.read statement middle = .error error after) :
    assemble ramSize source = .error error := by
  have herror : (statements source).forM Drafting.read (.blank ramSize) = .error error after :=
    forM_eq_error.mpr ⟨front, statement, rest, middle, hstatements, hfront, hread⟩
  exact assemble_eq_error.mpr ⟨after, bind_of_error herror⟩

/-- A patch that fails is that of an operand which a statement on the line has left open. -/
private theorem exists_statement_of_patch {draft after : Draft}
    (hread : (statements source).forM Drafting.read (.blank ramSize) = .ok () draft)
    (hpatch : draft.openOperands.toList.forM Drafting.patch draft = .error error after) :
    ∃ statement ∈ statements source, error.line = statement.line ∧ error.cause.IsOfPatching ∧
      ∀ name, error.cause = .labelUndefined name →
        index? (labelTable source) name = none ∧ statement.RefersTo name := by
  have hgrows := Drafting.grows_of_forM_read (silent_blank ramSize) hread
  obtain ⟨front, opened, rest, middle, hopened, hfront, hone⟩ := forM_eq_error.mp hpatch
  have hmem : opened ∈ draft.openOperands.toList := by
    rw [hopened]
    exact List.mem_append_right _ List.mem_cons_self
  have hkind : ∀ one ∈ front, one.operand.kind ≠ .register := by
    intro one hone
    refine kind_of_read hread one ?_
    rw [hopened]
    exact List.mem_append_left _ hone
  -- What is patched in front of the operand does not change the labels.
  obtain ⟨-, rfl⟩ := (Drafting.forM_patch_eq_ok hgrows.silent hkind).mp hfront
  have hfaults : opened.Faults (draft.mending front).labels.toList error :=
    Drafting.faults_of_patch hone
  rw [show (draft.mending front).labels = draft.labels from rfl, labels_of_read hread] at hfaults
  have hblank : (Draft.blank ramSize).OpensFrom (statements source) := nofun
  obtain ⟨statement, hstatement, hline, hrefers⟩ :=
    Drafting.opensFrom_of_forM_read (silent_blank ramSize) hblank hread opened hmem
  refine ⟨statement, hstatement, hfaults.line.trans hline, hfaults.cause, fun name hname => ?_⟩
  obtain ⟨rfl, hindex⟩ := hfaults.undefined name hname
  exact ⟨hindex, hrefers⟩

/-- An error is that of the first statement that cannot be read, or, if all can be, that of one
which refers to a label. -/
private theorem cases_of_error (h : assemble ramSize source = .error error) :
    (∃ front statement rest middle after, statements source = front ++ statement :: rest ∧
      front.forM Drafting.read (.blank ramSize) = .ok () middle ∧
      Drafting.read statement middle = .error error after) ∨
    ∃ statement ∈ statements source, error.line = statement.line ∧ error.cause.IsOfPatching ∧
      ∀ name, error.cause = .labelUndefined name →
        index? (labelTable source) name = none ∧ statement.RefersTo name := by
  rcases cases_of_assemble_error h with ⟨after, hread⟩ | ⟨draft, after, hread, hpatch⟩
  · obtain ⟨front, statement, rest, middle, hfront⟩ := forM_eq_error.mp hread
    exact .inl ⟨front, statement, rest, middle, after, hfront⟩
  · exact .inr (exists_statement_of_patch hread hpatch)

private theorem not_mem_labels_of_index? {name : List Char}
    (h : index? (labelTable source) name = none) :
    ∀ statement ∈ statements source, name ∉ statement.labels := by
  intro statement hstatement hname
  refine index?_eq_none.mp h ?_
  rw [labelTable_eq, names_labelsFrom]
  exact List.mem_flatMap.mpr ⟨statement, hstatement, hname⟩

/-- Assembly ends with the first statement that cannot be read. Nothing behind its line matters, and
what stands before its line can be read. -/
private theorem fails_fast (h : assemble ramSize source = .error error)
    (hcause : ¬ error.cause.IsOfPatching) :
    (∀ text, assemble ramSize (source ++ '\n' :: text) = .error error) ∧
      assemble ramSize (firstLines error.line source) = .error error ∧
      ∀ other, assemble ramSize (firstLines (error.line - 1) source) = .error other →
        other.cause.IsOfPatching := by
  rcases cases_of_error h with ⟨front, statement, rest, middle, after, hstatements, hfront, hread⟩ |
    ⟨_, -, -, hpatching, -⟩
  swap
  · exact absurd hpatching hcause
  have hline : error.line = statement.line := (Drafting.blames_read statement _ _ _ hread).line
  obtain ⟨⟨behind, hlines⟩, between, hbefore⟩ := exists_firstLines_eq hstatements
  rw [hline]
  refine ⟨fun text => ?_, assemble_of_read hlines hfront hread, fun other hother => ?_⟩
  · obtain ⟨later, hlater⟩ := exists_statements_append source text
    rw [hstatements, List.append_assoc, List.cons_append] at hlater
    exact assemble_of_read hlater hfront hread
  · rw [hbefore] at hfront
    obtain ⟨draft, hlines⟩ := forM_front_eq_ok hfront
    rcases cases_of_assemble_error hother with ⟨_, herror⟩ | ⟨_, _, hfirst, hpatch⟩
    · rw [hlines] at herror
      cases herror
    · obtain ⟨_, -, -, hpatching, -⟩ := exists_statement_of_patch hfirst hpatch
      exact hpatching

/-- The line that is to blame has a statement. -/
private theorem exists_statement_of_error (h : assemble ramSize source = .error error) :
    ∃ statement ∈ statements source, error.line = statement.line ∧
      ∀ name, error.cause = .labelUndefined name →
        (∀ other ∈ statements source, name ∉ other.labels) ∧ statement.RefersTo name := by
  rcases cases_of_error h with ⟨front, statement, rest, middle, after, hstatements, -, hread⟩ |
    ⟨statement, hstatement, hline, -, hundefined⟩
  · have hblames := Drafting.blames_read statement _ _ _ hread
    refine ⟨statement, ?_, hblames.line, fun name hname => ?_⟩
    · rw [hstatements]
      exact List.mem_append_right _ List.mem_cons_self
    · exact absurd hname (hblames.cause.declared name)
  · refine ⟨statement, hstatement, hline, fun name hname => ?_⟩
    obtain ⟨hindex, hrefers⟩ := hundefined name hname
    exact ⟨not_mem_labels_of_index? hindex, hrefers⟩

/-- Assembly stops at the first statement that cannot be read: more lines behind it change nothing,
nor do fewer, and before its line nothing is wrong but what only the whole source could have told.
Whatever is wrong, the line has a statement on it; if it is a label, no statement declares the label
and one on the line refers to it. -/
theorem error_of_assemble (h : assemble ramSize source = .error error) :
    (¬ error.cause.IsOfPatching →
      (∀ text, assemble ramSize (source ++ '\n' :: text) = .error error) ∧
        assemble ramSize (firstLines error.line source) = .error error ∧
        ∀ other, assemble ramSize (firstLines (error.line - 1) source) = .error other →
          other.cause.IsOfPatching) ∧
    (1 ≤ error.line ∧ ∃ line, (source.splitOn '\n')[error.line - 1]? = some line ∧
      statementTexts line ≠ []) ∧
    ∀ name, error.cause = .labelUndefined name →
      (∀ statement ∈ statements source, name ∉ statement.labels) ∧
        ∃ statement ∈ statements source,
          statement.line = error.line ∧ statement.RefersTo name := by
  obtain ⟨statement, hstatement, hline, hundefined⟩ := exists_statement_of_error h
  refine ⟨fails_fast h, ?_, fun name hname => ?_⟩
  · obtain ⟨hpos, line, hget, htext⟩ := exists_line_of_mem hstatement
    rw [hline]
    exact ⟨hpos, line, hget, List.ne_nil_of_mem htext⟩
  · obtain ⟨hdeclares, hrefers⟩ := hundefined name hname
    exact ⟨hdeclares, statement, hstatement, hline.symm, hrefers⟩

/-- A name that is no register ends assembly on the third line, and a label that is never declared
is blamed on the second. -/
theorem error_of_assemble_lines :
    let source := "nop; jmpi [ end]\n# a comment\nldi q, 1".toList
    let error : Error := ⟨3, .unknownRegister "q".toList⟩
    let undeclared := "nop\njmpi [ end ]".toList
    (∀ text, assemble 8 (source ++ '\n' :: text) = .error error) ∧
      assemble 8 (firstLines 3 source) = .error error ∧
      (∀ other, assemble 8 (firstLines 2 source) = .error other → other.cause.IsOfPatching) ∧
      (∀ statement ∈ statements undeclared, "end".toList ∉ statement.labels) ∧
      ∃ statement ∈ statements undeclared,
        statement.line = 2 ∧ statement.RefersTo "end".toList := by
  intro source error undeclared
  have hregister : assemble 8 source = .error error := by
    decide +kernel
  have hlabel : assemble 8 undeclared = .error ⟨2, .labelUndefined "end".toList⟩ := by
    decide +kernel
  obtain ⟨htext, hlines, hbefore⟩ := (error_of_assemble hregister).1 id
  obtain ⟨hdeclares, hrefers⟩ := (error_of_assemble hlabel).2.2 "end".toList rfl
  exact ⟨htext, hlines, hbefore, hdeclares, hrefers⟩

end Program

end WordMachine.Assembly
