import WordMachine.Assembly.Statement
import WordMachine.Proofs.Text.Separation

/-! The lines of a source. The first lines of a source have the first of its statements, and more
lines behind a source add statements behind its own. -/
namespace WordMachine.Assembly

def firstLines (count : Nat) (source : List Char) : List Char :=
  ['\n'].intercalate ((source.splitOn '\n').take count)

def statementsFrom (number : Nat) (lines : List (List Char)) : List Statement :=
  (lines.zipIdx number).flatMap fun (line, number) =>
    (statementTexts line).map (Statement.mk number)

variable {source : List Char} {lines : List (List Char)} {number : Nat} {statement : Statement}

theorem statements_eq (source : List Char) :
    statements source = statementsFrom 1 (source.splitOn '\n') :=
  rfl

theorem statementsFrom_append (number : Nat) (lines later : List (List Char)) :
    statementsFrom number (lines ++ later) =
      statementsFrom number lines ++ statementsFrom (number + lines.length) later := by
  rw [statementsFrom, List.zipIdx_append, List.flatMap_append, statementsFrom, statementsFrom]

/-- A statement has the number of a line that it stands on. -/
theorem exists_line_of_mem (h : statement ∈ statementsFrom number lines) :
    number ≤ statement.line ∧ ∃ line, lines[statement.line - number]? = some line ∧
      statement.text ∈ statementTexts line := by
  obtain ⟨⟨line, index⟩, hline, hstatement⟩ := List.mem_flatMap.mp h
  obtain ⟨text, htext, rfl⟩ := List.mem_map.mp hstatement
  obtain ⟨hle, hget⟩ := List.mk_mem_zipIdx_iff_le_and_getElem?_sub.mp hline
  exact ⟨hle, line, hget, htext⟩

private theorem statements_firstLines (count : Nat) (source : List Char) :
    statements (firstLines count source) =
      statementsFrom 1 ((source.splitOn '\n').take count) := by
  cases count with
  | zero => rfl
  | succ count =>
    have hline : ∀ line ∈ (source.splitOn '\n').take (count + 1), '\n' ∉ line := fun _ hline =>
      Text.separator_not_mem_of_mem_splitOn (List.mem_of_mem_take hline)
    have hne : (source.splitOn '\n').take (count + 1) ≠ [] := by
      rw [ne_eq, List.take_eq_nil_iff, not_or]
      exact ⟨Nat.succ_ne_zero count, List.splitOn_ne_nil _ _⟩
    rw [statements_eq, firstLines, List.splitOn_intercalate _ hline hne]

/-- What the first lines leave of a source stands on later lines. -/
private theorem exists_statements_eq (count : Nat) (source : List Char) :
    ∃ later, statements source = statements (firstLines count source) ++ later ∧
      (∀ statement ∈ statements (firstLines count source), statement.line ≤ count) ∧
      ∀ statement ∈ later, count < statement.line := by
  let first := (source.splitOn '\n').take count
  let rest := (source.splitOn '\n').drop count
  rw [statements_firstLines]
  refine ⟨statementsFrom (1 + first.length) rest, ?_, ?_, ?_⟩
  · rw [← statementsFrom_append, List.take_append_drop]
    rfl
  · intro statement hstatement
    obtain ⟨hle, line, hline, -⟩ := exists_line_of_mem hstatement
    have hlt : statement.line - 1 < first.length := (List.getElem?_eq_some_iff.mp hline).1
    have hlength : first.length ≤ count := List.length_take_le count _
    omega
  · intro statement hstatement
    obtain ⟨hle, line, hline, -⟩ := exists_line_of_mem hstatement
    -- There is a later line, and so there are as many lines in front of it as are counted.
    have hlt := (List.getElem?_eq_some_iff.mp hline).1
    rw [List.length_drop] at hlt
    have hlength : first.length = count := List.length_take_of_le (by omega)
    omega

/-- More lines behind a source add statements behind its own. -/
theorem exists_statements_append (source text : List Char) :
    ∃ later, statements (source ++ '\n' :: text) = statements source ++ later := by
  rw [statements_eq, List.splitOn_append_cons_self, statementsFrom_append]
  exact ⟨_, rfl⟩

/-- Of the statements in front of one and behind it, the lines up to its own have all in front,
and the lines before its own have none from it on. -/
theorem exists_firstLines_eq {front rest : List Statement}
    (h : statements source = front ++ statement :: rest) :
    (∃ behind, statements (firstLines statement.line source) = front ++ statement :: behind) ∧
      ∃ between, front = statements (firstLines (statement.line - 1) source) ++ between := by
  have hmem : statement ∈ statements source := by
    rw [h]
    exact List.mem_append_right _ List.mem_cons_self
  have hpos : 1 ≤ statement.line := (exists_line_of_mem hmem).1
  constructor
  · obtain ⟨later, hsource, -, hlater⟩ := exists_statements_eq statement.line source
    have hnot : statement ∉ later := fun hmem => Nat.lt_irrefl _ (hlater statement hmem)
    rcases List.append_eq_append_iff.mp (hsource.symm.trans h) with
      ⟨more, rfl, rfl⟩ | ⟨more, hfirst, hrest⟩
    · exact absurd (List.mem_append_right _ List.mem_cons_self) hnot
    · rcases List.cons_eq_append_iff.mp hrest with ⟨-, rfl⟩ | ⟨behind, rfl, -⟩
      · exact absurd List.mem_cons_self hnot
      · exact ⟨behind, hfirst⟩
  · obtain ⟨later, hsource, hfirst, -⟩ := exists_statements_eq (statement.line - 1) source
    have hnot : statement ∉ statements (firstLines (statement.line - 1) source) := by
      intro hmem
      have hle := hfirst statement hmem
      omega
    rcases List.append_eq_append_iff.mp (hsource.symm.trans h) with
      ⟨between, hfront, -⟩ | ⟨more, hlines, hrest⟩
    · exact ⟨between, hfront⟩
    · rcases List.cons_eq_append_iff.mp hrest with ⟨rfl, -⟩ | ⟨behind, rfl, -⟩
      · exact ⟨[], by rw [hlines, List.append_nil, List.append_nil]⟩
      · rw [hlines] at hnot
        exact absurd (List.mem_append_right _ List.mem_cons_self) hnot

end WordMachine.Assembly
