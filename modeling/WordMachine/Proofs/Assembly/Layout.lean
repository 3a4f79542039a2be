import Mathlib.Data.List.Forall2
import WordMachine.Proofs.Assembly.Lines
import WordMachine.Proofs.Text.Blank

/-! The layout of a source. Lines are read one by one, a semicolon separates statements as the end
of a line does, and a comment at the end of a line is none of them. -/
namespace WordMachine.Assembly

open Text (isBlank trim)

def Statement.below (lines : Nat) (statement : Statement) : Statement :=
  { statement with line := statement.line + lines }

def texts (source : List Char) : List (List Char) :=
  (statements source).map Statement.text

/-- Whether some semicolons of a source have become ends of lines, and nothing else is changed. -/
def BreaksLines (source other : List Char) : Prop :=
  List.Forall₂ (fun c d => d = c ∨ c = ';' ∧ d = '\n') source other

/-- Whether text begins with the end of a line, which a carriage return can belong to. -/
def EndsLine (text : List Char) : Prop :=
  text = [] ∨ (∃ later, text = '\n' :: later) ∨ ∃ later, text = '\r' :: '\n' :: later

variable {source other : List Char}

section Lines

private theorem statementsFrom_below (number moved : Nat) (lines : List (List Char)) :
    statementsFrom (number + moved) lines =
      (statementsFrom number lines).map (Statement.below moved) := by
  induction lines generalizing number with
  | nil => rfl
  | cons line lines ih =>
    have hcons (number : Nat) : statementsFrom number (line :: lines) =
        (statementTexts line).map (Statement.mk number) ++ statementsFrom (number + 1) lines :=
      List.flatMap_cons
    rw [hcons, hcons, List.map_append, List.map_map, Nat.add_right_comm, ih]
    rfl

/-- The statements behind a line stand below those in front of it and in it. -/
private theorem statements_append (source text : List Char) : statements (source ++ '\n' :: text) =
    statements source ++ (statements text).map (Statement.below (1 + source.count '\n')) := by
  rw [statements_eq, List.splitOn_append_cons_self, statementsFrom_append, Text.length_splitOn,
    Nat.add_comm (source.count '\n'), statementsFrom_below]
  rfl

end Lines

section Comments

private theorem code_append_comment (line comment : List Char) :
    code (line ++ '#' :: comment) = code line := by
  induction line with
  | nil => rfl
  | cons c line ih =>
    unfold code at ih ⊢
    rw [List.cons_append, List.takeWhile_cons, List.takeWhile_cons, ih]

private theorem statementTexts_append_comment (line comment : List Char) :
    statementTexts (line ++ '#' :: comment) = statementTexts line := by
  rw [statementTexts, code_append_comment, ← statementTexts]

private theorem code_append_return (line : List Char) :
    code (line ++ ['\r']) = code line ∨ code (line ++ ['\r']) = code line ++ ['\r'] := by
  induction line with
  | nil => exact .inr rfl
  | cons c line ih =>
    unfold code at ih ⊢
    rw [List.cons_append, List.takeWhile_cons, List.takeWhile_cons]
    split
    next => exact ih.imp (congrArg (c :: ·)) (congrArg (c :: ·))
    next => exact .inl rfl

/-- A carriage return at the end of a line is a blank like any other. -/
private theorem statementTexts_append_return (line : List Char) :
    statementTexts (line ++ ['\r']) = statementTexts line := by
  unfold statementTexts
  rcases code_append_return line with hsame | hmore
  · rw [hsame]
  · obtain ⟨front, last, hplain, hsplit⟩ := Text.exists_splitOn_append ';' (code line)
    have htrim : trim (last ++ ['\r']) = trim last :=
      Text.trim_append (List.forall_mem_singleton.mpr rfl)
    rw [hmore, hsplit ['\r'] (by decide), hplain, List.map_append, List.map_singleton, htrim,
      List.map_append, List.map_singleton]

/-- What adds nothing to a line adds nothing to a source whose last line it ends. -/
private theorem statements_append_of_line {behind : List Char} (hline : '\n' ∉ behind)
    (htexts : ∀ line, statementTexts (line ++ behind) = statementTexts line) :
    statements (source ++ behind) = statements source := by
  obtain ⟨front, last, hplain, hsplit⟩ := Text.exists_splitOn_append '\n' source
  have hlast (number : Nat) : statementsFrom number [last ++ behind] =
      statementsFrom number [last] := by
    simp only [statementsFrom, List.zipIdx_singleton, List.flatMap_singleton, htexts]
  rw [statements_eq, statements_eq, hsplit behind hline, hplain, statementsFrom_append, hlast,
    ← statementsFrom_append]

private theorem statements_append_comment {comment : List Char} (h : '\n' ∉ comment) :
    statements (source ++ '#' :: comment) = statements source :=
  statements_append_of_line (List.not_mem_cons_of_ne_of_not_mem (by decide) h)
    fun line => statementTexts_append_comment line comment

/-- Sources that have as many lines and the same statements can be continued alike. -/
private theorem statements_append_congr (h : statements source = statements other)
    (hlines : source.count '\n' = other.count '\n') (text : List Char) :
    statements (source ++ '\n' :: text) = statements (other ++ '\n' :: text) := by
  rw [statements_append, statements_append, h, hlines]

/-- A comment at the end of a line changes no statement. -/
private theorem statements_comment {comment rest : List Char} (hcomment : '\n' ∉ comment)
    (hrest : EndsLine rest) (source : List Char) :
    statements (source ++ '#' :: (comment ++ rest)) = statements (source ++ rest) := by
  have hcount : comment.count '\n' = 0 := List.count_eq_zero.mpr hcomment
  rcases hrest with rfl | ⟨later, rfl⟩ | ⟨later, rfl⟩
  · rw [List.append_nil, List.append_nil]
    exact statements_append_comment hcomment
  · have hlines : (source ++ '#' :: comment).count '\n' = source.count '\n' := by
      simp [hcount]
    rw [← List.cons_append, ← List.append_assoc]
    exact statements_append_congr (statements_append_comment hcomment) hlines later
  · have hreturn : '\n' ∉ comment ++ ['\r'] := by
      simp [hcomment]
    have hsame : statements (source ++ '#' :: (comment ++ ['\r'])) =
        statements (source ++ ['\r']) :=
      (statements_append_comment hreturn).trans
        (statements_append_of_line (by decide) statementTexts_append_return).symm
    have hlines : (source ++ '#' :: (comment ++ ['\r'])).count '\n' =
        (source ++ ['\r']).count '\n' := by
      simp [hcount]
    have happend := statements_append_congr hsame hlines later
    simpa only [List.append_assoc, List.cons_append, List.nil_append] using happend

end Comments

section Semicolons

private theorem texts_eq (source : List Char) :
    texts source = (source.splitOn '\n').flatMap statementTexts := by
  have hfrom (number : Nat) (lines : List (List Char)) :
      (statementsFrom number lines).map Statement.text = lines.flatMap statementTexts := by
    induction lines generalizing number with
    | nil => rfl
    | cons line lines ih =>
      rw [statementsFrom, List.zipIdx_cons, List.flatMap_cons, List.map_append, List.map_map,
        ← statementsFrom, ih, List.flatMap_cons]
      exact congrArg (· ++ _) (List.map_id _)
  exact hfrom 1 _

/-- Without comments the texts are what stands between ends of lines and semicolons. -/
private theorem texts_eq_splitOnP (h : '#' ∉ source) : texts source =
    ((source.splitOnP fun c => c == '\n' || c == ';').map trim).filter (!·.isEmpty) := by
  have hline : ∀ line ∈ source.splitOn '\n', statementTexts line =
      ((line.splitOn ';').map trim).filter (!·.isEmpty) := by
    intro line hline
    have hcode : code line = line := by
      refine List.takeWhile_eq_self_iff.mpr fun c hc => bne_iff_ne.mpr ?_
      rintro rfl
      exact h (Text.mem_and_ne_of_mem_splitOn hline hc).1
    rw [statementTexts, hcode]
  rw [texts_eq, List.flatMap_congr hline, ← Text.flatMap_splitOn, List.map_flatMap,
    List.filter_flatMap]

private theorem BreaksLines.splitOnP_eq (h : BreaksLines source other) :
    (source.splitOnP fun c => c == '\n' || c == ';') =
      other.splitOnP fun c => c == '\n' || c == ';' := by
  induction h with
  | nil => rfl
  | @cons c d source other hchar hrest ih =>
    rw [List.splitOnP_cons_eq_if_modifyHead, List.splitOnP_cons_eq_if_modifyHead, ih]
    rcases hchar with rfl | ⟨rfl, rfl⟩
    · rfl
    · rfl

private theorem BreaksLines.not_mem (h : BreaksLines source other) {c : Char} (hsource : c ∉ source)
    (hc : c ≠ '\n') : c ∉ other := by
  induction h with
  | nil => exact hsource
  | @cons first second source other hchar hrest ih =>
    rw [List.mem_cons, not_or] at hsource ⊢
    refine ⟨?_, ih hsource.2⟩
    rcases hchar with rfl | ⟨-, rfl⟩
    · exact hsource.1
    · exact hc

end Semicolons

section Statement

/-- The text of a statement comes from a line, up to its comment and between semicolons. -/
private theorem mem_line_of_mem_statementTexts {line text : List Char}
    (h : text ∈ statementTexts line)
    {c : Char} (hc : c ∈ text) : c ∈ line ∧ c ≠ '#' ∧ c ≠ ';' := by
  obtain ⟨hmap, -⟩ := List.mem_filter.mp h
  obtain ⟨part, hpart, rfl⟩ := List.mem_map.mp hmap
  obtain ⟨hcode, hsemicolon⟩ := Text.mem_and_ne_of_mem_splitOn hpart (Text.mem_of_mem_trim hc)
  rw [code] at hcode
  have hcomment := List.mem_takeWhile_imp hcode
  exact ⟨(List.takeWhile_prefix _).subset hcode, bne_iff_ne.mp hcomment, hsemicolon⟩

theorem mem_source_of_mem_text {statement : Statement} (h : statement ∈ statements source)
    {c : Char} (hc : c ∈ statement.text) : c ∈ source ∧ c ≠ '#' ∧ c ≠ ';' ∧ c ≠ '\n' := by
  obtain ⟨-, line, hline, htext⟩ := exists_line_of_mem h
  obtain ⟨hmem, hcomment, hsemicolon⟩ := mem_line_of_mem_statementTexts htext hc
  obtain ⟨hsource, hend⟩ :=
    Text.mem_and_ne_of_mem_splitOn (List.mem_of_getElem? hline) hmem
  exact ⟨hsource, hcomment, hsemicolon, hend⟩

private theorem exists_trim_of_mem {statement : Statement} (h : statement ∈ statements source) :
    statement.text ≠ [] ∧ ∃ part, statement.text = trim part := by
  obtain ⟨-, line, -, htext⟩ := exists_line_of_mem h
  obtain ⟨hmap, hne⟩ := List.mem_filter.mp htext
  obtain ⟨part, -, hpart⟩ := List.mem_map.mp hmap
  exact ⟨by simpa using hne, part, hpart.symm⟩

end Statement

/-- A source is read line by line: behind the end of a line the statements are those of the text
that stands there, only further down. Where there is no comment, semicolons can become ends of lines
and the texts of the statements stay; a comment at the end of a line changes nothing; and the text
of a statement is not empty, has a blank at neither end, and is neither a comment nor broken. -/
theorem statements_layout :
    (∀ source text, statements (source ++ '\n' :: text) =
      statements source ++ (statements text).map (Statement.below (1 + source.count '\n'))) ∧
    (∀ source other, '#' ∉ source → BreaksLines source other → texts other = texts source) ∧
    (∀ source comment rest, '\n' ∉ comment → EndsLine rest →
      statements (source ++ '#' :: (comment ++ rest)) = statements (source ++ rest)) ∧
    ∀ source, ∀ statement ∈ statements source, statement.text ≠ [] ∧
      (∀ c ∈ statement.text.head?, isBlank c = false) ∧
      (∀ c ∈ statement.text.getLast?, isBlank c = false) ∧
      '#' ∉ statement.text ∧ ';' ∉ statement.text ∧ '\n' ∉ statement.text := by
  refine ⟨statements_append, fun source other h hbreaks => ?_,
    fun source comment rest hcomment hrest => statements_comment hcomment hrest source,
    fun source statement hstatement => ?_⟩
  · rw [texts_eq_splitOnP h, texts_eq_splitOnP (hbreaks.not_mem h (by decide)),
      hbreaks.splitOnP_eq]
  · obtain ⟨hne, part, htext⟩ := exists_trim_of_mem hstatement
    have hmem {c : Char} (hc : c ∈ statement.text) := mem_source_of_mem_text hstatement hc
    refine ⟨hne, fun c hc => ?_, fun c hc => ?_, fun hc => (hmem hc).2.1 rfl,
      fun hc => (hmem hc).2.2.1 rfl, fun hc => (hmem hc).2.2.2 rfl⟩
    · rw [htext] at hc
      exact Text.isBlank_of_mem_head?_trim hc
    · rw [htext] at hc
      exact Text.isBlank_of_mem_getLast?_trim hc

/-- Two statements on a line that ends in a carriage return, or one of them behind a comment, or
each on a line of its own. -/
theorem statements_layout_return :
    statements "nop; hlt\r\nret".toList =
      statements "nop; hlt\r".toList ++ [⟨2, "ret".toList⟩] ∧
    texts "nop\n hlt".toList = texts "nop; hlt".toList ∧
    statements "nop #; hlt\r\nret".toList = statements "nop \r\nret".toList ∧
    ∀ statement ∈ statements "nop; hlt\r".toList, '\n' ∉ statement.text := by
  obtain ⟨hlines, htexts, hcomment, hbare⟩ := statements_layout
  have hbreaks : BreaksLines "nop; hlt".toList "nop\n hlt".toList := by
    simp [BreaksLines]
  refine ⟨hlines "nop; hlt\r".toList "ret".toList, htexts _ _ (by decide) hbreaks,
    hcomment "nop ".toList "; hlt".toList _ (by decide) (.inr (.inr ⟨"ret".toList, rfl⟩)),
    fun statement hstatement => ?_⟩
  obtain ⟨-, -, -, -, -, hend⟩ := hbare _ statement hstatement
  exact hend

end WordMachine.Assembly
