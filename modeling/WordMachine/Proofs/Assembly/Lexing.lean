import Mathlib.Data.List.TakeWhile
import WordMachine.Assembly.Statement
import WordMachine.Proofs.Text.Blank

/-! A statement that is written with single blanks is taken apart into the words that it was made
of. -/
namespace WordMachine.Assembly

open Text (Tidy isBlank trim)

def IsWord (text : List Char) : Prop :=
  text ≠ [] ∧ ∀ c ∈ text, c.isAlphanum = true

def written (mnemonic : List Char) (operands : List (List Char)) : List Char :=
  if operands.isEmpty then mnemonic else mnemonic ++ ' ' :: ", ".toList.intercalate operands

theorem isWord_of_all {text : List Char} (h : (text.isEmpty || !text.all Char.isAlphanum) = false) :
    IsWord text := by
  simpa [IsWord] using h

theorem IsWord.not_mem {text : List Char} (h : IsWord text) {c : Char}
    (hc : c.isAlphanum = false) : c ∉ text := by
  intro hmem
  rw [h.2 c hmem] at hc
  cases hc

private theorem IsWord.tidy {text : List Char} (h : IsWord text) : Tidy text where
  first := by
    obtain ⟨first, rest, rfl⟩ := List.exists_cons_of_ne_nil h.1
    exact ⟨first, rest, rfl, h.2 first List.mem_cons_self⟩
  last := by
    exact ⟨text.dropLast, text.getLast h.1, (List.dropLast_concat_getLast h.1).symm,
      h.2 _ (List.getLast_mem h.1)⟩

private theorem IsWord.not_isBlank {text : List Char} (h : IsWord text) :
    ∀ c ∈ text, (!isBlank c) = true := by
  intro c hc
  rw [Text.isBlank_of_isAlphanum (h.2 c hc), Bool.not_false]

private theorem mem_intercalate {separator : List Char} {texts : List (List Char)} {c : Char}
    (h : c ∈ separator.intercalate texts) : c ∈ separator ∨ ∃ text ∈ texts, c ∈ text := by
  induction texts with
  | nil => cases h
  | cons first rest ih =>
    cases rest with
    | nil =>
      rw [List.intercalate_singleton] at h
      exact .inr ⟨first, List.mem_cons_self, h⟩
    | cons second rest =>
      rw [List.intercalate_cons_cons, List.mem_append, List.mem_append] at h
      rcases h with (hfirst | hseparator) | hrest
      · exact .inr ⟨first, List.mem_cons_self, hfirst⟩
      · exact .inl hseparator
      · rcases ih hrest with hseparator | ⟨text, htext, hc⟩
        · exact .inl hseparator
        · exact .inr ⟨text, List.mem_cons_of_mem _ htext, hc⟩

/-- A blank behind each comma belongs to the part that follows. -/
private theorem intercalate_comma_blank (first : List Char) (rest : List (List Char)) :
    ", ".toList.intercalate (first :: rest) =
      [','].intercalate (first :: rest.map (' ' :: ·)) := by
  induction rest generalizing first with
  | nil => rw [List.map_nil, List.intercalate_singleton, List.intercalate_singleton]
  | cons second rest ih =>
    rw [List.map_cons, List.intercalate_cons_cons, List.intercalate_cons_cons, ih,
      List.intercalate_cons_cons_left]
    simp

variable {mnemonic : List Char} {operands : List (List Char)}

private theorem tidy_intercalate (hne : operands ≠ []) (h : ∀ operand ∈ operands, IsWord operand) :
    Tidy (", ".toList.intercalate operands) := by
  apply Tidy.intercalate hne
  intro operand hoperand
  exact (h operand hoperand).tidy

/-- Operands that are words are found between commas. -/
private theorem operandList_intercalate (h : ∀ operand ∈ operands, IsWord operand) :
    operandList (", ".toList.intercalate operands) = operands := by
  cases operands with
  | nil => rfl
  | cons first rest =>
    obtain ⟨hfirst, hrest⟩ := List.forall_mem_cons.mp h
    have hcomma : ∀ text ∈ first :: rest.map (' ' :: ·), ',' ∉ text := by
      refine List.forall_mem_cons.mpr ⟨hfirst.not_mem rfl, ?_⟩
      refine List.forall_mem_map.mpr fun operand hoperand => ?_
      exact List.not_mem_cons_of_ne_of_not_mem (by decide) ((hrest operand hoperand).not_mem rfl)
    have htrim : (rest.map (' ' :: ·)).map trim = rest := by
      rw [List.map_map]
      refine (List.map_congr_left fun operand hoperand => ?_).trans (List.map_id rest)
      exact (hrest operand hoperand).tidy.trim_blank_cons
    have hjoined := tidy_intercalate (List.cons_ne_nil first rest) h
    have hsplit : operandList (", ".toList.intercalate (first :: rest)) =
        ((", ".toList.intercalate (first :: rest)).splitOn ',').map trim := by
      unfold operandList
      split
      next hnil => exact absurd hnil hjoined.ne_nil
      next => rfl
    rw [hsplit, intercalate_comma_blank, List.splitOn_intercalate _ hcomma (List.cons_ne_nil _ _),
      List.map_cons, htrim, hfirst.tidy.trim_eq]

section Written

variable (hmnemonic : IsWord mnemonic) (hoperands : ∀ operand ∈ operands, IsWord operand)

include hmnemonic hoperands

theorem tidy_written : Tidy (written mnemonic operands) := by
  unfold written
  split
  next => exact hmnemonic.tidy
  next hne =>
    have hjoined := tidy_intercalate (mt List.isEmpty_iff.mpr hne) hoperands
    exact hmnemonic.tidy.append hjoined [' ']

/-- Nothing is written but letters, digits, blanks and commas. -/
theorem not_mem_written {c : Char} (hc : c.isAlphanum = false) (hblank : c ≠ ' ')
    (hcomma : c ≠ ',') : c ∉ written mnemonic operands := by
  unfold written
  split
  next => exact hmnemonic.not_mem hc
  next =>
    intro hmem
    rcases List.mem_append.mp hmem with hfirst | hrest
    · exact hmnemonic.not_mem hc hfirst
    · rcases List.mem_cons.mp hrest with hc | hjoined
      · exact hblank hc
      · rcases mem_intercalate hjoined with hseparator | ⟨operand, hoperand, hmem⟩
        · simp [hblank, hcomma] at hseparator
        · exact (hoperands operand hoperand).not_mem hc hmem

/-- Nothing is a comment, and there is one statement on the line. -/
theorem statementTexts_written :
    statementTexts (written mnemonic operands) = [written mnemonic operands] := by
  have htidy := tidy_written hmnemonic hoperands
  have hcomment := not_mem_written hmnemonic hoperands (c := '#') rfl (by decide) (by decide)
  have hsemicolon := not_mem_written hmnemonic hoperands (c := ';') rfl (by decide) (by decide)
  have hcode : code (written mnemonic operands) = written mnemonic operands := by
    refine List.takeWhile_eq_self_iff.mpr fun c hc => ?_
    exact bne_iff_ne.mpr fun heq => hcomment (heq ▸ hc)
  rw [statementTexts, hcode, List.splitOn_eq_singleton hsemicolon, List.map_singleton,
    htidy.trim_eq]
  simp [htidy.ne_nil]

variable (line : Nat)

/-- There are no labels. -/
theorem parts_written : (Statement.mk line (written mnemonic operands)).parts =
    [written mnemonic operands] := by
  have hcolon := not_mem_written hmnemonic hoperands (c := ':') rfl (by decide) (by decide)
  rw [Statement.parts, List.splitOn_eq_singleton hcolon, List.map_singleton,
    (tidy_written hmnemonic hoperands).trim_eq]

theorem body_written : (Statement.mk line (written mnemonic operands)).body =
    written mnemonic operands := by
  rw [Statement.body, parts_written hmnemonic hoperands]
  rfl

theorem mnemonic_written :
    (Statement.mk line (written mnemonic operands)).mnemonic = mnemonic := by
  rw [Statement.mnemonic, body_written hmnemonic hoperands, written]
  split
  next => exact List.takeWhile_eq_self_iff.mpr hmnemonic.not_isBlank
  next =>
    rw [List.takeWhile_append_of_pos hmnemonic.not_isBlank]
    exact List.append_nil mnemonic

theorem operands_written :
    (Statement.mk line (written mnemonic operands)).operands = operands := by
  rw [Statement.operands, body_written hmnemonic hoperands, written]
  split
  next hnil =>
    rw [List.dropWhile_eq_nil_iff.mpr hmnemonic.not_isBlank, List.isEmpty_iff.mp hnil]
    rfl
  next hne =>
    have hjoined := tidy_intercalate (mt List.isEmpty_iff.mpr hne) hoperands
    rw [List.dropWhile_append_of_pos hmnemonic.not_isBlank]
    exact (congrArg operandList hjoined.trim_blank_cons).trans (operandList_intercalate hoperands)

end Written

/-- Lines that are one statement each. -/
theorem statements_lines {texts : List (List Char)} (hline : ∀ text ∈ texts, '\n' ∉ text)
    (hstatement : ∀ text ∈ texts, statementTexts text = [text]) :
    statements (['\n'].intercalate (texts ++ [[]])) =
      (texts.zipIdx 1).map fun (text, line) => ⟨line, text⟩ := by
  have hsplit : ∀ text ∈ texts ++ [[]], '\n' ∉ text := by
    intro text htext
    rcases List.mem_append.mp htext with hfront | hlast
    · exact hline text hfront
    · rw [List.mem_singleton.mp hlast]
      exact List.not_mem_nil
  rw [statements, List.splitOn_intercalate _ hsplit (by simp)]
  clear hsplit hline
  generalize 1 = number
  induction texts generalizing number with
  | nil => rfl
  | cons first rest ih =>
    obtain ⟨hfirst, hrest⟩ := List.forall_mem_cons.mp hstatement
    rw [List.cons_append, List.zipIdx_cons, List.zipIdx_cons, List.flatMap_cons, ih hrest]
    simp [hfirst]

end WordMachine.Assembly
