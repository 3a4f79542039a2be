import Mathlib
import WordMachine.Proofs.Assembly.Layout
import WordMachine.Proofs.Assembly.Program

/-! The case of letters. Everything but the names of labels is read in any case, so that sources
without labels assemble to the same program if they differ in nothing else. -/
namespace WordMachine.Text

variable {c separator : Char}

private theorem toLower_of_not_isAlpha (h : c.isAlpha = false) : c.toLower = c := by
  refine Char.toLower_eq_of_not_isUpper fun hupper => ?_
  rw [Char.isAlpha, hupper, Bool.true_or] at h
  cases h

/-- No letter becomes a character that is none, and no other character changes. -/
private theorem toLower_eq_iff (h : separator.isAlpha = false) (c : Char) :
    c.toLower = separator ↔ c = separator := by
  constructor
  · rintro rfl
    rw [Char.isAlpha_toLower_eq_isAlpha] at h
    exact (toLower_of_not_isAlpha h).symm
  · rintro rfl
    exact toLower_of_not_isAlpha h

private theorem isBlank_toLower (c : Char) : isBlank c.toLower = isBlank c := by
  have hletter {c : Char} (h : c.isAlpha = true) : isBlank c = false :=
    isBlank_of_isAlphanum (by rw [Char.isAlphanum, h, Bool.true_or])
  cases h : c.isAlpha with
  | true => rw [hletter h, hletter ((Char.isAlpha_toLower_eq_isAlpha c).trans h)]
  | false => rw [toLower_of_not_isAlpha h]

private theorem map_toLower_map_toLower (text : List Char) :
    (text.map Char.toLower).map Char.toLower = text.map Char.toLower := by
  rw [List.map_map]
  exact List.map_congr_left fun c _ => Char.toLower_toLower_eq_toLower c

private theorem trimStart_map_toLower (text : List Char) :
    trimStart (text.map Char.toLower) = (trimStart text).map Char.toLower := by
  rw [trimStart, List.dropWhile_map, show isBlank ∘ Char.toLower = isBlank from
    funext isBlank_toLower, ← trimStart]

private theorem trim_map_toLower (text : List Char) :
    trim (text.map Char.toLower) = (trim text).map Char.toLower := by
  rw [trim, trimStart_map_toLower, trimEnd, ← List.map_reverse, trimStart_map_toLower,
    ← List.map_reverse, ← trimEnd, ← trim]

end WordMachine.Text

namespace WordMachine.Assembly

open Isa (Argument Entry Operand)
open Text (isBlank trim)

section Statements

private theorem code_map_toLower (line : List Char) :
    code (line.map Char.toLower) = (code line).map Char.toLower := by
  have hcomment : (· != '#') ∘ Char.toLower = (· != '#') := by
    funext c
    rw [Function.comp_apply, bne, bne, Bool.not_inj_iff, Bool.eq_iff_iff, beq_iff_eq, beq_iff_eq]
    exact Text.toLower_eq_iff rfl c
  rw [code, List.takeWhile_map, hcomment, ← code]

/-- Parts that are cut out at a separator and trimmed. -/
private theorem map_trim_splitOn_map_toLower {separator : Char} (h : separator.isAlpha = false)
    (text : List Char) : ((text.map Char.toLower).splitOn separator).map trim =
      ((text.splitOn separator).map trim).map (List.map Char.toLower) := by
  rw [Text.splitOn_map (Text.toLower_eq_iff h), List.map_map, List.map_map]
  exact List.map_congr_left fun part _ => Text.trim_map_toLower part

private theorem statementTexts_map_toLower (line : List Char) :
    statementTexts (line.map Char.toLower) =
      (statementTexts line).map (List.map Char.toLower) := by
  have hempty : (fun text : List Char => !text.isEmpty) ∘ List.map Char.toLower =
      fun text => !text.isEmpty := by
    funext text
    rw [Function.comp_apply, List.isEmpty_map]
  rw [statementTexts, code_map_toLower, map_trim_splitOn_map_toLower rfl, List.filter_map, hempty,
    ← statementTexts]

def Statement.lower (statement : Statement) : Statement :=
  { statement with text := statement.text.map Char.toLower }

private theorem statements_map_toLower (source : List Char) :
    statements (source.map Char.toLower) = (statements source).map Statement.lower := by
  rw [statements, Text.splitOn_map (Text.toLower_eq_iff rfl), List.zipIdx_map, List.flatMap_map,
    statements, List.map_flatMap]
  refine List.flatMap_congr fun ⟨line, number⟩ _ => ?_
  dsimp only [Prod.map, id_eq]
  rw [statementTexts_map_toLower, List.map_map, List.map_map]
  rfl

end Statements

namespace Statement

variable (statement : Statement)

private theorem parts_lower : statement.lower.parts = statement.parts.map (List.map Char.toLower) :=
  map_trim_splitOn_map_toLower rfl statement.text

private theorem labels_lower :
    statement.lower.labels = statement.labels.map (List.map Char.toLower) := by
  rw [labels, parts_lower, ← List.map_dropLast, ← labels]

private theorem body_lower : statement.lower.body = statement.body.map Char.toLower := by
  rw [body, parts_lower, body, List.getLastD_eq_getLast?, List.getLastD_eq_getLast?,
    List.getLast?_map]
  cases statement.parts.getLast? <;> rfl

private theorem hasInstruction_lower :
    statement.lower.hasInstruction = statement.hasInstruction := by
  rw [hasInstruction, body_lower, List.isEmpty_map, ← hasInstruction]

private theorem notBlank_comp_toLower : (!isBlank ·) ∘ Char.toLower = (!isBlank ·) := by
  funext c
  rw [Function.comp_apply, Text.isBlank_toLower]

private theorem mnemonic_lower :
    statement.lower.mnemonic = statement.mnemonic.map Char.toLower := by
  rw [mnemonic, body_lower, List.takeWhile_map, notBlank_comp_toLower, ← mnemonic]

private theorem operandList_map_toLower (text : List Char) :
    operandList (text.map Char.toLower) = (operandList text).map (List.map Char.toLower) := by
  cases text with
  | nil => rfl
  | cons first rest => exact map_trim_splitOn_map_toLower rfl (first :: rest)

private theorem operands_lower :
    statement.lower.operands = statement.operands.map (List.map Char.toLower) := by
  rw [operands, body_lower, List.dropWhile_map, notBlank_comp_toLower, Text.trim_map_toLower,
    operandList_map_toLower, ← operands]

end Statement

section Operands

private theorem referredLabel?_cons_of_ne {first : Char} (h : first ≠ '[') (rest : List Char) :
    referredLabel? (first :: rest) = none := by
  unfold referredLabel?
  split
  next hbracket => exact absurd (List.cons.inj hbracket).1 h
  next => rfl

private theorem referredLabel?_map_toLower (text : List Char) :
    referredLabel? (text.map Char.toLower) =
      (referredLabel? text).map (List.map Char.toLower) := by
  cases text with
  | nil => rfl
  | cons first rest =>
    by_cases hfirst : first = '['
    · subst hfirst
      have hlast : (rest.map Char.toLower).getLast? = some ']' ↔ rest.getLast? = some ']' := by
        have hbracket (c : Char) : c.toLower = ']' ↔ c = ']' := Text.toLower_eq_iff rfl c
        rw [List.getLast?_map, Option.map_eq_some_iff]
        simp only [hbracket, exists_eq_right]
      have hinner : trim (rest.map Char.toLower).dropLast =
          (trim rest.dropLast).map Char.toLower := by
        rw [← List.map_dropLast, Text.trim_map_toLower]
      change (if _ = _ then some _ else none) = Option.map _ (if _ = _ then some _ else none)
      rw [hinner, apply_ite (Option.map _)]
      exact if_congr hlast rfl rfl
    · have hlower : first.toLower ≠ '[' := fun h => hfirst ((Text.toLower_eq_iff rfl _).mp h)
      rw [List.map_cons, referredLabel?_cons_of_ne hlower, referredLabel?_cons_of_ne hfirst,
        Option.map_none]

private theorem ofName?_map_toLower (text : List Char) :
    Isa.Register.ofName? (text.map Char.toLower) = Isa.Register.ofName? text := by
  rw [Isa.Register.ofName?, Text.map_toLower_map_toLower, ← Isa.Register.ofName?]

private theorem parse?_map_toLower (text : List Char) :
    Literal.parse? (text.map Char.toLower) = Literal.parse? text := by
  rw [Literal.parse?, Text.map_toLower_map_toLower, ← Literal.parse?]

/-- Where there are no labels an operand text means the same in lower-case letters. -/
private theorem argument?_map_toLower (operand : Operand) (text : List Char) :
    argument? [] operand (text.map Char.toLower) = argument? [] operand text := by
  rw [argument?, ofName?_map_toLower, referredLabel?_map_toLower, parse?_map_toLower, argument?]
  cases referredLabel? text <;> rfl

variable {ramSize : Nat} {statement : Statement} {entry : Entry} {arguments : List Argument}

private theorem selects_lower_iff : statement.lower.Selects entry ↔ statement.Selects entry := by
  have hmnemonic : statement.lower.mnemonic.map Char.toLower =
      statement.mnemonic.map Char.toLower := by
    rw [statement.mnemonic_lower, Text.map_toLower_map_toLower]
  have hpresent : (∀ text ∈ statement.lower.operands, text ≠ []) ↔
      ∀ text ∈ statement.operands, text ≠ [] := by
    rw [statement.operands_lower, List.forall_mem_map]
    simp only [ne_eq, List.map_eq_nil_iff]
  have hcount : statement.lower.operands.length = statement.operands.length := by
    rw [statement.operands_lower, List.length_map]
  constructor
  · intro h
    exact ⟨h.listed, hmnemonic.symm.trans h.mnemonic, hcount.symm.trans h.count,
      hpresent.mp h.present⟩
  · intro h
    exact ⟨h.listed, hmnemonic.trans h.mnemonic, hcount.trans h.count, hpresent.mpr h.present⟩

private theorem reads_lower_iff : statement.lower.Reads ramSize [] entry arguments ↔
    statement.Reads ramSize [] entry arguments := by
  constructor
  · intro h
    have hmeans := h.means
    rw [statement.operands_lower, List.zip_map_right, List.forall₂_map_left_iff] at hmeans
    simp only [Prod.map, id_eq, argument?_map_toLower] at hmeans
    exact ⟨selects_lower_iff.mp h.selects, hmeans⟩
  · intro h
    refine ⟨selects_lower_iff.mpr h.selects, ?_⟩
    rw [statement.operands_lower, List.zip_map_right, List.forall₂_map_left_iff]
    simp only [Prod.map, id_eq, argument?_map_toLower]
    exact h.means

private theorem fulfils_lower_iff {instruction : Isa.Instruction} :
    Fulfils ramSize [] statement.lower instruction ↔ Fulfils ramSize [] statement instruction := by
  simp only [Fulfils, reads_lower_iff]

end Operands

section Sources

variable {ramSize : Nat} {source other : List Char} {program : Program}

private theorem unlabelled_of_not_mem (h : ':' ∉ source) : Unlabelled source := by
  intro statement hstatement
  have hcolon : ':' ∉ statement.text := fun hmem => h (mem_source_of_mem_text hstatement hmem).1
  rw [Statement.labels, Statement.parts, List.splitOn_eq_singleton hcolon]
  rfl

private theorem Unlabelled.map_toLower (h : Unlabelled source) :
    Unlabelled (source.map Char.toLower) := by
  unfold Unlabelled
  rw [statements_map_toLower, List.forall_mem_map]
  intro statement hstatement
  rw [statement.labels_lower, h statement hstatement, List.map_nil]

private theorem instructionStatements_map_toLower (source : List Char) :
    instructionStatements (source.map Char.toLower) =
      (instructionStatements source).map Statement.lower := by
  have hinstruction : Statement.hasInstruction ∘ Statement.lower = Statement.hasInstruction :=
    funext Statement.hasInstruction_lower
  rw [instructionStatements, statements_map_toLower, List.filter_map, hinstruction,
    ← instructionStatements]

/-- A source without labels can be written in lower-case letters. -/
private theorem assemble_map_toLower (h : Unlabelled source) :
    assemble ramSize (source.map Char.toLower) = .ok program ↔
      assemble ramSize source = .ok program := by
  rw [assemble_eq_ok_iff_fulfils, assemble_eq_ok_iff_fulfils, h.wellLabelled_iff,
    h.map_toLower.wellLabelled_iff, h.labelTable_eq, h.map_toLower.labelTable_eq,
    instructionStatements_map_toLower, List.length_map, List.forall₂_map_left_iff]
  simp only [fulfils_lower_iff]

/-- Sources without labels that differ only in the case of letters assemble to the same program, or
neither of them assembles. -/
theorem assemble_letterCase (ramSize : Nat) {source other : List Char} (hcolon : ':' ∉ source)
    (hcase : source.map Char.toLower = other.map Char.toLower) (program : Program) :
    assemble ramSize source = .ok program ↔ assemble ramSize other = .ok program := by
  have hother : ':' ∉ other := by
    intro hmem
    have hlower : ':' ∈ source.map Char.toLower := by
      rw [hcase]
      exact List.mem_map.mpr ⟨':', hmem, rfl⟩
    obtain ⟨c, hc, hlowered⟩ := List.mem_map.mp hlower
    exact hcolon ((Text.toLower_eq_iff rfl c).mp hlowered ▸ hc)
  rw [← assemble_map_toLower (unlabelled_of_not_mem hcolon), hcase,
    assemble_map_toLower (unlabelled_of_not_mem hother)]

/-- Mnemonics, registers, hexadecimal digits and the marks of a base in either case. -/
theorem assemble_letterCase_marks :
    let source := "LDI E, 0xfE; Store 1B, e # STOP\nHlt".toList
    let other := "ldi e, 0XFe; STORE 1b, E # Stop\nhLT".toList
    let program : Program :=
      ⟨[{ opcode := 0x02, dest := 4, immediate := 0xfe },
        { opcode := 0x04, src := 4, immediate := 1 }, { opcode := 0xff }], [],
        [0xfe0402, 0x14004, 0xff]⟩
    ':' ∉ source ∧ source.map Char.toLower = other.map Char.toLower ∧
      assemble 16 source = .ok program ∧ assemble 16 other = .ok program := by
  intro source other program
  have hcolon : ':' ∉ source := by
    decide
  have hcase : source.map Char.toLower = other.map Char.toLower := by
    decide
  have hassemble : assemble 16 source = .ok program := by
    decide +kernel
  exact ⟨hcolon, hcase, hassemble, (assemble_letterCase 16 hcolon hcase program).mp hassemble⟩

end Sources

end WordMachine.Assembly
