import WordMachine.Proofs.Assembly.Meaning
import WordMachine.Proofs.Assembly.Printing
import WordMachine.Proofs.Isa.Listing

/-! Assembly undoes disassembly exactly where all words are canonical, as they are in every
program. -/
namespace WordMachine.Assembly

open Isa (Argument Canonical Entry Instruction Operand)

variable {ramSize : Nat} {labels : List Label} {statement : Statement} {entry : Entry}

/-- Each operand of a statement that reads as an instruction is stored. -/
private theorem exists_get_of_reads {arguments : List Argument}
    (h : statement.Reads ramSize labels entry arguments) {operand : Operand}
    (hoperand : operand ∈ entry.operands) : ∃ argument : Argument,
      (operand, argument) ∈ entry.operands.zip arguments ∧
      (entry.build (arguments.map Argument.word)).get operand.field = argument.word := by
  have hfst : (entry.operands.zip arguments).map Prod.fst = entry.operands :=
    List.map_fst_zip (Nat.le_of_eq h.suits.length_eq)
  rw [← hfst] at hoperand
  obtain ⟨⟨_, argument⟩, hmem, rfl⟩ := List.mem_map.mp hoperand
  exact ⟨argument, hmem, get_build_of_reads h hmem⟩

/-- What a statement reads as is canonical. -/
private theorem canonical_of_reads {arguments : List Argument}
    (h : statement.Reads ramSize labels entry arguments) :
    entry.Canonical ramSize (entry.build (arguments.map Argument.word)) where
  opcode := by
    rw [Entry.build, Instruction.opcode_fill]
    exact Entry.ofOpcode?_opcode entry h.selects.listed
  vacant := by
    intro field hfield hvacant
    rw [Entry.build, Instruction.get_fill_of_apart]
    · cases field with
      | pair => exact absurd rfl hfield
      | dest | src | immediate => rfl
    · intro value hvalue
      exact hvacant value.1 (List.of_mem_zip hvalue).1
  port := by
    intro operand hoperand hport _
    obtain ⟨argument, hmem, hget⟩ := exists_get_of_reads h hoperand
    have hsuits : argument.Suits ramSize operand := (List.forall₂_iff_zip.mp h.suits).2 hmem
    rw [hget]
    cases argument with
    | register rd =>
      rw [Argument.Suits, hport] at hsuits
      cases hsuits
    | number value =>
      obtain ⟨-, -, hle⟩ := hsuits
      rw [if_pos hport] at hle
      exact (UInt16.toNat_ofNat'.trans_le (Nat.mod_le value _)).trans hle
  address := by
    intro operand hoperand haddress
    obtain ⟨argument, hmem, hget⟩ := exists_get_of_reads h hoperand
    have hsuits : argument.Suits ramSize operand := (List.forall₂_iff_zip.mp h.suits).2 hmem
    rw [hget]
    cases argument with
    | register rd =>
      rw [Argument.Suits, haddress] at hsuits
      cases hsuits
    | number value =>
      obtain ⟨-, hlt, -⟩ := hsuits
      exact (UInt16.toNat_ofNat'.trans_le (Nat.mod_le value _)).trans_lt (hlt haddress)

theorem canonical_of_assemble {source : List Char} {program : Program}
    (h : assemble ramSize source = .ok program) :
    ∀ word ∈ program.words, Canonical ramSize word := by
  intro word hword
  obtain ⟨-, -, hwords⟩ := fulfils_of_assemble h
  obtain ⟨index, hindex, hget⟩ := List.mem_iff_getElem.mp hword
  have hsize : index < program.size := by
    rwa [Program.size, hwords.length_eq]
  obtain ⟨statement, instruction, found, -, hfound, ⟨entry, arguments, hreads, rfl⟩, hencode⟩ :=
    exists_statement_of_assemble h hsize
  rw [List.getElem?_eq_getElem hindex, hget, Option.some.injEq] at hfound
  subst hfound
  refine ⟨entry, ?_⟩
  rw [Instruction.decode_of_encode hencode]
  exact canonical_of_reads hreads

section Text

variable {instruction : Instruction} (h : entry.Canonical ramSize instruction)
  (hencodable : instruction.Encodable)

include h hencodable

/-- The text of a canonical instruction stands for it, whatever labels there are. -/
private theorem fulfils_text (line : Nat) (labels : List Label) :
    Fulfils ramSize labels ⟨line, instruction.text⟩ instruction := by
  obtain ⟨arguments, hreads, harguments⟩ := reads_text h hencodable line labels
  refine ⟨entry, arguments, hreads, ?_⟩
  apply h.eq (canonical_of_reads hreads) hencodable hreads.encodable
  intro operand hoperand
  obtain ⟨argument, hmem, hget⟩ := exists_get_of_reads hreads hoperand
  rw [hget]
  exact ((List.forall₂_iff_zip.mp harguments).2 hmem).symm

end Text

def listed (words : List CodeWord) : List Char :=
  Isa.Listing.source (Isa.Listing.text (Isa.Image.bytes words))

section Listing

variable {words : List CodeWord} (h : ∀ word ∈ words, Canonical ramSize word)

include h

/-- A listing is one statement a word. -/
private theorem statements_listing :
    statements (listed words) =
      (words.zipIdx 1).map fun (word, line) => ⟨line, (Instruction.decode word).text⟩ := by
  have hline : ∀ word ∈ words, '\n' ∉ (Instruction.decode word).text := by
    intro word hword
    obtain ⟨entry, hentry⟩ := h word hword
    exact lineFeed_not_mem_text hentry (Instruction.decode_encodable word)
  have hstatement : ∀ word ∈ words, statementTexts (Instruction.decode word).text =
      [(Instruction.decode word).text] := by
    intro word hword
    obtain ⟨entry, hentry⟩ := h word hword
    exact statementTexts_text hentry (Instruction.decode_encodable word)
  rw [listed, Isa.Listing.source_text hline, statements_lines (List.forall_mem_map.mpr hline)
    (List.forall_mem_map.mpr hstatement), List.zipIdx_map, List.map_map]
  rfl

private theorem forall_statements_listing {property : Statement → Prop}
    (hproperty : ∀ word ∈ words, ∀ line, property ⟨line, (Instruction.decode word).text⟩) :
    ∀ statement ∈ statements (listed words), property statement := by
  rw [statements_listing h]
  refine List.forall_mem_map.mpr ?_
  rintro ⟨word, line⟩ hmem
  exact hproperty word (List.fst_mem_of_mem_zipIdx hmem) line

private theorem labels_listing : Unlabelled (listed words) := by
  refine forall_statements_listing h ?_
  intro word hword line
  obtain ⟨entry, hentry⟩ := h word hword
  exact labels_text hentry (Instruction.decode_encodable word) line

private theorem instructionStatements_listing :
    instructionStatements (listed words) = statements (listed words) := by
  refine List.filter_eq_self.mpr (forall_statements_listing h ?_)
  intro word hword line
  obtain ⟨entry, hentry⟩ := h word hword
  exact hasInstruction_text hentry (Instruction.decode_encodable word) line

private theorem fulfils_listing (labels : List Label) :
    List.Forall₂ (Fulfils ramSize labels) (instructionStatements (listed words))
      (words.map .decode) := by
  have hwords : words.map Instruction.decode =
      ((words.zipIdx 1).map Prod.fst).map Instruction.decode := by
    rw [List.zipIdx_map_fst]
  rw [instructionStatements_listing h, statements_listing h, hwords, List.map_map,
    List.forall₂_map_left_iff, List.forall₂_map_right_iff, List.forall₂_same]
  rintro ⟨word, line⟩ hmem
  obtain ⟨entry, hentry⟩ := h word (List.fst_mem_of_mem_zipIdx hmem)
  exact fulfils_text hentry (Instruction.decode_encodable word) line labels

/-- The listing of canonical words assembles to them. -/
private theorem assemble_listed (hshort : words.length ≤ Isa.maxProgramLength) :
    ∃ program, assemble ramSize (listed words) = .ok program ∧ program.words = words := by
  have hlength : (instructionStatements (listed words)).length ≤ Isa.maxProgramLength := by
    rw [instructionStatements_listing h, statements_listing h, List.length_map,
      List.length_zipIdx]
    exact hshort
  have hencode : List.Forall₂ (fun instruction word => instruction.encode = .ok word)
      (words.map Instruction.decode) words :=
    List.forall₂_map_left_iff.mpr (List.forall₂_same.mpr fun word _ =>
      Instruction.encode_decode word)
  have hlabelled := (labels_listing h).wellLabelled_iff.mpr hlength
  have hfulfils := fulfils_listing h (labelTable (listed words))
  refine ⟨⟨words.map .decode, labelTable (listed words), words⟩, ?_, rfl⟩
  rw [assemble_eq_ok_iff_fulfils]
  dsimp only
  exact ⟨hlabelled, rfl, hfulfils, hencode⟩

end Listing

/-- Assembly undoes disassembly exactly where all words are canonical. All words of a program are,
so that assembly, disassembly and assembly again give the same words. -/
theorem assemble_listing (ramSize : Nat) :
    (∀ words : List CodeWord, words.length ≤ Isa.maxProgramLength →
      ((∃ program,
          assemble ramSize (Isa.Listing.source (Isa.Listing.text (Isa.Image.bytes words))) =
            .ok program ∧ program.words = words) ↔
        ∀ word ∈ words, Canonical ramSize word)) ∧
    ∀ source program, assemble ramSize source = .ok program →
      (∀ word ∈ program.words, Canonical ramSize word) ∧
      ∃ again, assemble ramSize (Isa.Listing.source (Isa.Listing.text program.image)) =
        .ok again ∧ again.words = program.words := by
  constructor
  · intro words hshort
    constructor
    · rintro ⟨program, hprogram, rfl⟩
      exact canonical_of_assemble hprogram
    · intro hcanonical
      exact assemble_listed hcanonical hshort
  · intro source program hprogram
    have hcanonical := canonical_of_assemble hprogram
    obtain ⟨hlabelled, -⟩ := (exists_assemble_iff ramSize source).mp ⟨program, hprogram⟩
    obtain ⟨-, hfulfils, hwords⟩ := fulfils_of_assemble hprogram
    have hshort : program.words.length ≤ Isa.maxProgramLength := by
      rw [← hwords.length_eq, ← hfulfils.length_eq]
      exact hlabelled.short
    exact ⟨hcanonical, assemble_listed hcanonical hshort⟩

/-- A label and a binary literal are printed as plain numbers, and the words stay. -/
theorem assemble_listing_label :
    let source := "ldi a, 0b11111; x: out 1, a; jmpi [x]".toList
    let program : Program :=
      ⟨[{ opcode := 0x02, immediate := 31 }, { opcode := 0x25, immediate := 1 },
        { opcode := 0x15, immediate := 1 }], [⟨"x".toList, 1⟩], [0x1f0002, 0x10025, 0x10015]⟩
    assemble 8 source = .ok program ∧ (∀ word ∈ program.words, Canonical 8 word) ∧
      ∃ again, assemble 8 (Isa.Listing.source (Isa.Listing.text (Isa.Image.bytes program.words))) =
        .ok again ∧ again.words = program.words := by
  intro source program
  have hassemble : assemble 8 source = .ok program := by
    decide +kernel
  obtain ⟨hcanonical, -⟩ := (assemble_listing 8).2 source program hassemble
  have hshort : program.words.length ≤ Isa.maxProgramLength := by
    decide
  exact ⟨hassemble, hcanonical, ((assemble_listing 8).1 program.words hshort).mpr hcanonical⟩

end WordMachine.Assembly
