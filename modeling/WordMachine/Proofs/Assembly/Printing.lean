import WordMachine.Proofs.Assembly.Lexing
import WordMachine.Proofs.Assembly.Literal
import WordMachine.Proofs.Assembly.TwoPass
import WordMachine.Proofs.Isa.Canonical

/-! The text of a canonical instruction reads as the instruction. -/
namespace WordMachine.Isa.Register

/-- The register that four bits name. -/
theorem exists_of_lt {value : Word} (h : value.toNat < 16) : ∃ register : Register,
    ofAddress? value.toUInt8 = some register ∧ UInt16.ofNat register.address = value := by
  have hall : ∀ n < 16, all[n]?.map (fun register => (register.address : Nat)) = some n := by
    decide
  obtain ⟨register, hregister, haddress⟩ := Option.map_eq_some_iff.mp (hall value.toNat h)
  refine ⟨register, ?_, ?_⟩
  · rw [ofAddress?, UInt16.toNat_toUInt8, Nat.mod_eq_of_lt (by omega)]
    exact hregister
  · rw [haddress, UInt16.ofNat_toNat]

end WordMachine.Isa.Register

namespace WordMachine.Assembly

open Isa (Argument Entry Instruction Operand Register)

private theorem isWord_name (register : Register) : IsWord register.name := by
  apply isWord_of_all
  cases register <;> rfl

theorem isWord_mnemonic : ∀ entry ∈ Entry.all, IsWord entry.mnemonic := by
  have hall : ∀ entry ∈ Entry.all,
      (entry.mnemonic.isEmpty || !entry.mnemonic.all Char.isAlphanum) = false := by
    decide +kernel
  exact fun entry hentry => isWord_of_all (hall entry hentry)

private theorem isWord_toDigits {base : Nat} (hbase : 1 < base) (hle : base ≤ 16) (n : Nat) :
    IsWord (Nat.toDigits base n) :=
  ⟨Nat.toDigits_ne_nil, fun _ hc => Text.isAlphanum_of_mem_toDigits hbase hle hc⟩

private theorem isWord_hex (n : Nat) : IsWord ("0x".toList ++ Text.hexDigits 1 n) := by
  have hdigits : IsWord (Nat.toDigits 16 n) := isWord_toDigits (by decide) (by decide) n
  rw [Text.hexDigits_one]
  refine ⟨nofun, fun c hc => ?_⟩
  rcases List.mem_append.mp hc with hprefix | hdigit
  · exact (isWord_of_all rfl : IsWord "0x".toList).2 c hprefix
  · exact hdigits.2 c hdigit

/-- What is a word refers to no label. -/
theorem referredLabel?_of_isWord {text : List Char} (h : IsWord text) :
    referredLabel? text = none := by
  unfold referredLabel?
  split
  next rest => exact absurd List.mem_cons_self (h.not_mem rfl)
  next => rfl

/-- A literal that is a word is a number, where one is wanted. -/
private theorem argument?_of_parse? {operand : Operand} {text : List Char} {value : Nat}
    (hkind : operand.kind ≠ .register) (hword : IsWord text)
    (hparse : Literal.parse? text = some value) (labels : List Label) :
    argument? labels operand text = some (.number value) := by
  rw [argument?, if_neg hkind, referredLabel?_of_isWord hword, hparse]
  rfl

variable {ramSize : Nat} {entry : Entry} {instruction : Instruction} {operand : Operand}

/-- A register field holds the address of a register. -/
private theorem get_lt_of_kind_eq_register (hencodable : instruction.Encodable)
    (hkind : operand.kind = .register) : (instruction.get operand.field).toNat < 16 := by
  rcases Operand.kind_eq_register_iff.mp hkind with hfield | hfield
  · rw [hfield]
    exact (UInt8.toNat_toUInt16 _).trans_lt hencodable.1
  · rw [hfield]
    exact (UInt8.toNat_toUInt16 _).trans_lt hencodable.2

theorem isWord_operandText (hencodable : instruction.Encodable) (operand : Operand) :
    IsWord (instruction.operandText operand) := by
  unfold Instruction.operandText
  dsimp only
  cases hkind : operand.kind with
  | register =>
    obtain ⟨register, hregister, -⟩ :=
      Register.exists_of_lt (get_lt_of_kind_eq_register hencodable hkind)
    dsimp only
    rw [hregister]
    exact isWord_name register
  | address | port => exact isWord_hex _
  | immediate => exact isWord_toDigits (by decide) (by decide) _

/-- The text of an operand stands for what the field of the operand holds. -/
private theorem exists_argument (hencodable : instruction.Encodable) (labels : List Label)
    (hport : operand.kind = .port → (instruction.get operand.field).toNat ≤ 0xff)
    (haddress : operand.kind = .address → (instruction.get operand.field).toNat < ramSize) :
    ∃ argument : Argument,
      argument? labels operand (instruction.operandText operand) = some argument ∧
      argument.Suits ramSize operand ∧ argument.word = instruction.get operand.field := by
  have hword := isWord_operandText hencodable operand
  have hregister (hkind : operand.kind = .register) := get_lt_of_kind_eq_register hencodable hkind
  unfold Instruction.operandText at hword ⊢
  dsimp only at hword ⊢
  generalize instruction.get operand.field = value at hword hregister hport haddress ⊢
  have hlt : value.toNat < 0x10000 := value.toNat_lt
  have hbound : value.toNat < Literal.bound := Nat.lt_trans hlt (by decide)
  have hle : value.toNat ≤ if operand.kind = .port then 0xff else 0xffff := by
    split
    next h => exact hport h
    next => exact Nat.le_of_lt_succ hlt
  have hnumeral {text : List Char} (hnumber : operand.kind ≠ .register) (htext : IsWord text)
      (hparse : Literal.parse? text = some value.toNat) : ∃ argument : Argument,
        argument? labels operand text = some argument ∧ argument.Suits ramSize operand ∧
        argument.word = value := by
    refine ⟨.number value.toNat, ?_, ⟨hnumber, haddress, hle⟩, UInt16.ofNat_toNat⟩
    exact argument?_of_parse? hnumber htext hparse labels
  cases hkind : operand.kind with
  | register =>
    obtain ⟨register, haddress, hsame⟩ := Register.exists_of_lt (hregister hkind)
    dsimp only
    rw [haddress]
    refine ⟨.register register, ?_, hkind, hsame⟩
    rw [argument?, if_pos hkind, Register.ofName?_name]
    rfl
  | address | port =>
    rw [hkind] at hword
    exact hnumeral (by rw [hkind]; exact nofun) hword (Literal.parse?_hexDigits hbound)
  | immediate =>
    rw [hkind] at hword
    exact hnumeral (by rw [hkind]; exact nofun) hword (Literal.parse?_decimalDigits hbound)

theorem text_eq_written (h : Entry.ofOpcode? instruction.opcode = some entry) :
    instruction.text = written entry.mnemonic (entry.operands.map instruction.operandText) := by
  rw [Instruction.text, h]
  simp only [written, List.isEmpty_map]

section Canonical

variable (h : entry.Canonical ramSize instruction) (hencodable : instruction.Encodable)

include h hencodable

private theorem exists_argument_of_canonical (labels : List Label) :
    ∀ operand ∈ entry.operands, IsWord (instruction.operandText operand) ∧
      ∃ argument : Argument,
        argument? labels operand (instruction.operandText operand) = some argument ∧
        argument.Suits ramSize operand ∧ argument.word = instruction.get operand.field :=
  fun operand hoperand => ⟨isWord_operandText hencodable operand,
    exists_argument hencodable labels (h.port_le hencodable hoperand) (h.address operand hoperand)⟩

/-- The text of a canonical instruction is made of words. -/
private theorem isWord_parts : IsWord entry.mnemonic ∧
    ∀ text ∈ entry.operands.map instruction.operandText, IsWord text := by
  constructor
  · exact isWord_mnemonic entry (Entry.ofOpcode?_eq_some.mp h.opcode).1
  · refine List.forall_mem_map.mpr ?_
    intro operand hoperand
    exact (exists_argument_of_canonical h hencodable [] operand hoperand).1

/-- The text of a canonical instruction reads as its entry, with what its fields hold. -/
theorem reads_text (line : Nat) (labels : List Label) : ∃ arguments,
    (Statement.mk line instruction.text).Reads ramSize labels entry arguments ∧
    List.Forall₂ (fun operand argument => argument.word = instruction.get operand.field)
      entry.operands arguments := by
  obtain ⟨hlisted, -⟩ := Entry.ofOpcode?_eq_some.mp h.opcode
  obtain ⟨hmnemonic, hoperands⟩ := isWord_parts h hencodable
  obtain ⟨arguments, harguments⟩ := exists_forall₂_iff.mpr fun operand hoperand =>
    (exists_argument_of_canonical h hencodable labels operand hoperand).2
  have hstatement := operands_written hmnemonic hoperands line
  rw [text_eq_written h.opcode]
  refine ⟨arguments, ⟨⟨hlisted, ?_, ?_, ?_⟩, ?_⟩, harguments.imp fun _ _ hargument => hargument.2.2⟩
  · rw [mnemonic_written hmnemonic hoperands]
    exact (Entry.ofMnemonic?_eq_some.mp (Entry.ofMnemonic?_mnemonic entry hlisted)).2
  · rw [hstatement, List.length_map]
  · rw [hstatement]
    intro text htext
    exact (hoperands text htext).1
  · rw [hstatement, ← List.map_prod_left_eq_zip, List.forall₂_map_left_iff]
    exact harguments.imp fun _ _ hargument => ⟨hargument.1, hargument.2.1⟩

theorem lineFeed_not_mem_text : '\n' ∉ instruction.text := by
  obtain ⟨hmnemonic, hoperands⟩ := isWord_parts h hencodable
  rw [text_eq_written h.opcode]
  exact not_mem_written hmnemonic hoperands rfl (by decide) (by decide)

theorem statementTexts_text : statementTexts instruction.text = [instruction.text] := by
  obtain ⟨hmnemonic, hoperands⟩ := isWord_parts h hencodable
  rw [text_eq_written h.opcode]
  exact statementTexts_written hmnemonic hoperands

variable (line : Nat)

theorem labels_text : (Statement.mk line instruction.text).labels = [] := by
  obtain ⟨hmnemonic, hoperands⟩ := isWord_parts h hencodable
  rw [text_eq_written h.opcode, Statement.labels,
    parts_written hmnemonic hoperands]
  rfl

theorem hasInstruction_text : (Statement.mk line instruction.text).hasInstruction = true := by
  obtain ⟨hmnemonic, hoperands⟩ := isWord_parts h hencodable
  rw [text_eq_written h.opcode, Statement.hasInstruction, body_written hmnemonic hoperands]
  simp [(tidy_written hmnemonic hoperands).ne_nil]

end Canonical

end WordMachine.Assembly
