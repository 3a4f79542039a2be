import Mathlib.Data.List.Forall2
import WordMachine.Assembly.Program
import WordMachine.Proofs.Isa.Codec
import WordMachine.Proofs.Isa.Command

/-! Assembly in two passes, as one would describe it: the first counts instructions and so finds
every label, and the second reads each statement by itself, with the table of all labels. -/
namespace WordMachine.Isa.Argument

def word : Argument → Word
  | .register rd => .ofNat rd.address
  | .number value => .ofNat value

/-- Numbers are bounded: ports by a byte, all else by a word, and addresses by data memory too. -/
def Suits (ramSize : Nat) (operand : Operand) : Argument → Prop
  | .register _ => operand.kind = .register
  | .number value =>
    operand.kind ≠ .register ∧ (operand.kind = .address → value < ramSize) ∧
      value ≤ if operand.kind = .port then 0xff else 0xffff

variable {ramSize : Nat} {operand : Operand} {argument : Argument}

/-- What is stored in a register field is the address of a register. -/
theorem word_lt_of_suits (h : argument.Suits ramSize operand)
    (hfield : operand.field = .dest ∨ operand.field = .src) : argument.word.toNat < 16 := by
  cases argument with
  | register rd =>
    have haddress : (rd.address : Nat) < 16 := rd.address.isLt
    rw [word, UInt16.toNat_ofNat']
    omega
  | number value => exact absurd (Operand.kind_eq_register_iff.mpr hfield) h.1

theorem word_le_capacity (h : argument.Suits ramSize operand) :
    argument.word.toNat ≤ operand.field.capacity := by
  have hword : argument.word.toNat < 0x10000 := argument.word.toNat_lt
  cases hfield : operand.field with
  | immediate => exact Nat.le_of_lt_succ hword
  | dest => exact Nat.le_of_lt (Nat.lt_of_lt_of_le (word_lt_of_suits h (.inl hfield)) (by decide))
  | src => exact Nat.le_of_lt (Nat.lt_of_lt_of_le (word_lt_of_suits h (.inr hfield)) (by decide))
  | pair =>
    have hport := Operand.kind_of_field_eq_pair hfield
    cases argument with
    | register rd =>
      have hkind : operand.kind = .register := h
      rw [hport] at hkind
      cases hkind
    | number value =>
      obtain ⟨-, -, hle⟩ := h
      rw [if_pos hport] at hle
      rw [word, UInt16.toNat_ofNat', Nat.mod_eq_of_lt (by omega)]
      exact hle

end WordMachine.Isa.Argument

namespace WordMachine.Assembly

open Isa (Argument Entry Instruction Operand)

/-- A result for each value is a list of results. -/
theorem exists_forall₂_iff {α β : Type} {related : α → β → Prop} {values : List α} :
    (∃ results, List.Forall₂ related values results) ↔
      ∀ value ∈ values, ∃ result, related value result := by
  induction values with
  | nil => exact ⟨fun _ => nofun, fun _ => ⟨[], .nil⟩⟩
  | cons value values ih =>
    rw [List.forall_mem_cons, ← ih]
    constructor
    · rintro ⟨_, h⟩
      obtain ⟨result, results, hhead, htail, -⟩ := List.forall₂_cons_left_iff.mp h
      exact ⟨⟨result, hhead⟩, results, htail⟩
    · rintro ⟨⟨result, hhead⟩, results, htail⟩
      exact ⟨result :: results, .cons hhead htail⟩

def Statement.hasInstruction (statement : Statement) : Bool :=
  !statement.body.isEmpty

/-- The statements that stand for an instruction, in reading order. -/
def instructionStatements (source : List Char) : List Statement :=
  (statements source).filter Statement.hasInstruction

/-- Every label with the number of instruction statements in front of its declaration. -/
def labelTable (source : List Char) : List Label :=
  (statements source).zipIdx.flatMap fun (statement, position) =>
    let before := (statements source).take position
    statement.labels.map fun name => ⟨name, before.countP Statement.hasInstruction⟩

def index? (labels : List Label) (name : List Char) : Option Nat :=
  (labels.find? fun label => label.name == name).map Label.index

/-- What an operand text means where the labels are known. -/
def argument? (labels : List Label) (operand : Operand) (text : List Char) : Option Argument :=
  if operand.kind = .register then
    (Isa.Register.ofName? text).map .register
  else
    match referredLabel? text with
    | some name => (index? labels name).map .number
    | none => (Literal.parse? text).map .number

namespace Statement

structure Selects (statement : Statement) (entry : Entry) : Prop where
  listed : entry ∈ Entry.all
  mnemonic : statement.mnemonic.map Char.toLower = entry.mnemonic
  count : statement.operands.length = entry.operands.length
  present : ∀ text ∈ statement.operands, text ≠ []

theorem Selects.ofMnemonic?_eq {statement : Statement} {entry : Entry}
    (h : statement.Selects entry) : Entry.ofMnemonic? statement.mnemonic = some entry :=
  Entry.ofMnemonic?_eq_some.mpr ⟨h.listed, h.mnemonic⟩

/-- A statement selects one entry. -/
theorem Selects.unique {statement : Statement} {entry other : Entry} (h : statement.Selects entry)
    (hother : statement.Selects other) : entry = other :=
  Option.some.inj (h.ofMnemonic?_eq.symm.trans hother.ofMnemonic?_eq)

/-- Whether a statement reads as an instruction with arguments that suit its operands. -/
structure Reads (ramSize : Nat) (labels : List Label) (statement : Statement) (entry : Entry)
    (arguments : List Argument) : Prop where
  selects : statement.Selects entry
  means : List.Forall₂
    (fun (operand, text) argument => argument? labels operand text = some argument ∧
      argument.Suits ramSize operand)
    (entry.operands.zip statement.operands) arguments

variable {ramSize : Nat} {labels : List Label} {statement : Statement} {entry : Entry}
  {arguments : List Argument}

theorem Reads.suits (h : statement.Reads ramSize labels entry arguments) :
    List.Forall₂ (fun operand argument => argument.Suits ramSize operand)
      entry.operands arguments := by
  have hmap : (entry.operands.zip statement.operands).map Prod.fst = entry.operands :=
    List.map_fst_zip (Nat.le_of_eq h.selects.count.symm)
  rw [← hmap, List.forall₂_map_left_iff]
  exact h.means.imp fun _ _ hmeans => hmeans.2

/-- The word of each operand is that of an argument that suits it. -/
private theorem Reads.of_mem_zip (h : statement.Reads ramSize labels entry arguments)
    {value : Operand × Word} (hvalue : value ∈ entry.operands.zip (arguments.map Argument.word)) :
    ∃ argument : Argument, argument.Suits ramSize value.1 ∧ value.2 = argument.word := by
  have hwords : List.Forall₂
      (fun operand (word : Word) => ∃ argument : Argument, argument.Suits ramSize operand ∧
        word = argument.word) entry.operands (arguments.map Argument.word) :=
    List.forall₂_map_right_iff.mpr (h.suits.imp fun _ argument hsuits => ⟨argument, hsuits, rfl⟩)
  exact (List.forall₂_iff_zip.mp hwords).2 hvalue

/-- What a statement reads as has a word. -/
theorem Reads.encodable (h : statement.Reads ramSize labels entry arguments) :
    (entry.build (arguments.map Argument.word)).Encodable := by
  have hopcode : Instruction.Encodable { opcode := entry.opcode } :=
    ⟨Nat.zero_lt_succ 15, Nat.zero_lt_succ 15⟩
  apply Instruction.encodable_fill hopcode
  intro value hvalue hfield
  obtain ⟨argument, hsuits, hword⟩ := h.of_mem_zip hvalue
  rw [hword]
  exact Argument.word_lt_of_suits hsuits hfield

end Statement

/-- Whether the first pass finds nothing wrong: labels are names that are declared once, and there
is an index for each instruction and each label. -/
structure WellLabelled (source : List Char) : Prop where
  identifiers : ∀ statement ∈ statements source, ∀ name ∈ statement.labels, isLabelName name
  distinct : ((statements source).flatMap Statement.labels).Nodup
  short : (instructionStatements source).length ≤ Isa.maxProgramLength
  indexed : ∀ label ∈ labelTable source, label.index ≠ Isa.maxProgramLength

end WordMachine.Assembly
