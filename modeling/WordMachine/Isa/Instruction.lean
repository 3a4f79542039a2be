import WordMachine.Isa.InstructionSet
import WordMachine.Isa.Register

/-! Instructions and the codec between them and program words. From the low end a word holds the
opcode in eight bits, the destination in four, the source in four and the immediate in sixteen. -/
namespace WordMachine.Isa

/-- The raw fields of a program word. A register field can hold more than the four bits that the
word has for it, and then it has no encoding. -/
structure Instruction where
  opcode : UInt8
  dest : UInt8 := 0
  src : UInt8 := 0
  immediate : Word := 0
  deriving DecidableEq

inductive EncodeError
  | registerTooWide (address : UInt8)
  deriving DecidableEq

def EncodeError.message : EncodeError → String
  | registerTooWide address => s!"Register address {address.toNat} doesn't fit in 4 bits"

inductive DecodeError
  | unknownOpcode (opcode : UInt8)
  deriving DecidableEq

def DecodeError.message : DecodeError → String
  | unknownOpcode opcode => s!"Unrecognized opcode 0x{Text.hex 2 opcode.toNat}"

namespace Instruction

def entry (instruction : Instruction) : Except DecodeError Entry :=
  match Entry.ofOpcode? instruction.opcode with
  | some entry => .ok entry
  | none => .error (.unknownOpcode instruction.opcode)

def get (instruction : Instruction) : Field → Word
  | .dest => instruction.dest.toUInt16
  | .src => instruction.src.toUInt16
  | .immediate => instruction.immediate
  | .pair => (instruction.dest.toUInt16 <<< 4) ||| instruction.src.toUInt16

/-- Stores a value in a field: in a register field its low eight bits, in the pair its low eight
bits split in halves. -/
def set (instruction : Instruction) (field : Field) (value : Word) : Instruction :=
  match field with
  | .dest => { instruction with dest := value.toUInt8 }
  | .src => { instruction with src := value.toUInt8 }
  | .immediate => { instruction with immediate := value }
  | .pair =>
    { instruction with
      dest := .ofNat (value.toNat / 16 % 16)
      src := .ofNat (value.toNat % 16) }

/-- The program word of an instruction. The destination is checked before the source. -/
def encode (instruction : Instruction) : Except EncodeError CodeWord :=
  if 16 ≤ instruction.dest.toNat then
    .error (.registerTooWide instruction.dest)
  else if 16 ≤ instruction.src.toNat then
    .error (.registerTooWide instruction.src)
  else
    .ok (.ofNat (instruction.opcode.toNat + 0x100 * instruction.dest.toNat
      + 0x1000 * instruction.src.toNat + 0x10000 * instruction.immediate.toNat))

/-- The instruction of a program word. Every word has one, an unknown opcode is kept. -/
def decode (word : CodeWord) : Instruction :=
  { opcode := .ofNat (word.toNat % 0x100)
    dest := .ofNat (word.toNat / 0x100 % 0x10)
    src := .ofNat (word.toNat / 0x1000 % 0x10)
    immediate := .ofNat (word.toNat / 0x10000) }

def operandText (instruction : Instruction) (operand : Operand) : List Char :=
  let value := instruction.get operand.field
  match operand.kind with
  | .register =>
    match Register.ofAddress? value.toUInt8 with
    | some register => register.name
    | none => "<r".toList ++ Text.decimalDigits value.toNat ++ ">".toList
  | .address | .port => "0x".toList ++ Text.hexDigits 1 value.toNat
  | .immediate => Text.decimalDigits value.toNat

def text (instruction : Instruction) : List Char :=
  match Entry.ofOpcode? instruction.opcode with
  | none => "<unknown opcode 0x".toList ++ Text.hexDigits 2 instruction.opcode.toNat ++ ">".toList
  | some entry =>
    if entry.operands.isEmpty then
      entry.mnemonic
    else
      entry.mnemonic ++ ' ' :: ", ".toList.intercalate (entry.operands.map instruction.operandText)

end Instruction

end WordMachine.Isa
