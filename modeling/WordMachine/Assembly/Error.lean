import WordMachine.Isa.Instruction

/-! Why a source does not assemble, and on which line. -/
namespace WordMachine.Assembly

inductive Cause
  | labelRedefined (name : List Char)
  | labelUndefined (name : List Char)
  | badLabelName (name : List Char)
  | unknownInstruction (text : List Char)
  | tooFewOperands (mnemonic : List Char) (expected found : Nat)
  | tooManyOperands (mnemonic : List Char) (expected found : Nat)
  | unknownRegister (text : List Char)
  | badLiteral (text : List Char)
  | tooLarge (value max : Nat)
  | outsideRam (address ramSize : Nat)
  | tooLong (limit : Nat)
  | unencodable (error : Isa.EncodeError)
  deriving DecidableEq

def Cause.message : Cause → String
  | labelRedefined name => s!"Label \"{String.ofList name}\" is already defined"
  | labelUndefined name => s!"Label \"{String.ofList name}\" is never defined"
  | badLabelName name => s!"\"{String.ofList name}\" isn't a valid label name"
  | unknownInstruction text => s!"Unknown instruction \"{String.ofList text}\""
  | tooFewOperands mnemonic expected found =>
    s!"{String.ofList mnemonic} takes {expected} operand(s), only {found} given"
  | tooManyOperands mnemonic expected found =>
    s!"{String.ofList mnemonic} takes {expected} operand(s), {found} given"
  | unknownRegister text => s!"Unknown register \"{String.ofList text}\""
  | badLiteral text => s!"Malformed literal \"{String.ofList text}\""
  | tooLarge value max => s!"Value {value} is out of range (max {max})"
  | outsideRam address ramSize =>
    s!"Address 0x{Text.hex 1 address} is outside of RAM (size 0x{Text.hex 1 ramSize})"
  | tooLong limit => s!"Program doesn't fit into {limit} instructions"
  | unencodable error => error.message

structure Error where
  line : Nat
  cause : Cause
  deriving DecidableEq

def Error.message (error : Error) : String :=
  s!"Line {error.line}: {error.cause.message}"

end WordMachine.Assembly
