import WordMachine.Assembly.Error
import WordMachine.Assembly.Literal
import WordMachine.Isa.Register

/-! Evaluation of operand texts against the operands that an instruction takes. -/
namespace WordMachine.Assembly

open Isa (Entry Operand)

/-- A number as the word of an operand. An address is compared with the size of data memory before
its largest value. -/
def fit (ramSize : Nat) (operand : Operand) (value : Nat) : Except Cause Word :=
  if operand.kind = .address ∧ ramSize ≤ value then
    .error (.outsideRam value ramSize)
  else
    match operand.limit? with
    | none => .ok (.ofNat value)
    | some limit => if limit < value then .error (.tooLarge value limit) else .ok (.ofNat value)

def evaluate (ramSize : Nat) (operand : Operand) (text : List Char) : Except Cause Word :=
  if operand.kind = .register then
    match Isa.Register.ofName? text with
    | some register => .ok (.ofNat register.address)
    | none => .error (.unknownRegister text)
  else
    match Literal.parse? text with
    | some value => fit ramSize operand value
    | none => .error (.badLiteral text)

/-- Checks the number of operand texts. Too few is reported before too many, and an empty text is
none. -/
def checkArity (entry : Entry) (texts : List (List Char)) : Except Cause Unit :=
  let expected := entry.operands.length
  let present := texts.countP (!·.isEmpty)
  if present < expected then
    .error (.tooFewOperands entry.mnemonic expected present)
  else if expected < texts.length then
    .error (.tooManyOperands entry.mnemonic expected texts.length)
  else
    .ok ()

end WordMachine.Assembly
