import WordMachine.Isa.Word

/-! Operands: what kind of value one takes and which part of the instruction word holds it. -/
namespace WordMachine.Isa

/-- A part of the instruction word. The pair is eight bits, the high half in the destination
field and the low half in the source field. -/
inductive Field
  | dest | src | immediate | pair
  deriving DecidableEq

/-- What an operand means. An address is an offset in data memory from the data pointer. -/
inductive OperandKind
  | register | address | port | immediate
  deriving DecidableEq

/-- What an operand is for. A free operand is tied to no position and lies in the two register
fields. -/
inductive OperandRole
  | destination | source | target | free
  deriving DecidableEq

structure Operand where
  kind : OperandKind
  role : OperandRole
  name : String
  deriving DecidableEq

namespace Operand

def field (operand : Operand) : Field :=
  match operand.kind, operand.role with
  | .register, .source => .src
  | .register, _ => .dest
  | .port, .free => .pair
  | _, _ => .immediate

/-- The largest number that the operand takes. A register is named and never a number; an address
is bounded by the size of data memory as well. -/
def limit? (operand : Operand) : Option Nat :=
  match operand.kind with
  | .register => none
  | .port => some 0xff
  | .address | .immediate => some 0xffff

end Operand

end WordMachine.Isa
