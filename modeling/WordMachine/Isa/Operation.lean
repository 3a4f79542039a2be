/-! What an instruction does, and the opcode by which program memory names it. -/
namespace WordMachine.Isa

inductive Condition
  | always | equal | notEqual | greater | greaterEqual | less | lessEqual | zero | notZero
  deriving DecidableEq

inductive Mode
  | register | immediate
  deriving DecidableEq

/-- The operations of the machine. The `Ram` forms work on a word of data memory and the
`Immediate` forms on the immediate; where both are alike in all else, a mode tells them apart. -/
inductive Operation
  | nop | move | halt
  | loadImmediate | loadRam | storeRam
  | push | pushImmediate | pushRam | pop | popRam
  | add (mode : Mode) | subtract (mode : Mode) | compare | and | or | xor | shiftLeft | shiftRight
  | branch (condition : Condition) (mode : Mode) | call (mode : Mode) | ret
  | output | outputImmediate | outputRam | input | inputRam | drawPixel
  deriving DecidableEq

namespace Operation

def opcode : Operation → UInt8
  | nop => 0x00 | move => 0x01 | halt => 0xff
  | loadImmediate => 0x02 | loadRam => 0x03 | storeRam => 0x04
  | push => 0x05 | pushImmediate => 0x06 | pushRam => 0x07 | pop => 0x08 | popRam => 0x09
  | add .register => 0x0a | add .immediate => 0x0b
  | subtract .register => 0x0c | subtract .immediate => 0x0d
  | compare => 0x0e | and => 0x0f | or => 0x10 | xor => 0x11
  | shiftLeft => 0x12 | shiftRight => 0x13
  | branch .always .register => 0x14 | branch .always .immediate => 0x15
  | branch .equal .register => 0x16 | branch .notEqual .register => 0x17
  | branch .greater .register => 0x18 | branch .greaterEqual .register => 0x19
  | branch .less .register => 0x1a | branch .lessEqual .register => 0x1b
  | branch .equal .immediate => 0x1c | branch .notEqual .immediate => 0x1d
  | branch .greater .immediate => 0x1e | branch .greaterEqual .immediate => 0x1f
  | branch .less .immediate => 0x20 | branch .lessEqual .immediate => 0x21
  | call .register => 0x22 | call .immediate => 0x23 | ret => 0x24
  | output => 0x25 | outputImmediate => 0x26 | outputRam => 0x27
  | input => 0x28 | inputRam => 0x29
  | branch .zero .register => 0x2a | branch .notZero .register => 0x2b
  | branch .zero .immediate => 0x2c | branch .notZero .immediate => 0x2d
  | drawPixel => 0x2e

/-- The condition of a jump or a branch. A call is neither. -/
def condition? : Operation → Option Condition
  | branch condition _ => some condition
  | _ => none

def jumpsToImmediate : Operation → Bool
  | branch _ .immediate | call .immediate => true
  | _ => false

end Operation

end WordMachine.Isa
