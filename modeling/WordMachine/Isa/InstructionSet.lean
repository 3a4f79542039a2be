import WordMachine.Isa.Operation
import WordMachine.Isa.Operand
import WordMachine.Text.Numeral

/-! The instruction set: for each operation the mnemonic, the operands in the order of writing and
a line of documentation. Assembler, machine and disassembler all read this one table. -/
namespace WordMachine.Isa

structure Entry where
  operation : Operation
  opcode : UInt8
  mnemonic : List Char
  title : String
  description : String
  operands : List Operand
  deriving DecidableEq

namespace Entry

private def rd : Operand := ⟨.register, .destination, "rd"⟩

private def rs : Operand := ⟨.register, .source, "rs"⟩

private def rt : Operand := ⟨.register, .target, "rt"⟩

private def value : Operand := ⟨.immediate, .source, "imm"⟩

private def target : Operand := ⟨.immediate, .target, "target"⟩

private def fromAddress : Operand := ⟨.address, .source, "addr"⟩

private def toAddress : Operand := ⟨.address, .destination, "addr"⟩

private def fromPort : Operand := ⟨.port, .source, "port"⟩

private def toPort : Operand := ⟨.port, .destination, "port"⟩

private def packedPort : Operand := ⟨.port, .free, "port"⟩

private def color : Operand := ⟨.immediate, .free, "color"⟩

private def row (operation : Operation) (mnemonic : List Char) (title description : String)
    (operands : List Operand) : Entry :=
  ⟨operation, operation.opcode, mnemonic, title, description, operands⟩

def all : List Entry :=
  [row .nop "nop".toList
     "No operation" "" [],
   row .move "mov".toList
     "Move" "Rd = Rs" [rd, rs],
   row .halt "hlt".toList
     "Halt" "Set HLT and stop after this cycle" [],
   row .loadImmediate "ldi".toList
     "Load immediate" "Rd = I" [rd, value],
   row .loadRam "ldm".toList
     "Load RAM" "Rd = RAM[DP + addr]" [rd, fromAddress],
   row .storeRam "store".toList
     "Store RAM" "RAM[DP + addr] = Rs" [toAddress, rs],
   row .push "push".toList
     "Push register" "Push Rs on stack" [rs],
   row .pushImmediate "pushi".toList
     "Push immediate" "Push I on stack" [value],
   row .pushRam "pushm".toList
     "Push RAM" "Push RAM[DP + addr] on stack" [fromAddress],
   row .pop "pop".toList
     "Pop register" "Pop stack into Rd" [rd],
   row .popRam "popm".toList
     "Pop RAM" "Pop stack into RAM[DP + addr]" [toAddress],
   row (.add .register) "add".toList
     "Add registers" "Rd = Rd + Rs" [rd, rs],
   row (.add .immediate) "addi".toList
     "Add immediate" "Rd = Rd + I" [rd, value],
   row (.subtract .register) "sub".toList
     "Subtract registers" "Rd = Rd - Rs" [rd, rs],
   row (.subtract .immediate) "subi".toList
     "Subtract immediate" "Rd = Rd - I" [rd, value],
   row .compare "cmp".toList
     "Compare registers" "Set LT/GT/EQ from Rs against Rd" [rd, rs],
   row .and "and".toList
     "AND registers" "Rd = Rd & Rs" [rd, rs],
   row .or "or".toList
     "OR registers" "Rd = Rd | Rs" [rd, rs],
   row .xor "xor".toList
     "XOR registers" "Rd = Rd ^ Rs" [rd, rs],
   row .shiftLeft "shl".toList
     "Shift register left" "Rt = Rt << 1" [rt],
   row .shiftRight "shr".toList
     "Shift register right" "Rt = Rt >> 1" [rt],
   row (.branch .always .register) "jmp".toList
     "Jump" "Jump to address in register" [rt],
   row (.branch .always .immediate) "jmpi".toList
     "Jump immediate" "Jump to immediate address" [target],
   row (.branch .equal .register) "breq".toList
     "Branch if ==" "Branch to Rt if EQ" [rt],
   row (.branch .notEqual .register) "brne".toList
     "Branch if !=" "Branch to Rt if not EQ" [rt],
   row (.branch .greater .register) "brgt".toList
     "Branch if >" "Branch to Rt if GT" [rt],
   row (.branch .greaterEqual .register) "brge".toList
     "Branch if >=" "Branch to Rt if GT or EQ" [rt],
   row (.branch .less .register) "brlt".toList
     "Branch if <" "Branch to Rt if LT" [rt],
   row (.branch .lessEqual .register) "brle".toList
     "Branch if <=" "Branch to Rt if LT or EQ" [rt],
   row (.branch .equal .immediate) "breqi".toList
     "Branch immediate if ==" "Branch to I if EQ" [target],
   row (.branch .notEqual .immediate) "brnei".toList
     "Branch immediate if !=" "Branch to I if not EQ" [target],
   row (.branch .greater .immediate) "brgti".toList
     "Branch immediate if >" "Branch to I if GT" [target],
   row (.branch .greaterEqual .immediate) "brgei".toList
     "Branch immediate if >=" "Branch to I if GT or EQ" [target],
   row (.branch .less .immediate) "brlti".toList
     "Branch immediate if <" "Branch to I if LT" [target],
   row (.branch .lessEqual .immediate) "brlei".toList
     "Branch immediate if <=" "Branch to I if LT or EQ" [target],
   row (.call .register) "call".toList
     "Call" "Push return address, jump to Rt" [rt],
   row (.call .immediate) "calli".toList
     "Call immediate" "Push return address, jump to I" [target],
   row .ret "ret".toList
     "Return" "Pop return address and jump to it" [],
   row (.branch .zero .register) "brz".toList
     "Branch if zero" "Branch to Rt if ZERO" [rt],
   row (.branch .notZero .register) "brnz".toList
     "Branch if not zero" "Branch to Rt if not ZERO" [rt],
   row (.branch .zero .immediate) "brzi".toList
     "Branch immediate if zero" "Branch to I if ZERO" [target],
   row (.branch .notZero .immediate) "brnzi".toList
     "Branch immediate if not zero" "Branch to I if not ZERO" [target],
   row .output "out".toList
     "Out" "Write Rs to port" [toPort, rs],
   row .outputImmediate "outi".toList
     "Out immediate" "Write I to port" [packedPort, value],
   row .outputRam "outm".toList
     "Out RAM" "Write RAM[DP + addr] to port" [packedPort, fromAddress],
   row .input "in".toList
     "In" "Read port into Rd" [rd, fromPort],
   row .inputRam "inm".toList
     "In RAM" "Read port into RAM[DP + addr]" [toAddress, packedPort],
   row .drawPixel "spx".toList
     "Set pixel" "Set pixel (Rd, Rs) to color" [rd, rs, color]]

def ofOpcode? (opcode : UInt8) : Option Entry :=
  all.find? fun entry => entry.opcode == opcode

def ofMnemonic? (mnemonic : List Char) : Option Entry :=
  all.find? fun entry => entry.mnemonic == mnemonic.map Char.toLower

def line (entry : Entry) : String :=
  let names := ", ".intercalate (entry.operands.map Operand.name)
  "    0x" ++ Text.hex 2 entry.opcode.toNat ++ "  "
    ++ Text.atLeft 6 (String.ofList entry.mnemonic) ++ " " ++ Text.atLeft 24 names ++ " "
    ++ Text.atLeft 28 entry.title ++ " " ++ entry.description ++ "\n"

def listing : String :=
  "Instructions:\n\n" ++ String.join (all.map line)

end Entry

end WordMachine.Isa
