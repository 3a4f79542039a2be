import WordMachine.Isa.Instruction

/-! Commands: instructions as a programmer thinks of them, with registers and values in place of
the fields of a word. -/
namespace WordMachine.Isa

inductive Argument
  | register (register : Register)
  | number (value : Nat)
  deriving DecidableEq

/-- A register to read or the value itself. -/
inductive Source
  | register (register : Register)
  | value (value : Word)
  deriving DecidableEq

def Source.argument : Source → Argument
  | .register rs => .register rs
  | .value word => .number word.toNat

/-- An operation with its operands. Offsets count from the data pointer. -/
inductive Command
  | nop | halt | ret
  | move (rd rs : Register)
  | loadImmediate (rd : Register) (value : Word)
  | loadRam (rd : Register) (offset : Word)
  | storeRam (offset : Word) (rs : Register)
  | push (rs : Register) | pushImmediate (value : Word) | pushRam (offset : Word)
  | pop (rd : Register) | popRam (offset : Word)
  | add (rd : Register) (operand : Source) | subtract (rd : Register) (operand : Source)
  | and (rd rs : Register) | or (rd rs : Register) | xor (rd rs : Register)
  | shiftLeft (rt : Register) | shiftRight (rt : Register)
  | compare (rd rs : Register)
  | branch (condition : Condition) (target : Source)
  | call (target : Source)
  | output (port : UInt8) (rs : Register)
  | outputImmediate (port : UInt8) (value : Word)
  | outputRam (port : UInt8) (offset : Word)
  | input (rd : Register) (port : UInt8)
  | inputRam (offset : Word) (port : UInt8)
  | drawPixel (rd rs : Register) (color : Word)
  deriving DecidableEq

namespace Command

def mnemonic : Command → String
  | nop => "nop" | halt => "hlt" | ret => "ret"
  | move .. => "mov" | loadImmediate .. => "ldi" | loadRam .. => "ldm" | storeRam .. => "store"
  | push _ => "push" | pushImmediate _ => "pushi" | pushRam _ => "pushm"
  | pop _ => "pop" | popRam _ => "popm"
  | add _ (.register _) => "add" | add _ (.value _) => "addi"
  | subtract _ (.register _) => "sub" | subtract _ (.value _) => "subi"
  | and .. => "and" | or .. => "or" | xor .. => "xor"
  | shiftLeft _ => "shl" | shiftRight _ => "shr" | compare .. => "cmp"
  | branch .always (.register _) => "jmp" | branch .always (.value _) => "jmpi"
  | branch .equal (.register _) => "breq" | branch .equal (.value _) => "breqi"
  | branch .notEqual (.register _) => "brne" | branch .notEqual (.value _) => "brnei"
  | branch .greater (.register _) => "brgt" | branch .greater (.value _) => "brgti"
  | branch .greaterEqual (.register _) => "brge" | branch .greaterEqual (.value _) => "brgei"
  | branch .less (.register _) => "brlt" | branch .less (.value _) => "brlti"
  | branch .lessEqual (.register _) => "brle" | branch .lessEqual (.value _) => "brlei"
  | branch .zero (.register _) => "brz" | branch .zero (.value _) => "brzi"
  | branch .notZero (.register _) => "brnz" | branch .notZero (.value _) => "brnzi"
  | call (.register _) => "call" | call (.value _) => "calli"
  | output .. => "out" | outputImmediate .. => "outi" | outputRam .. => "outm"
  | input .. => "in" | inputRam .. => "inm" | drawPixel .. => "spx"

def arguments : Command → List Argument
  | nop | halt | ret => []
  | move rd rs | and rd rs | or rd rs | xor rd rs | compare rd rs => [.register rd, .register rs]
  | loadImmediate rd value => [.register rd, .number value.toNat]
  | loadRam rd offset => [.register rd, .number offset.toNat]
  | storeRam offset rs => [.number offset.toNat, .register rs]
  | push rs => [.register rs]
  | pushImmediate value => [.number value.toNat]
  | pushRam offset | popRam offset => [.number offset.toNat]
  | pop rd => [.register rd]
  | add rd operand | subtract rd operand => [.register rd, operand.argument]
  | shiftLeft rt | shiftRight rt => [.register rt]
  | branch _ target | call target => [target.argument]
  | output port rs => [.number port.toNat, .register rs]
  | outputImmediate port value => [.number port.toNat, .number value.toNat]
  | outputRam port offset => [.number port.toNat, .number offset.toNat]
  | input rd port => [.register rd, .number port.toNat]
  | inputRam offset port => [.number offset.toNat, .number port.toNat]
  | drawPixel rd rs color => [.register rd, .register rs, .number color.toNat]

end Command

def Mode.source (register : Register) (immediate : Word) : Mode → Source
  | .register => .register register
  | .immediate => .value immediate

def Operation.command (rd rs : Register) (immediate : Word) (packed : UInt8) : Operation → Command
  | nop => .nop | move => .move rd rs | halt => .halt
  | loadImmediate => .loadImmediate rd immediate
  | loadRam => .loadRam rd immediate | storeRam => .storeRam immediate rs
  | push => .push rs | pushImmediate => .pushImmediate immediate | pushRam => .pushRam immediate
  | pop => .pop rd | popRam => .popRam immediate
  | add mode => .add rd (mode.source rs immediate)
  | subtract mode => .subtract rd (mode.source rs immediate)
  | compare => .compare rd rs
  | and => .and rd rs | or => .or rd rs | xor => .xor rd rs
  | shiftLeft => .shiftLeft rd | shiftRight => .shiftRight rd
  | branch condition mode => .branch condition (mode.source rd immediate)
  | call mode => .call (mode.source rd immediate)
  | ret => .ret
  | output => .output immediate.toUInt8 rs
  | outputImmediate => .outputImmediate packed immediate
  | outputRam => .outputRam packed immediate
  | input => .input rd immediate.toUInt8
  | inputRam => .inputRam immediate packed
  | drawPixel => .drawPixel rd rs immediate

def Instruction.command? (instruction : Instruction) : Option Command := do
  let entry ← Entry.ofOpcode? instruction.opcode
  let rd ← Register.ofAddress? instruction.dest
  let rs ← Register.ofAddress? instruction.src
  return entry.operation.command rd rs instruction.immediate (instruction.get .pair).toUInt8

/-- Instructions without a command have an unknown opcode or a register field of more than four
bits. -/
theorem Instruction.exists_command {instruction : Instruction} {entry : Entry}
    (hentry : Entry.ofOpcode? instruction.opcode = some entry)
    (hdest : instruction.dest.toNat < 16) (hsrc : instruction.src.toNat < 16) :
    ∃ rd rs, Register.ofAddress? instruction.dest = some rd ∧
      Register.ofAddress? instruction.src = some rs ∧
      instruction.command? = some (entry.operation.command rd rs instruction.immediate
        (instruction.get .pair).toUInt8) := by
  obtain ⟨rd, hrd⟩ : ∃ rd, Register.ofAddress? instruction.dest = some rd :=
    ⟨_, List.getElem?_eq_getElem hdest⟩
  obtain ⟨rs, hrs⟩ : ∃ rs, Register.ofAddress? instruction.src = some rs :=
    ⟨_, List.getElem?_eq_getElem hsrc⟩
  refine ⟨rd, rs, hrd, hrs, ?_⟩
  rw [command?, hentry, hrd, hrs]
  rfl

end WordMachine.Isa
