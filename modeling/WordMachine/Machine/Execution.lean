import WordMachine.Display.Pixel
import WordMachine.Isa.Instruction
import WordMachine.Machine.Core

/-! The effect of one instruction on the core. The instruction pointer is advanced behind every
instruction but a halt, so a jump stores the address in front of its target. -/
namespace WordMachine.Machine

open Isa (Instruction Operation Condition Mode Entry)
open Display (Pixel)

inductive Signal
  | quiet
  | halt
  | pixel (pixel : Pixel)
  /-- No operation has the opcode, and nothing was done. -/
  | unrecognized (opcode : UInt8)
  /-- The value was meant for the flags, which no instruction can write. -/
  | flagsProtected (value : Word)
  deriving DecidableEq

/-- A read from this port gives the button state. -/
def inputPort : UInt8 := 0

/-- A write to this port draws a pixel. -/
def displayPort : UInt8 := 1

def Flags.meet (flags : Flags) : Condition → Bool
  | .always => true
  | .equal => flags.equal
  | .notEqual => !flags.equal
  | .greater => flags.greater
  | .greaterEqual => flags.greater || flags.equal
  | .less => flags.less
  | .lessEqual => flags.less || flags.equal
  | .zero => flags.zero
  | .notZero => !flags.zero

namespace Execution

def assign (address : UInt8) (value : Word) : Execution Signal := do
  let register ← select address
  if register = .flgs then
    return .flagsProtected value
  setReg register value
  return .quiet

/-- The address of an operand in data memory. The sum is a word. -/
def effectiveAddress (offset : Word) : Execution Nat :=
  return ((← register .dp) + offset).toNat

def push (value : Word) : Execution Unit := do
  let sp ← register .sp
  if sp = 0 then
    throw .stackOverflow
  writeRam (sp - 1).toNat value
  setReg .sp (sp - 1)

def pop : Execution Word := do
  let sp ← register .sp
  if (← get).ram.size ≤ sp.toNat then
    throw .stackUnderflow
  let value ← readRam sp.toNat
  setReg .sp (sp + 1)
  return value

def jump (target : Word) : Execution Unit :=
  setReg .ip (target - 1)

def target (mode : Mode) (instruction : Instruction) : Execution Word :=
  match mode with
  | .register => read instruction.dest
  | .immediate => pure instruction.immediate

def second (mode : Mode) (instruction : Instruction) : Execution Word :=
  match mode with
  | .register => read instruction.src
  | .immediate => pure instruction.immediate

def combine (instruction : Instruction) (operand : Execution Word)
    (operation : Word → Word → StateM Flags Word) : Execution Signal := do
  let b ← operand
  let a ← read instruction.dest
  assign instruction.dest (← alu (operation a b))

def shift (instruction : Instruction) (operation : Word → StateM Flags Word) :
    Execution Signal := do
  let a ← read instruction.dest
  assign instruction.dest (← alu (operation a))

def portIn (port : UInt8) : Execution Word := do
  if port = inputPort then
    register .inp
  else
    return (← get).port port

def portOut (port : UInt8) (value : Word) : Execution Signal := do
  modify (·.setPort port value)
  return if port = displayPort then .pixel (.unpack value) else .quiet

def packedPort (instruction : Instruction) : UInt8 :=
  (instruction.get .pair).toUInt8

def perform (operation : Operation) (instruction : Instruction) : Execution Signal := do
  let { dest, src, immediate, .. } := instruction
  match operation with
  | .nop => return .quiet
  | .move => assign dest (← read src)
  | .halt =>
    modify fun core => { core with
      registers := core.registers.setFlags { core.registers.flags with halt := true } }
    return .halt
  | .loadImmediate => assign dest immediate
  | .loadRam => assign dest (← readRam (← effectiveAddress immediate))
  | .storeRam =>
    let value ← read src
    writeRam (← effectiveAddress immediate) value
    return .quiet
  | .push =>
    push (← read src)
    return .quiet
  | .pushImmediate =>
    push immediate
    return .quiet
  | .pushRam =>
    push (← readRam (← effectiveAddress immediate))
    return .quiet
  | .pop => assign dest (← pop)
  | .popRam =>
    let value ← pop
    writeRam (← effectiveAddress immediate) value
    return .quiet
  | .add mode => combine instruction (second mode instruction) Alu.add
  | .subtract mode => combine instruction (second mode instruction) Alu.subtract
  | .and => combine instruction (read src) Alu.and
  | .or => combine instruction (read src) Alu.or
  | .xor => combine instruction (read src) Alu.xor
  | .shiftLeft => shift instruction Alu.shiftLeft
  | .shiftRight => shift instruction Alu.shiftRight
  | .compare =>
    let a ← read dest
    let b ← read src
    alu (Alu.compare a b)
    return .quiet
  | .branch condition mode =>
    if (← get).registers.flags.meet condition then
      jump (← target mode instruction)
    return .quiet
  | .call mode =>
    let address ← target mode instruction
    push ((← register .ip) + 1)
    jump address
    return .quiet
  | .ret =>
    jump (← pop)
    return .quiet
  | .output => portOut immediate.toUInt8 (← read src)
  | .outputImmediate => portOut (packedPort instruction) immediate
  | .outputRam => portOut (packedPort instruction) (← readRam (← effectiveAddress immediate))
  | .input => assign dest (← portIn immediate.toUInt8)
  | .inputRam =>
    let value ← portIn (packedPort instruction)
    writeRam (← effectiveAddress immediate) value
    return .quiet
  | .drawPixel =>
    let x ← read dest
    let y ← read src
    return .pixel (.of x y immediate)

end Execution

/-- Executes an instruction. One whose opcode is unknown does nothing. -/
def execute (instruction : Instruction) : Execution Signal :=
  match Entry.ofOpcode? instruction.opcode with
  | some entry => Execution.perform entry.operation instruction
  | none => return .unrecognized instruction.opcode

end WordMachine.Machine
