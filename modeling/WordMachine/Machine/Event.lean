import WordMachine.Display.Pixel
import WordMachine.Isa.Instruction
import WordMachine.Journal
import WordMachine.Machine.Dump
import WordMachine.Machine.Fault

/-! What a machine reports while it runs. -/
namespace WordMachine.Machine

inductive Event
  | executing (cycle : Nat) (ip : Word) (instruction : Isa.Instruction)
  | unknownOpcode (opcode : UInt8) (ip : Word)
  | flagsProtected (value ip : Word)
  | unknownButton (button : UInt8)
  | displayGone
  /-- A pixel that no display was there to show. -/
  | headless (pixel : Display.Pixel)
  | faulted (fault : Fault) (dump : Dump)
  deriving DecidableEq

namespace Event

def level : Event → Level
  | executing .. => .debug
  | unknownOpcode .. | flagsProtected .. | unknownButton .. | displayGone => .warn
  | headless .. => .trace
  | faulted .. => .error

def message : Event → String
  | executing cycle ip instruction =>
    s!"[{cycle}] {Text.hex 4 ip.toNat}: {String.ofList instruction.text}"
  | unknownOpcode opcode ip =>
    s!"{(Isa.DecodeError.unknownOpcode opcode).message} at 0x{Text.hex 4 ip.toNat}, skipping"
  | flagsProtected value ip =>
    s!"Ignoring write of 0x{Text.hex 4 value.toNat} to flgs at 0x{Text.hex 4 ip.toNat}"
  | unknownButton button => s!"Ignoring unknown button {button.toNat}"
  | displayGone => "Display disconnected, continuing headless"
  | headless pixel =>
    s!"Headless, dropping pixel ({pixel.x.toNat}, {pixel.y.toNat}) = "
      ++ s!"0b{Text.binary 3 pixel.color.toNat}"
  | faulted fault dump => s!"{fault.message}\n{dump.text}"

end Event

end WordMachine.Machine
