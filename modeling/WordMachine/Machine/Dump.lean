import WordMachine.Machine.RegisterFile
import WordMachine.Machine.Status
import WordMachine.Text.Numeral

/-! Dumps of what a look at a stopped machine needs. -/
namespace WordMachine.Machine

open Isa (Register)

structure Dump where
  registers : RegisterFile
  cycles : Nat
  status : Status
  deriving DecidableEq

namespace Dump

def registerLine (registers : RegisterFile) (register : Register) : String :=
  let value := (registers.get register).toNat
  "  " ++ Text.atLeft 4 (String.ofList register.name) ++ " 0x" ++ Text.hex 4 value ++ " "
    ++ Text.atRight 5 (toString value) ++ " 0b" ++ Text.binary 16 value ++ "\n"

def text (dump : Dump) : String :=
  let flags := " ".intercalate dump.registers.flags.names
  "Registers\n" ++ String.join (Register.all.map (registerLine dump.registers))
    ++ s!"Flags  [{flags}]\nCycles {dump.cycles}\nState  {dump.status.name}"

end Dump

end WordMachine.Machine
