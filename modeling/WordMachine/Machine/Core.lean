import WordMachine.Machine.Alu
import WordMachine.Machine.Fault
import WordMachine.Machine.RegisterFile

/-! The core of the machine, which is all that instructions work on: registers, data memory and
ports. -/
namespace WordMachine.Machine

open Isa (Register)

structure Core where
  registers : RegisterFile
  ram : Bank Word
  /-- The value that was last written to each port. -/
  ports : Vector Word 256
  deriving DecidableEq

/-- Work on a core, which may end in a fault. What was done before the fault stays done. -/
abbrev Execution := EStateM Fault Core

namespace Core

def initial (ramSize : Nat) : Core where
  registers := .initial (.ofNat ramSize)
  ram := .filled .ram ramSize 0
  ports := .replicate 256 0

def port (core : Core) (port : UInt8) : Word :=
  have port_lt : port.toNat < 256 := port.toNat_lt
  core.ports[port.toNat]

def setPort (core : Core) (port : UInt8) (value : Word) : Core :=
  { core with ports := core.ports.set port.toNat value port.toNat_lt }

/-- Sets or clears the bit of a button, which is one of the eight of the button register. -/
def press (core : Core) (button : UInt8) (down : Bool) : Core :=
  let bit : Word := 1 <<< button.toUInt16
  let pressed := core.registers.get .inp
  { core with
    registers := core.registers.set .inp (if down then pressed ||| bit else pressed &&& ~~~bit) }

theorem port_setPort_self (core : Core) (port : UInt8) (value : Word) :
    (core.setPort port value).port port = value := by
  simp [Core.port, setPort]

theorem port_setPort_of_ne (core : Core) {port other : UInt8} (h : port ≠ other) (value : Word) :
    (core.setPort port value).port other = core.port other := by
  have hne : port.toNat ≠ other.toNat := fun heq => h (UInt8.toNat.inj heq)
  simp [Core.port, setPort, hne]

end Core

namespace Execution

def register (register : Register) : Execution Word :=
  return (← get).registers.get register

def setReg (register : Register) (value : Word) : Execution Unit :=
  modify fun core => { core with registers := core.registers.set register value }

def select (address : UInt8) : Execution Register :=
  match Register.ofAddress? address with
  | some register => pure register
  | none => throw (.noSuchRegister address)

def read (address : UInt8) : Execution Word := do
  register (← select address)

def alu {α : Type} (operation : StateM Flags α) : Execution α := do
  let (value, flags) := operation (← get).registers.flags
  modify fun core => { core with registers := core.registers.setFlags flags }
  return value

def ram {α : Type} (access : Bank.Access Word α) : Execution α := fun ⟨registers, ram, ports⟩ =>
  match access ram with
  | .ok value ram => .ok value ⟨registers, ram, ports⟩
  | .error violation ram => .error (.memoryViolation violation) ⟨registers, ram, ports⟩

def readRam (address : Nat) : Execution Word := do
  match (← get).ram.read address with
  | .ok value => pure value
  | .error violation => throw (.memoryViolation violation)

def writeRam (address : Nat) (value : Word) : Execution Unit :=
  ram (Bank.write address value)

end Execution

end WordMachine.Machine
