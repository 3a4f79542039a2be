import WordMachine.Machine.Bank

/-! Faults: why an instruction cannot be executed. -/
namespace WordMachine.Machine

inductive Fault
  | noSuchRegister (address : UInt8)
  | memoryViolation (violation : Violation)
  | stackOverflow
  | stackUnderflow
  deriving DecidableEq

def Fault.message : Fault → String
  | noSuchRegister address => s!"Invalid register address 0x{Text.hex 1 address.toNat}"
  | memoryViolation violation => s!"Memory access violation: {violation.message}"
  | stackOverflow => "Stack overflow"
  | stackUnderflow => "Stack underflow"

end WordMachine.Machine
