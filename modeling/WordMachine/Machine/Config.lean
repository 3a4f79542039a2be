import WordMachine.Isa.Word

/-! Machine configurations, and why a machine cannot be set up. -/
namespace WordMachine.Machine

structure Config where
  ramSize : Nat := Isa.defaultRamSize
  romSize : Nat := Isa.maxProgramLength
  /-- Whether each executed instruction is reported. -/
  trace : Bool := false
  deriving DecidableEq

/-- The stack pointer starts at the size of data memory, which therefore has to be a word. -/
def maxRamSize : Nat := 0xffff

inductive LoadError
  | badRamSize (size : Nat)
  | badRomSize (size : Nat)
  | tooLong (length romSize : Nat)
  deriving DecidableEq

def LoadError.message : LoadError → String
  | badRamSize size => s!"RAM size {size} must be between 1 and {maxRamSize} words"
  | badRomSize size => s!"ROM size {size} must be between 1 and {Isa.maxProgramLength} words"
  | tooLong length romSize =>
    s!"Program ({length} instructions) doesn't fit into ROM ({romSize} words)"

def Config.check (config : Config) : Except LoadError Unit :=
  if config.ramSize < 1 ∨ maxRamSize < config.ramSize then
    .error (.badRamSize config.ramSize)
  else if config.romSize < 1 ∨ Isa.maxProgramLength < config.romSize then
    .error (.badRomSize config.romSize)
  else
    .ok ()

end WordMachine.Machine
