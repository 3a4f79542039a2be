/-! Whether a machine runs. Halting takes two steps: one executes the instruction, and the next
carries the halt out. -/
namespace WordMachine.Machine

inductive Status
  | running | halting | halted
  deriving DecidableEq

def Status.name : Status → String
  | running => "Running"
  | halting => "HaltRequested"
  | halted => "Halted"

end WordMachine.Machine
