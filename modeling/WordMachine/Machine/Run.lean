import WordMachine.Machine.Step

/-! Runs: steps until the machine halts or is told to end, or until a limit is reached. -/
namespace WordMachine.Machine

inductive Ending
  | halted | aborted | outOfCycles
  deriving DecidableEq

namespace State

def ending? (state : State) : Option Ending :=
  if state.status = .halted then some .halted
  else if state.aborted then some .aborted
  else none

/-- Runs for at most `steps` steps, and says how the run ended if that was enough. -/
def runWithin : (steps : Nat) → Running (Option Ending)
  | 0 => pure none
  | steps + 1 => do
    match (← get).ending? with
    | some outcome => return some outcome
    | none =>
      discard step
      runWithin steps

/-- The largest number of cycles that is counted. -/
def maxCycles : Nat := 0xffffffffffffffff

/-- Runs until the machine stops or `limit` more cycles have passed. Then a halt that is pending is
carried out, which costs no cycle. -/
def runCycles (limit : Nat) : Running Ending := do
  let cycles := (← get).cycles
  match ← runWithin (min (cycles + limit) maxCycles - cycles) with
  | some outcome => return outcome
  | none =>
    if (← get).status = .halting then
      discard step
    return (← get).ending?.getD .outOfCycles

/-- Runs in batches of steps, at most `batches` of them. It does `start` in front of each, and
`rest` with what that gave behind each that was not enough. -/
def runBatches {m : Type → Type} [Monad m] {τ : Type} (start : m τ) (rest : τ → State → m State)
    (batch : Nat) :
    (batches : Nat) → State → m (EStateM.Result FaultReport State (Option Ending))
  | 0, state => return .ok none state
  | batches + 1, state => do
    let started ← start
    match runWithin batch state with
    | .ok none state => runBatches start rest batch batches (← rest started state)
    | result => return result

end State

end WordMachine.Machine
