import WordMachine.Machine.Execution
import WordMachine.Machine.State

/-! One step of the machine. A step takes the input that has arrived, fetches the instruction at
the instruction pointer and executes it. A fault halts the machine for good. -/
namespace WordMachine.Machine

open Isa (Instruction)

inductive Outcome
  | normal
  /-- The halt instruction has been executed. -/
  | halting
  | halted
  deriving DecidableEq

structure FaultReport where
  fault : Fault
  dump : Dump
  deriving DecidableEq

def FaultReport.message (error : FaultReport) : String :=
  s!"Engine fault: {error.fault.message}"

abbrev Running := EStateM FaultReport State

namespace State

/-- Halts on a fault and reports it. The display stays attached. -/
def fail (state : State) (fault : Fault) : EStateM.Result FaultReport State Outcome :=
  let state := { state with status := .halted }
  let dump := state.dump
  .error ⟨fault, dump⟩ (state.note (.faulted fault dump))

def advance (state : State) : State :=
  { state with
    core := { state.core with
      registers := state.core.registers.set .ip (state.core.registers.get .ip + 1) }
    cycles := state.cycles + 1 }

def conclude (state : State) (ip : Word) : Signal → Outcome × State
  | .quiet => (.normal, state.advance)
  | .halt => (.halting, { state with status := .halting, cycles := state.cycles + 1 })
  | .pixel pixel => (.normal, (state.draw pixel).advance)
  | .unrecognized opcode => (.normal, (state.note (.unknownOpcode opcode ip)).advance)
  | .flagsProtected value => (.normal, (state.note (.flagsProtected value ip)).advance)

def traced (state : State) (ip : Word) (instruction : Instruction) : State :=
  if state.config.trace then
    state.note (.executing state.cycles ip instruction)
  else
    state

def onCore {α : Type} (work : Execution α) : EStateM Fault State α :=
  fun ⟨core, rom, config, cycles, status, aborted, display, journal⟩ =>
    match work core with
    | .ok value core => .ok value ⟨core, rom, config, cycles, status, aborted, display, journal⟩
    | .error fault core =>
      .error fault ⟨core, rom, config, cycles, status, aborted, display, journal⟩

def obey (ip : Word) (instruction : Instruction) : Running Outcome := fun state =>
  match onCore (execute instruction) state with
  | .ok signal state =>
    let (outcome, state) := state.conclude ip signal
    .ok outcome state
  | .error fault state => state.fail fault

def cycle : Running Outcome := fun state =>
  let ip := state.core.registers.get .ip
  match state.rom.read ip.toNat with
  | .ok word =>
    let instruction := Instruction.decode word
    obey ip instruction (state.traced ip instruction)
  | .error violation => state.fail (.memoryViolation violation)

/-- One step. A requested halt is carried out before anything is fetched. -/
def step : Running Outcome := fun state =>
  match state.status with
  | .halted => .ok .halted state
  | .halting => .ok .halted { state with status := .halted }.dismissDisplay
  | .running => cycle state.takeInput

end State

end WordMachine.Machine
