import WordMachine.CommandLine.RamRange
import WordMachine.Journal

/-! Commands: what the program is asked to do. How it is read from the arguments is left open. -/
namespace WordMachine.CommandLine

inductive Pace
  | unpaced
  | limited (maxCycles : Nat)
  | paced (frequency : Nat)
  deriving DecidableEq

structure RunOptions where
  program : String
  headless : Bool
  trace : Bool
  pace : Pace
  batch : Nat
  ramSize : Nat
  dumpMemory : Option RamRange
  deriving DecidableEq

inductive Command
  | instructions
  | assemble (source : String) (output : Option String) (ramSize : Nat)
  | run (options : RunOptions)
  | disassemble (binary : String)
  deriving DecidableEq

structure Invocation where
  debug : Nat
  command : Command
  deriving DecidableEq

/-- The level up to which records are logged: warnings unless more is asked for, where a trace asks
for debug records. -/
def Invocation.threshold (invocation : Invocation) : Level :=
  let traces := match invocation.command with
    | .run options => options.trace
    | _ => false
  match invocation.debug with
  | 0 => if traces then .debug else .warn
  | 1 => if traces then .debug else .info
  | 2 => .debug
  | _ => .trace

/-- What is said instead of carrying out a command, and the exit code. -/
structure Refusal where
  code : UInt8
  printed : String := ""
  complaint : String := ""
  deriving DecidableEq

abbrev Reader := List String → Except Refusal Invocation

end WordMachine.CommandLine
