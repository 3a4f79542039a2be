import WordMachine.Assembly.Program
import WordMachine.CommandLine.Command
import WordMachine.CommandLine.Log
import WordMachine.CommandLine.Path
import WordMachine.Display.Framebuffer
import WordMachine.Isa.Listing
import WordMachine.Machine.Tempo

/-! Sessions: carrying out a command on any system. A command ends with an exit code or with a
failure, whose message is printed. -/
namespace WordMachine.CommandLine

open Machine (State Ending FaultReport)

inductive Failure
  | unreadable (path reason : String)
  | unwritable (path reason : String)
  | assembly (path : String) (error : Assembly.Error)
  | load (error : Machine.LoadError)
  | image (path : String) (error : Machine.ImageLoadError)
  | ramRange (range : RamRange) (ramSize : Nat)
  deriving DecidableEq

def Failure.message : Failure → String
  | unreadable path reason => s!"Couldn't read {path}: {reason}"
  | unwritable path reason => s!"Couldn't write {path}: {reason}"
  | assembly path error => s!"Couldn't assemble {path}: {error.message}"
  | load error => error.message
  | image path error => s!"Couldn't load {path}: {error.message}"
  | ramRange range ramSize =>
    s!"Memory range 0x{Text.hex 1 range.start}:{range.length} is outside of RAM "
      ++ s!"(size 0x{Text.hex 1 ramSize})"

/-- How a session runs: the level up to which it logs, and a number of batches that no run in
batches exceeds. A run that comes so far counts as aborted. -/
structure Setup where
  threshold : Option Level
  horizon : Nat

abbrev Session (m : Type → Type) := ExceptT Failure m

namespace Session

variable {m : Type → Type} [Monad m] [Host m]

def print (text : String) : Session m Unit :=
  ExceptT.lift (Host.print text)

def complain (error : String) : Session m Unit :=
  ExceptT.lift (Host.complain s!"Error: {error}\n")

def log (setup : Setup) (records : List LogRecord) : Session m Unit :=
  let journal : Journal LogRecord := { threshold := setup.threshold }
  ExceptT.lift (LogRecord.print (records.filter fun record => journal.admits record.level))

def orFail {ε α : Type} (failure : ε → Failure) : Except ε α → Session m α
  | .ok value => pure value
  | .error error => throw (failure error)

def readFile (path : String) : Session m (List UInt8) := do
  orFail (.unreadable path) (← ExceptT.lift (Host.readFile path))

def readText (path : String) : Session m (List Char) := do
  match String.fromUTF8? (← readFile path).toByteArray with
  | some text => return text.toList
  | none => throw (.unreadable path "stream did not contain valid UTF-8")

def programOf (setup : Setup) (path : String) (ramSize : Nat) : Session m Assembly.Program := do
  let source ← readText path
  let (outcome, journal) := Assembly.assembleWith setup.threshold ramSize source
  log setup (journal.events.toList.map .ofAssembly)
  let program ← orFail (.assembly path) outcome
  log setup [.assembled path program.summary]
  return program

def assemble (setup : Setup) (source : String) (output : Option String) (ramSize : Nat) :
    Session m Unit := do
  let output := output.getD (Path.withExtension source "bin")
  let program ← programOf setup source ramSize
  orFail (.unwritable output) (← ExceptT.lift (Host.writeFile output program.image))
  print s!"Assembled {source} ({program.summary}) to {output}\n"

/-- The machine for a program file. A source is told by its extension and assembled; all else is
an image. -/
def load (setup : Setup) (path : String) (config : Machine.Config) : Session m State := do
  if Path.hasExtension path "asm" then
    let program ← programOf setup path config.ramSize
    orFail .load (State.load config program.words)
  else
    let image ← readFile path
    orFail (.image path) (State.loadImage config image)

def flush (setup : Setup) (state : State) : Session m State := do
  log setup (state.journal.events.toList.map .ofMachine)
  return { state with journal := { state.journal with events := #[] } }

def unpacedBatch : Nat := 4096

/-- Flushes the journal and waits until the time of the batch that began at `started` is over. A
batch that took too long is only reported: the time that was lost is not made up for. -/
def rest (setup : Setup) (tempo : Machine.Tempo) (started : Nat) (state : State) :
    Session m State := do
  let state ← flush setup state
  let elapsed := (← ExceptT.lift Host.now) - started
  if elapsed ≤ tempo.budget then
    ExceptT.lift (Host.wait (tempo.budget - elapsed))
  else
    log setup [.overrun tempo (elapsed - tempo.budget)]
  return state

def stopped : EStateM.Result FaultReport State (Option Ending) →
    Except FaultReport Ending × State
  | .ok outcome state => (.ok (outcome.getD .aborted), state)
  | .error error state => (.error error, state)

def drive (setup : Setup) (pace : Pace) (batch : Nat) (state : State) :
    Session m (Except FaultReport Ending × State) := do
  let (outcome, state) ← match pace with
    | .limited maxCycles => pure (stopped ((some <$> State.runCycles maxCycles) state))
    | .unpaced =>
      stopped <$> State.runBatches (pure ()) (fun _ => flush setup) unpacedBatch setup.horizon state
    | .paced frequency =>
      let tempo := Machine.Tempo.of frequency batch
      stopped <$> State.runBatches (ExceptT.lift Host.now) (rest setup tempo) tempo.batch
        setup.horizon state
  return (outcome, ← flush setup state)

def outcomeLine (cycles : Nat) : Ending → String
  | .halted => s!"Halted after {cycles} cycles\n"
  | .aborted => s!"Aborted after {cycles} cycles\n"
  | .outOfCycles => "Cycle limit reached\n"

/-- Runs a program and prints what the display shows, the state of the machine, how the run ended
and the wanted words of data memory. The exit code tells a fault from all else. -/
def run (setup : Setup) (options : RunOptions) : Session m UInt8 := do
  let config : Machine.Config := { ramSize := options.ramSize, trace := options.trace }
  orFail .load config.check
  let loaded ← load setup options.program config
  let ready := { loaded with journal := { threshold := setup.threshold } }
  let (outcome, state) ← drive setup options.pace options.batch <|
    if options.headless then ready else ready.attach
  let state := state.dismissDisplay
  if !options.headless then
    print (Display.Framebuffer.ofMessages state.display.drain.1).text
  let code : UInt8 ← match outcome with
    | .ok outcome => do
      print (state.dump.text ++ "\n")
      print (outcomeLine state.cycles outcome)
      pure 0
    | .error error => do
      print (error.dump.text ++ "\n")
      complain error.message
      pure 1
  if let some range := options.dumpMemory then
    match range.text? state.core.ram with
    | some text => print text
    | none => throw (.ramRange range state.core.ram.size)
  return code

def perform (setup : Setup) : Command → Session m UInt8
  | .instructions => do
    print Isa.Entry.listing
    return 0
  | .assemble source output ramSize => do
    assemble setup source output ramSize
    return 0
  | .run options => run setup options
  | .disassemble binary => do
    print (String.ofList (Isa.Listing.text (← readFile binary)))
    return 0

end Session

variable {m : Type → Type} [Monad m] [Host m]

/-- Carries out an invocation and gives the exit code: one for a failure. -/
def execute (logs : Bool) (horizon : Nat) (invocation : Invocation) : m UInt8 := do
  let threshold := if logs then some invocation.threshold else none
  match ← ExceptT.run (Session.perform ⟨threshold, horizon⟩ invocation.command) with
  | .ok code => return code
  | .error failure =>
    Host.complain s!"Error: {failure.message}\n"
    return 1

def start (read : Reader) (logs : Bool) (horizon : Nat) (arguments : List String) : m UInt8 := do
  match read arguments with
  | .ok invocation => execute logs horizon invocation
  | .error refusal =>
    Host.print refusal.printed
    Host.complain refusal.complaint
    return refusal.code

end WordMachine.CommandLine
