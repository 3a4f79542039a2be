import WordMachine.Assembly.Event
import WordMachine.CommandLine.Host
import WordMachine.Machine.Tempo
import WordMachine.Text.ControlSequence

/-! Log records as text: a level and the part that reports, in brackets, and then the message. -/
namespace WordMachine.CommandLine

structure LogRecord where
  level : Level
  target : String
  message : String
  deriving DecidableEq

namespace LogRecord

def ofAssembly (event : Assembly.Event) : LogRecord :=
  ⟨event.level, "libassembler::assembler", event.message⟩

def machineTarget : Machine.Event → String
  | .executing .. | .unknownButton .. | .faulted .. => "libemulator::execute"
  | .unknownOpcode .. | .flagsProtected .. | .displayGone | .headless .. =>
    "libemulator::execute::parsed"

def ofMachine (event : Machine.Event) : LogRecord :=
  ⟨event.level, machineTarget event, event.message⟩

def assembled (path summary : String) : LogRecord :=
  ⟨.info, "patchy", s!"Assembled {path}: {summary}"⟩

def overrun (tempo : Machine.Tempo) (nanoseconds : Nat) : LogRecord :=
  ⟨.warn, "libemulator::pacing",
    s!"{nanoseconds / 1000}us overrun on a {tempo.batch} cycle batch at {tempo.frequency} Hz"⟩

def text (record : LogRecord) : String :=
  let level := Text.atLeft 5 (String.ofList (record.level.name.toList.map Char.toUpper))
  let message := record.message.toList.flatMap fun c => if c = '\n' then "\n    ".toList else [c]
  let text := s!"[{level} {record.target}] {String.ofList message}\n"
  String.ofList (Text.ControlSequence.strip text.toList)

variable {m : Type → Type} [Monad m] [Host m]

def print (records : List LogRecord) : m Unit :=
  records.forM fun record => Host.complain record.text

end LogRecord

end WordMachine.CommandLine
