import WordMachine.CommandLine.Session

/-! A reader of arguments. Switches are written as `--name`, `--name value` or `--name=value`, or as
one letter behind a single hyphen, where several letters can stand together. Nothing else in the
program depends on how its arguments are read. -/
namespace WordMachine.CommandLine

inductive Switch
  | debug | output | ramSize | headless | trace | frequency | batch | maxCycles | dumpMemory
  | help | version
  deriving DecidableEq

namespace Switch

def long : Switch → String
  | debug => "debug" | output => "output" | ramSize => "ram-size" | headless => "headless"
  | trace => "trace" | frequency => "frequency" | batch => "batch" | maxCycles => "max-cycles"
  | dumpMemory => "dump-memory" | help => "help" | version => "version"

def short? : Switch → Option Char
  | debug => some 'd'
  | output => some 'o'
  | help => some 'h'
  | version => some 'V'
  | _ => none

def takesValue : Switch → Bool
  | debug | headless | trace | help | version => false
  | _ => true

end Switch

inductive Unread
  /-- Only information was asked for. -/
  | information
  | misused
  /-- A text that is no range of data memory. -/
  | range (text : String) (error : RamRange.Error)
  deriving DecidableEq

namespace Unread

open Text.ControlSequence (bold reset)

/-- What is said of a text that is no range, where it is quoted and ends its own style. The control
sequences in it are left out. -/
def rangeComplaint (text : String) (error : RamRange.Error) : String :=
  let complaint :=
    s!"invalid value '{text}{reset}' for '--dump-memory <DUMP_MEMORY>': {error.message}"
  let hint := s!"For more information, try '{bold}--help{reset}'."
  String.ofList (Text.ControlSequence.strip s!"error: {complaint}\n\n{hint}\n".toList)

def refusal : Unread → Refusal
  | information => { code := 0 }
  | misused => { code := 2 }
  | range text error => { code := 2, complaint := rangeComplaint text error }

end Unread

/-- A word of its own, or a switch with its value, which is empty if the switch takes none. -/
inductive Argument
  | word (text : String)
  | given (switch : Switch) (value : String)
  deriving DecidableEq

namespace Argument

/-- Reads letters behind a hyphen. A letter that takes a value has the rest for it; if nothing is
left, the switch is given back, to take the next argument. -/
def letters (known : List Switch) : List Char → Except Unread (List Argument × Option Switch)
  | [] => .ok ([], none)
  | c :: rest => do
    match known.find? fun switch => switch.short? == some c with
    | none => throw .misused
    | some switch =>
      if !switch.takesValue then
        let (arguments, open?) ← letters known rest
        return (.given switch "" :: arguments, open?)
      else
        match rest with
        | [] => return ([], some switch)
        | '=' :: value | value => return ([.given switch (String.ofList value)], none)

/-- Reads a long switch. One that takes a value and has none behind an equals sign is given back,
to take the next argument. -/
def longForm (known : List Switch) (text : List Char) :
    Except Unread (List Argument × Option Switch) := do
  let name := String.ofList (text.takeWhile (· != '='))
  let some switch := known.find? fun switch => switch.long == name
    | throw .misused
  match text.dropWhile (· != '='), switch.takesValue with
  | _ :: value, true => return ([.given switch (String.ofList value)], none)
  | _ :: _, false => throw .misused
  | [], true => return ([], some switch)
  | [], false => return ([.given switch ""], none)

def ofText (known : List Switch) (text : String) :
    Except Unread (List Argument × Option Switch) :=
  match text.toList with
  | '-' :: '-' :: name => longForm known name
  | '-' :: c :: rest => letters known (c :: rest)
  | _ => .ok ([.word text], none)

def isValue (text : String) : Bool :=
  match text.toList with
  | '-' :: _ :: _ => false
  | _ => true

/-- Reads arguments from left to right into a state. Behind `--` there are only words. -/
def scan {σ : Type} (known : List Switch) (accept : σ → Argument → Except Unread σ) (state : σ) :
    List String → Except Unread σ
  | [] => .ok state
  | "--" :: rest => rest.foldlM (fun state text => accept state (.word text)) state
  | text :: rest => do
    let (arguments, open?) ← ofText known text
    let state ← arguments.foldlM accept state
    match open? with
    | none => scan known accept state rest
    | some switch =>
      match rest with
      | [] => throw .misused
      | value :: rest =>
        if isValue value then
          let state ← accept state (.given switch value)
          scan known accept state rest
        else
          throw .misused

end Argument

def maxSize : Nat := 0xffffffffffffffff

def maxRate : Nat := 0xffffffff

def number? (max : Nat) (text : String) : Option Nat :=
  let digits := match text.toList with
    | '+' :: c :: digits => c :: digits
    | digits => digits
  (Assembly.Literal.positional? 10 digits).filter fun value =>
    !digits.isEmpty && value ≤ max

structure Settings where
  words : List String := []
  debug : Nat := 0
  given : List Switch := []
  output : Option String := none
  ramSize : Option Nat := none
  frequency : Option Nat := none
  batch : Option Nat := none
  maxCycles : Option Nat := none
  dumpMemory : Option RamRange := none

namespace Settings

def set (settings : Settings) (switch : Switch) (value : String) : Except Unread Settings :=
  let valid (max : Nat) (use : Nat → Settings) : Except Unread Settings :=
    match number? max value with
    | some number => .ok (use number)
    | none => .error .misused
  match switch with
  | .debug => .ok { settings with debug := settings.debug + 1 }
  | .headless | .trace => .ok settings
  | .output => if value.isEmpty then .error .misused else .ok { settings with output := some value }
  | .ramSize => valid maxSize fun number => { settings with ramSize := some number }
  | .frequency => valid maxRate fun number => { settings with frequency := some number }
  | .batch => valid maxRate fun number => { settings with batch := some number }
  | .maxCycles => valid maxSize fun number => { settings with maxCycles := some number }
  | .dumpMemory =>
    match RamRange.parse value.toList with
    | .ok range => .ok { settings with dumpMemory := some range }
    | .error error => .error (.range value error)
  | .help | .version => .error .information

/-- Takes up an argument of a command with at most so many words. Only `debug` can be repeated. -/
def accept (words : Nat) (settings : Settings) : Argument → Except Unread Settings
  | .word text =>
    if settings.words.length < words && !text.isEmpty then
      .ok { settings with words := settings.words ++ [text] }
    else
      .error .misused
  | .given switch value =>
    if switch ∈ settings.given ∧ switch ≠ .debug then
      .error .misused
    else
      { settings with given := switch :: settings.given }.set switch value

/-- How often `debug` was given: behind the command, or if not there, in front of it. -/
def debugOr (settings : Settings) (front : Nat) : Nat :=
  if settings.debug = 0 then front else settings.debug

def word (settings : Settings) : Except Unread String :=
  match settings.words with
  | text :: _ => .ok text
  | [] => .error .misused

/-- A limit and a frequency exclude each other. -/
def pace (settings : Settings) : Except Unread Pace :=
  match settings.maxCycles, settings.frequency with
  | some _, some _ => .error .misused
  | some limit, none => .ok (.limited limit)
  | none, some frequency => .ok (.paced frequency)
  | none, none => .ok .unpaced

end Settings

namespace Command

def defaultBatch : Nat := 1000

def read (name : String) (debug : Nat) (arguments : List String) : Except Unread Invocation := do
  let settings (words : Nat) (known : List Switch) :=
    Argument.scan (.debug :: .help :: known) (Settings.accept words) {} arguments
  match name with
  | "help" => throw .information
  | "instructions" =>
    let settings ← settings 0 []
    return ⟨settings.debugOr debug, .instructions⟩
  | "assemble" =>
    let settings ← settings 1 [.output, .ramSize]
    let source ← settings.word
    return ⟨settings.debugOr debug,
      .assemble source settings.output (settings.ramSize.getD Isa.defaultRamSize)⟩
  | "run" =>
    let settings ← settings 1
      [.headless, .trace, .frequency, .batch, .maxCycles, .ramSize, .dumpMemory]
    let pace ← settings.pace
    let options : RunOptions :=
      { program := ← settings.word
        headless := .headless ∈ settings.given
        trace := .trace ∈ settings.given
        pace
        batch := settings.batch.getD defaultBatch
        ramSize := settings.ramSize.getD Isa.defaultRamSize
        dumpMemory := settings.dumpMemory }
    return ⟨settings.debugOr debug, .run options⟩
  | "disasm" =>
    let settings ← settings 1 []
    return ⟨settings.debugOr debug, .disassemble (← settings.word)⟩
  | _ => throw .misused

end Command

def Invocation.read (debug : Nat) : List String → Except Unread Invocation
  | [] => .error .misused
  | text :: rest => do
    match ← Argument.ofText [.debug, .help, .version] text with
    | ([.word name], _) => Command.read name debug rest
    | (switches, _) =>
      if switches.contains (.given .help "") || switches.contains (.given .version "") then
        throw .information
      else
        read (debug + switches.length) rest

def readArguments : Reader := fun arguments =>
  (Invocation.read 0 arguments).mapError Unread.refusal

def invoke {m : Type → Type} [Monad m] [Host m] (logs : Bool) (horizon : Nat)
    (arguments : List String) : m UInt8 :=
  start readArguments logs horizon arguments

end WordMachine.CommandLine
