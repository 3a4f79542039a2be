import WordMachine.Display.Channel
import WordMachine.Isa.Image
import WordMachine.Machine.Config
import WordMachine.Machine.Core
import WordMachine.Machine.Event

/-! The state of a whole machine: its core with program memory, clock and display around it. -/
namespace WordMachine.Machine

structure State where
  core : Core
  rom : Bank CodeWord
  config : Config
  /-- The number of instructions executed. -/
  cycles : Nat := 0
  status : Status := .running
  /-- Whether somebody has asked for the run to end. -/
  aborted : Bool := false
  /-- A display is attached while the machine holds the link. -/
  display : Display.Channel := .dropped
  journal : Journal Event := {}
  deriving DecidableEq

inductive ImageLoadError
  | image (error : Isa.Image.Error)
  | load (error : LoadError)
  deriving DecidableEq

def ImageLoadError.message : ImageLoadError → String
  | image error => s!"Invalid program image: {error.message}"
  | load error => error.message

namespace State

def load (config : Config) (words : List CodeWord) : Except LoadError State := do
  config.check
  let words := words.toArray
  match Bank.load 0 words (.filled .rom config.romSize 0) with
  | .ok _ rom => return { core := .initial config.ramSize, rom, config }
  | .error _ _ => throw (.tooLong words.size config.romSize)

def loadImage (config : Config) (image : List UInt8) : Except ImageLoadError State := do
  let words ← (Isa.Image.words image).mapError .image
  (load config words).mapError .load

def dump (state : State) : Dump :=
  ⟨state.core.registers, state.cycles, state.status⟩

def note (event : Event) (state : State) : State :=
  { state with journal := state.journal.note event.level event }

def abort (state : State) : State :=
  { state with aborted := true }

def attach (state : State) : State :=
  { state with display := {} }

def isAttached (state : State) : Bool :=
  state.display.hasLink

def detach (state : State) : State :=
  { state with display := state.display.dropLink }

def onDisplay {α : Type} (work : StateM Display.Channel α) : StateM State α :=
  fun ⟨core, rom, config, cycles, status, aborted, display, journal⟩ =>
    let (value, display) := work display
    (value, ⟨core, rom, config, cycles, status, aborted, display, journal⟩)

def dismissDisplay (state : State) : State :=
  if state.isAttached then
    (onDisplay (Display.Channel.send .close) state).2.detach
  else
    state

/-- Shows a pixel. A display that is gone is detached, and without one the pixel is dropped. -/
def draw (pixel : Display.Pixel) (state : State) : State :=
  if state.isAttached then
    match onDisplay (Display.Channel.send (.pixel pixel)) state with
    | (true, state) => state
    | (false, state) => (state.note .displayGone).detach
  else
    state.note (.headless pixel)

def press (state : State) (press : Display.Press) : State :=
  let (button, down) := match press with
    | .down button => (button, true)
    | .up button => (button, false)
  if 7 < button then
    state.note (.unknownButton button)
  else
    { state with core := state.core.press button down }

def takeInput (state : State) : State :=
  if state.isAttached then
    let (presses, state) := onDisplay Display.Channel.poll state
    presses.foldl press state
  else
    state

end State

end WordMachine.Machine
