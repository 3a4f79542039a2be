import WordMachine.Proofs.Machine.Faults

/-! Ports are latches: each holds the value of the last output to it, and input from it delivers
that value, but from the port of the buttons it delivers the buttons. -/
namespace WordMachine

namespace Isa.Command

def readPort? : Command → Option UInt8
  | input _ port | inputRam _ port => some port
  | _ => none

def port? (command : Command) : Option UInt8 :=
  command.writtenPort?.or command.readPort?

def packsPort : Command → Bool
  | outputImmediate _ _ | outputRam _ _ | inputRam _ _ => true
  | _ => false

end Isa.Command

namespace Machine

open Isa (Command Register)

namespace View

/-- The port that a command writes, with the value. There is none if data memory does not have the
word that is to be written. -/
def sent? (view : View) : Command → Option (UInt8 × Word)
  | .output port rs => some (port, view.reg rs)
  | .outputImmediate port value => some (port, value)
  | .outputRam port offset => (view.ram.cells[view.address offset]?).map (port, ·)
  | _ => none

variable {view : View} {command : Command}

/-- A command writes the one port that it names for that, and leaves all others. -/
theorem port_perform : (view.perform command).view.port =
    (view.sent? command).elim view.port fun (port, value) =>
      Function.update view.port port value := by
  cases command with
  | output | outputImmediate => rfl
  | outputRam port offset =>
    rw [perform, reading, sent?]
    cases view.ram.cells[view.address offset]? <;> rfl
  | _ =>
    exact part_perform (·.port) (fun _ _ _ => rfl) (fun _ _ _ _ _ => rfl) (.inl rfl)

theorem writtenPort?_of_sent? {port : UInt8} {value : Word}
    (h : view.sent? command = some (port, value)) : command.writtenPort? = some port := by
  cases command with
  | output | outputImmediate =>
    cases h
    rfl
  | outputRam =>
    obtain ⟨_, -, ⟨⟩⟩ := Option.map_eq_some_iff.mp h
    rfl
  | _ => cases h

end View

def Executed.sent? (executed : Executed) : Option (UInt8 × Word) :=
  executed.view.sent? executed.command

namespace History

/-- The value of the last output to a port, zero if there was none. -/
def latched (history : History) (port : UInt8) : Word :=
  ((history.filterMap Executed.sent?).lookup port).getD 0

def delivered (history : History) (view : View) (port : UInt8) : Word :=
  if port = 0 then view.reg .inp else history.latched port

private theorem latched_cons (executed : Executed) (history : History) :
    latched (executed :: history) = executed.sent?.elim history.latched fun (port, value) =>
      Function.update history.latched port value := by
  funext port
  unfold latched
  rw [List.filterMap_cons]
  cases executed.sent? with
  | none => rfl
  | some output =>
    obtain ⟨written, value⟩ := output
    dsimp only [Option.elim_some]
    by_cases h : port = written
    · subst h
      rw [List.lookup_cons_self, Function.update_self, Option.getD_some]
    · rw [Function.update_of_ne h, List.lookup_cons, beq_false_of_ne h]

end History

/-- The machines that a program comes to while nobody meddles with its ports, each with what was
executed. Between two steps anything else may change. -/
inductive Latching (config : Config) (words : List CodeWord) : History → State → Prop
  | load {state : State} (h : State.load config words = .ok state) : Latching config words [] state
  | meanwhile {history : History} {state after : State} (h : Latching config words history state)
      (hports : after.core.ports = state.core.ports) : Latching config words history after
  | step {history : History} {state : State} (h : Latching config words history state) :
      Latching config words (state.executing ++ history) (State.behind state.step)

namespace State

variable {state : State} {history : History}

private theorem port_due (h : state.core.view.port = history.latched) :
    state.due.view.port = History.latched ((state.command?.map fun command =>
      ⟨command, state.core.view⟩).toList ++ history) := by
  cases hcommand : state.command? with
  | none =>
    obtain ⟨fault, hdue⟩ | hdue := due_of_command?_eq_none hcommand
    all_goals
      rw [hdue]
      exact h
  | some command =>
    rw [due_of_command? hcommand, View.port_perform, h]
    exact (History.latched_cons ⟨command, state.core.view⟩ history).symm

/-- A step leaves the ports that follow from the history with what it has executed. -/
private theorem port_step (h : state.core.port = history.latched) :
    (behind state.step).core.port = History.latched (state.executing ++ history) := by
  unfold executing
  by_cases hstatus : state.status = .running
  · rw [if_pos hstatus]
    have hview := congrArg View.port (view_of_undergoes (undergoes_due state hstatus))
    exact hview.trans (port_due (state.port_takeInput.trans h))
  · rw [if_neg hstatus, core_step_of_not_running hstatus]
    exact h

end State

variable {config : Config} {words : List CodeWord} {history : History} {state : State}

private theorem port_of_load (h : State.load config words = .ok state) (port : UInt8) :
    state.core.port port = 0 := by
  obtain ⟨-, rom, -, rfl⟩ := State.load_eq_ok.mp h
  simp [Core.port, Core.initial]

/-- A port holds the value of the last output to it. -/
private theorem port_of_latching (h : Latching config words history state) :
    state.core.port = history.latched := by
  induction h with
  | load h =>
    funext port
    exact port_of_load h port
  | meanwhile h hports ih =>
    rw [← ih]
    funext port
    simp only [Core.port, hports]
  | step h ih => exact State.port_step ih

/-- What a command reads from a port is what the history says, or the buttons. -/
private theorem portIn_of_latching (h : Latching config words history state) (port : UInt8) :
    state.takeInput.core.view.portIn port = history.delivered state.takeInput.core.view port := by
  have hport : state.takeInput.core.view.port = history.latched :=
    state.port_takeInput.trans (port_of_latching h)
  rw [View.portIn, hport, History.delivered]

/-- Input delivers to a register or to data memory. -/
theorem undergoes_of_latching (h : Latching config words history state)
    (hstatus : state.status = .running) :
    let view := state.takeInput.core.view
    (∀ rd port, state.command? = some (.input rd port) → state.takeInput.Undergoes
      (.passes (view.assign rd (history.delivered view port)).next none) state.step) ∧
    ∀ offset port, state.command? = some (.inputRam offset port) → state.takeInput.Undergoes
      (view.writing (view.address offset) (history.delivered view port) fun after =>
        .passes after.next none) state.step := by
  intro view
  constructor
  · intro rd port hcommand
    rw [← portIn_of_latching h]
    exact State.undergoes_perform hstatus hcommand
  · intro offset port hcommand
    rw [← portIn_of_latching h]
    exact State.undergoes_perform hstatus hcommand

end Machine

end WordMachine
