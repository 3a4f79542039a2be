import Mathlib.Data.List.Induction
import WordMachine.Proofs.Machine.Arising

/-! Runs as sequences of turns: the machine takes a step, or something happens around it. -/
namespace WordMachine.Machine

open Display (Channel Message Pixel Press)

/-- What can happen between two steps. The owner of the machine attaches a display, detaches it,
tells it to close or asks for the end of the run; the display presses a button, reads a message or
goes away. -/
inductive Incident
  | attach | detach | dismiss | abort
  | press (press : Press) | receive | leave
  deriving DecidableEq

/-- The machine behind an incident. A display that has gone away presses no button. -/
def Incident.apply (state : State) : Incident → State
  | attach => state.attach
  | detach => state.detach
  | dismiss => state.dismissDisplay
  | abort => state.abort
  | press sent =>
    if state.display.hasEndpoint then (State.onDisplay (Channel.press sent) state).2 else state
  | receive => (State.onDisplay Channel.receive state).2
  | leave => { state with display := state.display.dropEndpoint }

def Incident.keepsLink : Incident → Bool
  | attach | detach | dismiss => false
  | abort | press _ | receive | leave => true

inductive Turn
  | step
  | incident (incident : Incident)
  deriving DecidableEq

namespace Turn

def apply (state : State) : Turn → State
  | step => State.behind state.step
  | incident other => other.apply state

def keepsLink : Turn → Bool
  | step => true
  | incident other => other.keepsLink

end Turn

/-- The pixel that an effect shows. -/
def Effect.pixel? : Effect → Option Pixel
  | .passes _ pixel => pixel
  | .halts _ | .faults _ _ => none

namespace State

variable {α : Type}

def told : EStateM.Result FaultReport State α → Except FaultReport α
  | .ok value _ => .ok value
  | .error report _ => .error report

def afterTurns (state : State) (turns : List Turn) : State :=
  turns.foldl Turn.apply state

/-- What one sees who looks at every turn and at the machine in front of it. -/
def collect (look : State → Turn → List α) (state : State) : List Turn → List α
  | [] => []
  | turn :: rest => look state turn ++ collect look (turn.apply state) rest

/-- The machines that take the steps, each as it is in front of its step. -/
def stepping : State → List Turn → List State :=
  collect fun state turn => if turn = .step then [state] else []

variable {state : State}

theorem afterTurns_append (turns more : List Turn) :
    state.afterTurns (turns ++ more) = (state.afterTurns turns).afterTurns more :=
  List.foldl_append

private theorem collect_append (look : State → Turn → List α) (turns more : List Turn) :
    state.collect look (turns ++ more) =
      state.collect look turns ++ (state.afterTurns turns).collect look more := by
  induction turns generalizing state with
  | nil => rfl
  | cons turn rest ih =>
    rw [List.cons_append, collect, ih, collect, List.append_assoc]
    rfl

theorem stepping_step (turns : List Turn) :
    state.stepping (.step :: turns) = state :: (behind state.step).stepping turns := rfl

theorem stepping_incident (incident : Incident) (turns : List Turn) :
    state.stepping (.incident incident :: turns) = (incident.apply state).stepping turns := rfl

private theorem stepping_append_step (turns : List Turn) :
    state.stepping (turns ++ [.step]) = state.stepping turns ++ [state.afterTurns turns] :=
  collect_append _ turns [.step]

private theorem stepping_append_incident (turns : List Turn) (incident : Incident) :
    state.stepping (turns ++ [.incident incident]) = state.stepping turns :=
  (collect_append _ turns [.incident incident]).trans (List.append_nil _)

/-- What every turn keeps, any number of them keeps. -/
theorem afterTurns_induct (holds : State → Prop) {turns : List Turn} (hstart : holds state)
    (hturn : ∀ state, ∀ turn ∈ turns, holds state → holds (turn.apply state)) :
    holds (state.afterTurns turns) := by
  induction turns generalizing state with
  | nil => exact hstart
  | cons turn rest ih =>
    exact ih (hturn state turn List.mem_cons_self hstart)
      fun state other hmem => hturn state other (List.mem_cons_of_mem _ hmem)

/-- Nothing that happens around a machine touches its core, its programs or its clock. -/
theorem undisturbed_apply (state : State) (happening : Incident) :
    state.Undisturbed (happening.apply state) := by
  cases happening with
  | dismiss => exact undisturbed_dismissDisplay state
  | press sent =>
    rw [Incident.apply]
    split <;> exact ⟨rfl, rfl, rfl, rfl, rfl⟩
  | _ => exact ⟨rfl, rfl, rfl, rfl, rfl⟩

/-- What every step keeps, and everything that leaves the machine itself alone, holds behind any
number of turns. -/
theorem stepping_induct (holds : List State → State → Prop) (hstart : holds [] state)
    (hstep : ∀ stepped state, holds stepped state →
      holds (stepped ++ [state]) (behind state.step))
    (hmeanwhile : ∀ stepped state after, holds stepped state → state.Undisturbed after →
      holds stepped after)
    (turns : List Turn) : holds (state.stepping turns) (state.afterTurns turns) := by
  induction turns using List.reverseRecOn with
  | nil => exact hstart
  | append_singleton turns turn ih =>
    rw [afterTurns_append]
    cases turn with
    | step =>
      rw [stepping_append_step]
      exact hstep _ _ ih
    | incident happening =>
      rw [stepping_append_incident]
      exact hmeanwhile _ _ _ ih (undisturbed_apply _ happening)

/-- The channel behind the end of a machine: a display that is attached is told to close, and its
link is dropped. -/
def dismissed (channel : Channel) : Channel :=
  if channel.hasLink then (channel.send .close).2.dropLink else channel

theorem dismissDisplay_eq (state : State) :
    state.dismissDisplay = { state with display := dismissed state.display } := by
  unfold dismissDisplay dismissed
  by_cases h : state.display.hasLink = true
  · rw [if_pos (show state.isAttached = true from h), if_pos h]
    rfl
  · rw [if_neg (show ¬ state.isAttached = true from h), if_neg h]

theorem step_of_halted (hstatus : state.status = .halted) : state.step = .ok .halted state := by
  rw [step, hstatus]

theorem step_of_halting (hstatus : state.status = .halting) : state.step = .ok .halted
    { state with status := .halted, display := dismissed state.display } := by
  rw [step, hstatus]
  exact congrArg (EStateM.Result.ok Outcome.halted) (dismissDisplay_eq _)

/-- A step of a machine that runs ends in one of three ways, and keeps everything that is not named
here. -/
theorem step_cases (hstatus : state.status = .running) :
    (∃ core pixel journal, state.takeInput.due = .passes core.view pixel ∧
      state.step = .ok .normal { state with
        core, display := shown state.takeInput.display pixel, cycles := state.cycles + 1,
        journal }) ∨
    (∃ core journal, state.takeInput.due = .halts core.view ∧
      state.step = .ok .halting { state with
        core, display := state.takeInput.display, status := .halting, cycles := state.cycles + 1,
        journal }) ∨
    ∃ fault core journal, state.takeInput.due = .faults fault core.view ∧
      let after := { state with
        core, display := state.takeInput.display, status := .halted, journal }
      state.step = .error ⟨fault, after.dump⟩ after := by
  obtain ⟨registers, display, journal, heq, -⟩ := state.sameButButtons_takeInput
  have hcases := undergoes_cases (undergoes_due state hstatus)
  rw [heq] at hcases ⊢
  exact hcases

/-- The display of a machine that runs is shown the pixel that is due, behind the input. -/
theorem display_step (hstatus : state.status = .running) : (behind state.step).display =
    shown state.takeInput.display state.takeInput.due.pixel? := by
  obtain ⟨_, _, _, hdue, hstep⟩ | ⟨_, _, hdue, hstep⟩ | ⟨_, _, _, hdue, hstep⟩ :=
    step_cases hstatus <;>
  · rw [hstep, hdue]
    rfl

theorem presses_dismissed {channel : Channel} (h : channel.presses = #[]) :
    (dismissed channel).presses = #[] := by
  unfold dismissed
  split
  · rfl
  · exact h

theorem presses_shown {channel : Channel} (h : channel.presses = #[]) (pixel : Option Pixel) :
    (shown channel pixel).presses = #[] := by
  cases pixel with
  | none => exact h
  | some pixel =>
    unfold shown
    dsimp only
    split
    · split
      · exact h
      · rfl
    · exact h

/-- A machine that has halted stays as it is in every step, and halted whatever happens. -/
theorem halted_afterTurns (hstatus : state.status = .halted) (turns : List Turn) :
    (state.afterTurns turns).status = .halted := by
  apply afterTurns_induct (·.status = .halted) hstatus
  intro state turn hmem hstatus
  cases turn with
  | step =>
    rw [Turn.apply, step_of_halted hstatus]
    exact hstatus
  | incident incident => exact (undisturbed_apply state incident).2.2.2.2.trans hstatus

end State

end WordMachine.Machine
