import WordMachine.Proofs.Machine.Threads

/-! The progress of threads: what their moves are to the machine, and what they have made sure of
when they come to a stage. -/
namespace WordMachine.Machine

/-- A machine that has faulted has halted. -/
private theorem State.status_of_error {state after : State} {report : FaultReport}
    (hstep : state.step = .error report after) : after.status = .halted := by
  by_cases hstatus : state.status = .running
  · obtain ⟨_, _, _, -, h⟩ | ⟨_, _, -, h⟩ | ⟨_, _, _, -, h⟩ := State.step_cases hstatus
    all_goals
      rw [hstep] at h
      cases h
    rfl
  · obtain ⟨final, hfinal, -⟩ := State.exists_of_not_running hstatus
    rw [hstep] at hfinal
    cases hfinal

def Loop.Exhausted (loop : Loop) (cycles : Nat) : Prop :=
  ∃ bound, loop.bound? = some bound ∧ bound ≤ cycles

/-- What a thread has made sure of at a stage: that its loop is over, that the machine has not
halted, or that it has. -/
def Stage.Fits (loop : Loop) (status : Status) (cycles : Nat) : Stage → Prop
  | .test => True
  | .status last => last = true → loop.Exhausted cycles
  | .flag last => status ≠ .halted ∧ (last = true → loop.Exhausted cycles)
  | .step => status ≠ .halted
  | .settle => loop.Exhausted cycles
  | .returned (.ok .halted) | .returned (.error _) => status = .halted
  | .returned (.ok .aborted) => status ≠ .halted
  | .returned (.ok .outOfCycles) => status ≠ .halted ∧ loop.Exhausted cycles

namespace Thread

variable {thread : Thread}

def Sound (thread : Thread) : Prop :=
  thread.stage.Fits thread.loop thread.state.status thread.state.cycles

/-- What every move keeps, any number of them keeps. -/
private theorem after_induct (holds : Thread → Prop) (hstart : holds thread)
    (hmove : ∀ thread move, holds thread → holds (thread.move move)) (moves : List Move) :
    holds (thread.after moves) := by
  induction moves generalizing thread with
  | nil => exact hstart
  | cons move moves ih => exact ih (hmove thread move hstart)

/-- What a thread does in one action: it steps the machine if that is due, and otherwise only the
stage and the loop change. -/
theorem act_cases (thread : Thread) :
    (thread.Steps ∧ ∃ next, (thread.stage = .step ∧ next = .test ∨
        thread.stage = .settle ∧ next = .status true) ∧ thread.act = takeStep next thread) ∨
      ¬ thread.Steps ∧ thread.act.state = thread.state ∧
        thread.act.loop.bound? = thread.loop.bound? := by
  obtain ⟨loop, stage, state⟩ := thread
  cases stage with
  | test =>
    refine .inr ⟨id, ?_⟩
    match loop with
    | .endless | .batches _ 0 | .batches _ (_ + 1) | .below _ => exact ⟨rfl, rfl⟩
  | status last | flag last | returned result => exact .inr ⟨id, rfl, rfl⟩
  | step => exact .inl ⟨trivial, .test, .inl ⟨rfl, rfl⟩, rfl⟩
  | settle =>
    by_cases h : state.status = .halting
    · exact .inl ⟨h, .status true, .inr ⟨rfl, rfl⟩, if_pos h⟩
    · have hact : act ⟨loop, .settle, state⟩ = ⟨loop, .status true, state⟩ := if_neg h
      rw [hact]
      exact .inr ⟨h, rfl, rfl⟩

theorem state_takeStep (next : Stage) (thread : Thread) :
    (takeStep next thread).state = State.behind thread.state.step := by
  obtain ⟨loop, stage, state⟩ := thread
  rw [takeStep]
  cases state.step <;> rfl

theorem stage_takeStep (next : Stage) (thread : Thread) : (takeStep next thread).stage = next ∨
    ∃ report, (takeStep next thread).stage = .returned (.error report) := by
  obtain ⟨loop, stage, state⟩ := thread
  rw [takeStep]
  cases state.step with
  | ok outcome after => exact .inl rfl
  | error report after => exact .inr ⟨report, rfl⟩

theorem loop_takeStep (next : Stage) (thread : Thread) :
    (takeStep next thread).loop = thread.loop := by
  obtain ⟨loop, stage, state⟩ := thread
  rw [takeStep]
  cases state.step <;> rfl

/-- A move is to the machine what its turns are. -/
theorem state_move (thread : Thread) (move : Move) :
    (thread.move move).state = thread.state.afterTurns (thread.turn move) := by
  cases move with
  | meanwhile incident => rfl
  | act =>
    obtain ⟨hsteps, next, -, hact⟩ | ⟨hsteps, hstate, -⟩ := act_cases thread
    · rw [turn, if_pos hsteps, Thread.move, hact, state_takeStep]
      rfl
    · rw [turn, if_neg hsteps, Thread.move, hstate]
      rfl

theorem state_after (thread : Thread) (moves : List Move) :
    (thread.after moves).state = thread.state.afterTurns (thread.turns moves) := by
  induction moves generalizing thread with
  | nil => rfl
  | cons move moves ih =>
    rw [Thread.turns, State.afterTurns_append, ← state_move]
    exact ih (thread.move move)

/-- A thread has the limit of its call. -/
theorem bound?_after (thread : Thread) (moves : List Move) :
    (thread.after moves).loop.bound? = thread.loop.bound? := by
  apply after_induct (·.loop.bound? = thread.loop.bound?) rfl
  intro other move hother
  cases move with
  | meanwhile incident => exact hother
  | act =>
    obtain ⟨-, next, -, hact⟩ | ⟨-, -, hbound⟩ := act_cases other
    · rw [Thread.move, hact, loop_takeStep, hother]
    · exact hbound.trans hother

private theorem sound_act (h : thread.Sound) : thread.act.Sound := by
  obtain ⟨loop, stage, state⟩ := thread
  cases stage with
  | test =>
    match loop with
    | .endless | .batches _ (_ + 1) => exact nofun
    | .batches _ 0 => trivial
    | .below bound =>
      rw [act, test]
      by_cases hlt : state.cycles < bound
      · rw [if_pos hlt]
        exact nofun
      · rw [if_neg hlt]
        exact ⟨bound, rfl, Nat.not_lt.mp hlt⟩
  | status last =>
    rw [act]
    by_cases hstatus : state.status = .halted
    · rw [if_pos hstatus]
      exact hstatus
    · rw [if_neg hstatus]
      exact ⟨hstatus, h⟩
  | flag last =>
    obtain ⟨hstatus, hlast⟩ := h
    rw [act]
    cases state.aborted with
    | true => exact hstatus
    | false =>
      cases last with
      | true => exact ⟨hstatus, hlast rfl⟩
      | false => exact hstatus
  | step =>
    rw [act, takeStep]
    cases hstep : state.step with
    | ok outcome after => trivial
    | error report after => exact State.status_of_error hstep
  | settle =>
    rw [act]
    by_cases hstatus : state.status = .halting
    · obtain ⟨final, hstep, -, hcycles⟩ := State.exists_of_not_running (by rw [hstatus]; decide)
      rw [if_pos hstatus, takeStep, hstep]
      intro _
      -- Carrying out a halt costs no cycle, and so the limit is used up as before.
      rw [hcycles]
      exact h
    · rw [if_neg hstatus]
      exact fun _ => h
  | returned result => exact h

theorem sound_move (h : thread.Sound) (move : Move) : (thread.move move).Sound := by
  cases move with
  | act => exact sound_act h
  | meanwhile incident =>
    obtain ⟨-, -, -, hcycles, hstatus⟩ := State.undisturbed_apply thread.state incident
    rw [Sound, Thread.move, hcycles, hstatus]
    exact h

theorem sound_after (h : thread.Sound) (moves : List Move) : (thread.after moves).Sound :=
  after_induct Sound h (fun _ move h => sound_move h move) moves

/-- A call that has returned says whether the machine has halted. -/
theorem result_of_sound {result : Except FaultReport Ending} (h : thread.Sound)
    (hstage : thread.stage = .returned result) :
    (thread.state.status = .halted → result = .ok .halted ∨ ∃ report, result = .error report) ∧
      (thread.state.status ≠ .halted → result = .ok .aborted ∨
        result = .ok .outOfCycles ∧ thread.loop.Exhausted thread.state.cycles) := by
  rw [Sound, hstage] at h
  match result with
  | .ok .halted => exact ⟨fun _ => .inl rfl, fun hne => absurd h hne⟩
  | .error report => exact ⟨fun _ => .inr ⟨report, rfl⟩, fun hne => absurd h hne⟩
  | .ok .aborted => exact ⟨fun hhalted => absurd hhalted h, fun _ => .inl rfl⟩
  | .ok .outOfCycles => exact ⟨fun hhalted => absurd hhalted h.1, fun _ => .inr ⟨rfl, h.2⟩⟩

end Thread

end WordMachine.Machine
