import Mathlib.Logic.Function.Iterate
import WordMachine.Proofs.Machine.Runs
import WordMachine.Proofs.Machine.Turns

/-! Threads that run a machine, one atomic action after the other. In between others can do what
they like around the machine; if nobody does, the calls return what the runs end in. -/
namespace WordMachine.Machine

inductive Call
  | endless
  | paced (tempo : Tempo)
  | limited (limit : Nat)

inductive Loop
  | endless
  /-- Steps are counted down in batches. -/
  | batches (tempo : Tempo) (left : Nat)
  /-- Steps are taken while the machine has executed fewer instructions. -/
  | below (bound : Nat)

def Loop.bound? : Loop → Option Nat
  | .endless | .batches _ _ => none
  | .below bound => some bound

def Call.loop (state : State) : Call → Loop
  | endless => .endless
  | paced tempo => .batches tempo tempo.batch
  | limited limit => .below (min (state.cycles + limit) State.maxCycles)

/-- The next action of a thread. Whether the run is over is asked in two actions, in front of each
step and once more at the end of a limit. -/
inductive Stage
  | test
  | status (last : Bool)
  | flag (last : Bool)
  | step
  | settle
  | returned (result : Except FaultReport Ending)

structure Thread where
  loop : Loop
  stage : Stage
  state : State

inductive Move
  | act
  | meanwhile (incident : Incident)
  deriving DecidableEq

namespace Thread

def start (call : Call) (state : State) : Thread :=
  ⟨call.loop state, .test, state⟩

def takeStep (next : Stage) : Thread → Thread
  | ⟨loop, _, state⟩ =>
    match state.step with
    | .ok _ state => ⟨loop, next, state⟩
    | .error report state => ⟨loop, .returned (.error report), state⟩

/-- Tests whether the loop goes on. Behind a batch the thread waits and begins another. -/
def test (state : State) : Loop → Thread
  | .endless => ⟨.endless, .status false, state⟩
  | .batches tempo 0 => ⟨.batches tempo tempo.batch, .test, state⟩
  | .batches tempo (left + 1) => ⟨.batches tempo left, .status false, state⟩
  | .below bound =>
    ⟨.below bound, if state.cycles < bound then .status false else .settle, state⟩

def act : Thread → Thread
  | ⟨loop, .test, state⟩ => test state loop
  | ⟨loop, .status last, state⟩ =>
    ⟨loop, if state.status = .halted then .returned (.ok .halted) else .flag last, state⟩
  | ⟨loop, .flag last, state⟩ =>
    ⟨loop, if state.aborted then .returned (.ok .aborted)
      else if last then .returned (.ok .outOfCycles) else .step, state⟩
  | ⟨loop, .step, state⟩ => takeStep .test ⟨loop, .step, state⟩
  | ⟨loop, .settle, state⟩ =>
    if state.status = .halting then takeStep (.status true) ⟨loop, .settle, state⟩
    else ⟨loop, .status true, state⟩
  | ⟨loop, .returned result, state⟩ => ⟨loop, .returned result, state⟩

def move : Thread → Move → Thread
  | thread, .act => thread.act
  | ⟨loop, stage, state⟩, .meanwhile incident => ⟨loop, stage, incident.apply state⟩

def after (thread : Thread) (moves : List Move) : Thread :=
  moves.foldl move thread

def Steps (thread : Thread) : Prop :=
  match thread.stage with
  | .step => True
  | .settle => thread.state.status = .halting
  | _ => False

instance (thread : Thread) : Decidable thread.Steps := by
  unfold Steps
  split <;> infer_instance

def turn (thread : Thread) : Move → List Turn
  | .act => if thread.Steps then [.step] else []
  | .meanwhile incident => [.incident incident]

def turns : Thread → List Move → List Turn
  | _, [] => []
  | thread, move :: rest => thread.turn move ++ (thread.move move).turns rest

def result? : Thread → Option (EStateM.Result FaultReport State Ending)
  | ⟨_, .returned (.ok ending), state⟩ => some (.ok ending state)
  | ⟨_, .returned (.error report), state⟩ => some (.error report state)
  | _ => none

/-- Whether a call that nobody disturbs returns, and what. -/
def Returns (thread : Thread) (result : EStateM.Result FaultReport State Ending) : Prop :=
  ∃ count, (act^[count] thread).result? = some result

variable {thread : Thread} {loop : Loop} {stage next : Stage} {state : State} {last : Bool}
  {result other : EStateM.Result FaultReport State Ending} {count more : Nat}

private theorem act_of_result? (h : thread.result? = some result) : thread.act = thread := by
  obtain ⟨loop, stage, state⟩ := thread
  cases stage with
  | returned result => rfl
  | _ => cases h

/-- A call that has returned does nothing more. -/
private theorem result?_iterate_act (h : (act^[count] thread).result? = some result)
    (hle : count ≤ more) :
    (act^[more] thread).result? = some result := by
  obtain ⟨rest, rfl⟩ := Nat.exists_eq_add_of_le hle
  rw [Nat.add_comm, Function.iterate_add_apply, Function.iterate_fixed (act_of_result? h)]
  exact h

private theorem returns_iterate_act (count : Nat) :
    (act^[count] thread).Returns result ↔ thread.Returns result := by
  constructor
  · rintro ⟨more, h⟩
    rw [← Function.iterate_add_apply] at h
    exact ⟨more + count, h⟩
  · rintro ⟨more, h⟩
    refine ⟨more, ?_⟩
    rw [← Function.iterate_add_apply]
    exact result?_iterate_act h (Nat.le_add_right more count)

private theorem returns_act : thread.act.Returns result ↔ thread.Returns result :=
  returns_iterate_act 1

private theorem returns_of_result? (h : thread.result? = some other) :
    thread.Returns result ↔ other = result := by
  constructor
  · rintro ⟨count, hcount⟩
    rw [Function.iterate_fixed (act_of_result? h), h] at hcount
    exact Option.some.inj hcount
  · rintro rfl
    exact ⟨0, h⟩

/-- The two actions that ask whether a run is over. -/
private theorem exists_iterate_status (loop : Loop) (last : Bool) (state : State) :
    ∃ count, act^[count] ⟨loop, .status last, state⟩ = ⟨loop, match state.ending? with
      | some ending => .returned (.ok ending)
      | none => if last then .returned (.ok .outOfCycles) else .step, state⟩ := by
  refine ⟨2, ?_⟩
  change act (act ⟨loop, .status last, state⟩) = _
  rw [act, State.ending?]
  by_cases hstatus : state.status = .halted
  · rw [if_pos hstatus, if_pos hstatus]
    rfl
  · rw [if_neg hstatus, if_neg hstatus, act]
    cases state.aborted <;> rfl

private theorem returns_takeStep : (takeStep next ⟨loop, stage, state⟩).Returns result ↔
    match state.step with
    | .ok _ after => (⟨loop, next, after⟩ : Thread).Returns result
    | .error report after => .error report after = result := by
  rw [takeStep]
  cases state.step with
  | ok outcome after => rfl
  | error report after => exact returns_of_result? rfl

/-- Behind the limit of a run its end is settled. -/
private theorem returns_settle : (⟨loop, .settle, state⟩ : Thread).Returns result ↔
    state.settled = result := by
  have hlast (state : State) : (⟨loop, .status true, state⟩ : Thread).Returns result ↔
      .ok (state.ending?.getD .outOfCycles) state = result := by
    obtain ⟨count, hcount⟩ := exists_iterate_status loop true state
    rw [← returns_iterate_act count, hcount]
    cases state.ending? <;> exact returns_of_result? rfl
  rw [← returns_act, act, State.settled]
  by_cases hstatus : state.status = .halting
  · obtain ⟨final, hstep, -⟩ := State.exists_of_not_running (by rw [hstatus]; decide)
    rw [if_pos hstatus, if_pos hstatus, returns_takeStep, hstep]
    exact hlast final
  · rw [if_neg hstatus, if_neg hstatus]
    exact hlast state

/-- A limit counts cycles, of which each step takes one unless the machine halts. -/
private theorem returns_below (bound : Nat) :
    (⟨.below bound, .test, state⟩ : Thread).Returns result ↔
    State.limited (State.runWithin (bound - state.cycles) state) = result := by
  obtain ⟨steps, hsteps⟩ : ∃ steps, steps = bound - state.cycles := ⟨_, rfl⟩
  rw [← hsteps]
  induction steps generalizing state with
  | zero =>
    rw [← returns_act, act, test, if_neg (by omega), returns_settle]
    rfl
  | succ steps ih =>
    obtain ⟨count, hcount⟩ := exists_iterate_status (.below bound) false state
    rw [← returns_act, act, test, if_pos (by omega), ← returns_iterate_act count, hcount,
      State.runWithin_succ]
    cases hending : state.ending? with
    | some ending => exact returns_of_result? rfl
    | none =>
      dsimp only
      rw [if_neg (by decide), ← returns_act, act, returns_takeStep]
      by_cases hstatus : state.status = .running
      · cases hstep : state.step with
        | ok outcome after =>
          have hcycles := (State.counts_of_step hstatus hstep).1
          exact ih (by omega)
        | error report after => rfl
      · -- The machine has halted behind this step, and has done nothing that counts.
        obtain ⟨final, hstep, hhalted, hcycles⟩ := State.exists_of_not_running hstatus
        obtain ⟨again, hagain⟩ := exists_iterate_status (.below bound) false final
        rw [hstep]
        dsimp only
        rw [State.limited_of_halted hhalted, ← returns_act, act, test, if_pos (by omega),
          ← returns_iterate_act again, hagain, State.ending?_of_halted hhalted]
        exact returns_of_result? rfl

/-- A loop without a limit comes to each step. -/
private theorem exists_iterate_test (h : loop.bound? = none) (state : State) : ∃ count later,
    later.bound? = none ∧ act^[count] ⟨loop, .test, state⟩ = ⟨later, .status false, state⟩ := by
  match loop with
  | .endless => exact ⟨1, .endless, rfl, rfl⟩
  | .batches tempo (left + 1) => exact ⟨1, .batches tempo left, rfl, rfl⟩
  | .batches tempo 0 =>
    obtain ⟨left, hleft⟩ := Nat.exists_eq_add_of_lt tempo.batch_pos
    refine ⟨2, .batches tempo left, rfl, ?_⟩
    change act ⟨.batches tempo tempo.batch, .test, state⟩ = _
    rw [act, hleft, Nat.zero_add]
    rfl

/-- Without a limit, the actions of a call come to what its steps come to. -/
private theorem exists_iterate_runWithin (h : loop.bound? = none) (steps : Nat) (state : State) :
    ∃ count, steps ≤ count ∧ match State.runWithin steps state with
      | .ok none after => ∃ later : Loop, later.bound? = none ∧
          act^[count] ⟨loop, .test, state⟩ = ⟨later, .test, after⟩
      | ended => (act^[count] ⟨loop, .test, state⟩).result? = State.ended? ended := by
  induction steps generalizing loop state with
  | zero => exact ⟨0, Nat.le_refl 0, loop, h, rfl⟩
  | succ steps ih =>
    -- A round is the test of the loop, a look at status and flag, and a step if nothing ends the run.
    obtain ⟨first, later, hlater, hfirst⟩ := exists_iterate_test h state
    obtain ⟨second, hsecond⟩ := exists_iterate_status later false state
    have hround := Function.iterate_add_apply act second first ⟨loop, .test, state⟩
    rw [hfirst, hsecond] at hround
    rw [State.runWithin_succ]
    cases hending : state.ending? with
    | some ending =>
      rw [hending] at hround
      have hresult : (act^[second + first] ⟨loop, .test, state⟩).result? =
          some (.ok ending state) := by
        rw [hround]
        rfl
      exact ⟨steps + 1 + (second + first), Nat.le_add_right _ _,
        result?_iterate_act hresult (Nat.le_add_left _ _)⟩
    | none =>
      rw [hending] at hround
      have hstep : act^[1 + (second + first)] ⟨loop, .test, state⟩ =
          takeStep .test ⟨later, .step, state⟩ := by
        rw [Function.iterate_add_apply, hround]
        rfl
      dsimp only
      cases hnext : state.step with
      | ok outcome after =>
        rw [takeStep, hnext] at hstep
        obtain ⟨count, hcount, hrest⟩ := ih hlater after
        refine ⟨count + (1 + (second + first)), by omega, ?_⟩
        rw [Function.iterate_add_apply act count, hstep]
        exact hrest
      | error report after =>
        have hresult : (act^[1 + (second + first)] ⟨loop, .test, state⟩).result? =
            some (.error report after) := by
          rw [hstep, takeStep, hnext]
          rfl
        exact ⟨steps + 1 + (1 + (second + first)), Nat.le_add_right _ _,
          result?_iterate_act hresult (Nat.le_add_left _ _)⟩

/-- A loop without a limit returns what the machine ends in. -/
theorem returns_unlimited (h : loop.bound? = none) :
    (⟨loop, .test, state⟩ : Thread).Returns result ↔ state.EndsIn result := by
  constructor
  · rintro ⟨steps, hsteps⟩
    refine ⟨steps, ?_⟩
    obtain ⟨count, hle, hrun⟩ := exists_iterate_runWithin h steps state
    have hcount := result?_iterate_act hsteps hle
    cases hends : State.runWithin steps state with
    | error report after =>
      rw [hends] at hrun
      exact hrun.symm.trans hcount
    | ok ending? after =>
      rw [hends] at hrun
      cases ending? with
      | some ending => exact hrun.symm.trans hcount
      | none =>
        obtain ⟨later, -, hlater⟩ := hrun
        rw [hlater] at hcount
        cases hcount
  · rintro ⟨steps, hsteps⟩
    obtain ⟨count, -, hrun⟩ := exists_iterate_runWithin h steps state
    refine ⟨count, ?_⟩
    cases hends : State.runWithin steps state with
    | error report after =>
      rw [hends] at hrun hsteps
      exact hrun.trans hsteps
    | ok ending? after =>
      rw [hends] at hrun hsteps
      cases ending? with
      | some ending => exact hrun.trans hsteps
      | none => cases hsteps

/-- A call that nobody disturbs returns what its run ends in. -/
theorem returns_start (call : Call) (state : State)
    (result : EStateM.Result FaultReport State Ending) :
    (start call state).Returns result ↔ match call with
      | .endless => state.EndsIn result
      | .paced tempo => state.EndsAt tempo result
      | .limited limit => State.runCycles limit state = result := by
  cases call with
  | endless => exact returns_unlimited rfl
  | paced tempo => exact (returns_unlimited rfl).trans (State.endsAt_iff tempo).symm
  | limited limit =>
    change _ ↔ State.runCycles limit state = result
    rw [State.runCycles_eq]
    exact returns_below _

end Thread

end WordMachine.Machine
