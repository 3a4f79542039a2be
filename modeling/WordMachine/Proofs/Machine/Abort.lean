import WordMachine.Proofs.Machine.Progress

/-! The end that somebody asks for comes at an instruction boundary, with no more than one
instruction behind the question. -/
namespace WordMachine.Machine

namespace State

variable {state : State}

def stepped (count : Nat) (state : State) : State :=
  (fun state => behind state.step)^[count] state

private theorem draw_abort (pixel : Display.Pixel) (state : State) :
    state.abort.draw pixel = (state.draw pixel).abort := by
  unfold draw
  by_cases h : state.isAttached = true
  · have h' : state.abort.isAttached = true := h
    rw [if_pos h, if_pos h']
    unfold onDisplay abort
    dsimp only
    cases (Display.Channel.send (.pixel pixel) state.display).1 <;> rfl
  · have h' : ¬ state.abort.isAttached = true := h
    rw [if_neg h, if_neg h']
    rfl

private theorem press_abort (press : Display.Press) (state : State) :
    state.abort.press press = (state.press press).abort := by
  unfold State.press
  cases press <;> dsimp only <;> split <;> rfl

private theorem takeInput_abort (state : State) :
    state.abort.takeInput = state.takeInput.abort := by
  have hfoldl (presses : List Display.Press) (state : State) :
      presses.foldl press state.abort = (presses.foldl press state).abort := by
    induction presses generalizing state with
    | nil => rfl
    | cons press presses ih => rw [List.foldl_cons, press_abort, ih, List.foldl_cons]
  unfold takeInput
  by_cases h : state.isAttached = true
  · have h' : state.abort.isAttached = true := h
    rw [if_pos h, if_pos h']
    exact hfoldl state.display.presses.toList { state with display := state.display.poll.2 }
  · have h' : ¬ state.abort.isAttached = true := h
    rw [if_neg h, if_neg h']

private theorem conclude_abort (state : State) (ip : Word) (signal : Signal) :
    (state.abort.conclude ip signal).2 = (state.conclude ip signal).2.abort := by
  cases signal with
  | pixel pixel => exact congrArg advance (draw_abort pixel state)
  | _ => rfl

private theorem obey_abort (state : State) (ip : Word) (instruction : Isa.Instruction) :
    behind (obey ip instruction state.abort) = (behind (obey ip instruction state)).abort := by
  unfold obey onCore
  dsimp only [abort]
  cases execute instruction state.core with
  | ok signal core => exact conclude_abort { state with core } ip signal
  | error fault core => rfl

private theorem traced_abort (state : State) (ip : Word) (instruction : Isa.Instruction) :
    state.abort.traced ip instruction = (state.traced ip instruction).abort := by
  unfold traced
  by_cases h : state.config.trace = true
  · rw [if_pos h]
    exact if_pos h
  · rw [if_neg h]
    exact if_neg h

/-- A step neither reads nor changes whether somebody has asked for the end, so that it makes no
difference when in its course one does. -/
private theorem behind_step_abort (state : State) :
    behind state.abort.step = (behind state.step).abort := by
  have hsame : state.abort.status = state.status := rfl
  cases hstatus : state.status with
  | halted => rw [step_of_halted hstatus, step_of_halted (hsame.trans hstatus)]; rfl
  | halting => rw [step_of_halting hstatus, step_of_halting (hsame.trans hstatus)]; rfl
  | running =>
    have hstep : state.step = cycle state.takeInput := by rw [step, hstatus]
    have habort : state.abort.step = cycle state.abort.takeInput := by
      rw [step, hsame, hstatus]
    rw [hstep, habort, takeInput_abort, cycle, cycle]
    have hread : state.takeInput.abort.rom = state.takeInput.rom := rfl
    have hip : state.takeInput.abort.core = state.takeInput.core := rfl
    rw [hread, hip]
    cases state.takeInput.rom.read (state.takeInput.core.registers.get .ip).toNat with
    | error violation => rfl
    | ok word =>
      dsimp only
      rw [traced_abort, obey_abort]

private theorem stepped_abort (count : Nat) (state : State) :
    state.abort.stepped count = (state.stepped count).abort := by
  have hcommute : Function.Commute (fun state => behind state.step) abort := behind_step_abort
  exact (hcommute.iterate_left count).eq state

private theorem aborted_step (state : State) : (behind state.step).aborted = state.aborted := by
  cases hstatus : state.status with
  | halted => rw [step_of_halted hstatus]; rfl
  | halting => rw [step_of_halting hstatus]; rfl
  | running =>
    obtain ⟨_, _, _, -, h⟩ | ⟨_, _, -, h⟩ | ⟨_, _, _, -, h⟩ := step_cases hstatus
    all_goals
      rw [h]
      rfl

/-- Nobody takes back that the end has been asked for. -/
private theorem aborted_afterTurns (h : state.aborted = true) (turns : List Turn) :
    (state.afterTurns turns).aborted = true := by
  apply afterTurns_induct (·.aborted = true) h
  intro state turn _ h
  cases turn with
  | step => exact (aborted_step state).trans h
  | incident incident =>
    cases incident with
    | abort => rfl
    | dismiss => rw [Turn.apply, Incident.apply, dismissDisplay_eq]; exact h
    | press sent => rw [Turn.apply, Incident.apply]; split <;> exact h
    | _ => exact h

/-- Turns in which nothing happens around the machine are steps. -/
private theorem afterTurns_of_steps {turns : List Turn} (h : ∀ turn ∈ turns, turn = .step)
    (state : State) : state.afterTurns turns = state.stepped (turns.count .step) := by
  induction turns generalizing state with
  | nil => rfl
  | cons turn rest ih =>
    obtain ⟨rfl, hrest⟩ := List.forall_mem_cons.mp h
    rw [List.count_cons_self]
    exact ih hrest (behind state.step)

end State

def Stage.isPastFlag : Stage → Bool
  | .step | .returned (.ok .outOfCycles) => true
  | _ => false

/-- Only a call for a number of cycles has a limit. -/
private theorem Call.exists_limit {call : Call} {state : State} {bound : Nat}
    (h : (call.loop state).bound? = some bound) : ∃ limit, call = .limited limit ∧
      min (state.cycles + limit) State.maxCycles = bound := by
  cases call with
  | limited limit => exact ⟨limit, rfl, Option.some.inj h⟩
  | _ => cases h

/-- The number of actions from the test of a loop on in which a call returns when the end has been
asked for. -/
def Loop.due : Loop → Nat
  | .endless | .batches _ (_ + 1) => 3
  | .batches _ 0 | .below _ => 4

def Stage.due (loop : Loop) : Stage → Nat
  | .test => loop.due
  | .status _ => 2
  | .flag _ => 1
  | .step => 5
  | .settle => 3
  | .returned _ => 0

namespace Thread

variable {thread : Thread} {moves more : List Move} {turns : List Turn}

def Done (thread : Thread) : Prop :=
  match thread.stage with
  | .status last | .flag last => last = true
  | .returned _ => True
  | _ => False

private theorem done_move (h : thread.Done) (move : Move) : (thread.move move).Done := by
  cases move with
  | meanwhile incident => exact h
  | act =>
    obtain ⟨loop, stage, state⟩ := thread
    cases stage with
    | status last =>
      obtain rfl : last = true := h
      rw [Thread.move, act]
      split
      · trivial
      · rfl
    | flag last =>
      obtain rfl : last = true := h
      rw [Thread.move, act]
      cases state.aborted <;> trivial
    | returned result => trivial
    | _ => exact h.elim

private theorem turn_of_done (h : thread.Done) (move : Move) :
    (thread.turn move).count .step = 0 := by
  have hsteps : ¬ thread.Steps := by
    intro hsteps
    obtain ⟨loop, stage, state⟩ := thread
    cases stage with
    | step | settle => exact h
    | _ => exact hsteps
  cases move with
  | meanwhile incident => rfl
  | act => rw [turn, if_neg hsteps]; rfl

private theorem turns_of_done (h : thread.Done) (moves : List Move) :
    (thread.turns moves).count .step = 0 := by
  induction moves generalizing thread with
  | nil => rfl
  | cons move moves ih =>
    rw [Thread.turns, List.count_append, turn_of_done h, ih (done_move h move)]

/-- Whether the turns of a machine carry out, behind a number of steps, a halt that is pending when
all cycles of a limit have passed, and take no step behind it. -/
def Settles (bound : Nat) (state : State) (steps : Nat) (turns : List Turn) : Prop :=
  ∃ first last, turns = first ++ .step :: last ∧ first.count .step = steps ∧
    last.count .step = 0 ∧ (state.afterTurns first).status = .halting ∧
    bound ≤ (state.afterTurns first).cycles

private theorem settles_cons {bound steps : Nat} {state : State} (turn : Turn)
    (h : Settles bound (turn.apply state) steps turns) :
    Settles bound state (steps + if turn = .step then 1 else 0) (turn :: turns) := by
  obtain ⟨first, last, rfl, rfl, hlast, hhalting, hle⟩ := h
  refine ⟨turn :: first, last, rfl, ?_, hlast, hhalting, hle⟩
  rw [List.count_cons]
  simp

/-- A halt that was pending has been carried out. -/
private theorem halted_of_settles {bound steps : Nat} {state : State}
    (h : Settles bound state steps turns) :
    (state.afterTurns turns).status = .halted := by
  obtain ⟨first, last, rfl, -, -, hhalting, -⟩ := h
  rw [State.afterTurns_append]
  refine State.halted_afterTurns ?_ last
  rw [Turn.apply, State.step_of_halting hhalting]
  rfl

private theorem aborted_move (haborted : thread.state.aborted = true) (move : Move) :
    (thread.move move).state.aborted = true := by
  rw [state_move]
  exact State.aborted_afterTurns haborted _

/-- A thread that looks at the flag when it is set neither goes on to a step nor returns that its
cycles are used up. -/
private theorem stage_act_cases (haborted : thread.state.aborted = true) :
    (∃ result, thread.stage = .returned result ∧ thread.act.stage = .returned result) ∨
      thread.act.stage.isPastFlag = false := by
  have htakeStep (thread : Thread) {next : Stage} (hnext : next.isPastFlag = false) :
      (takeStep next thread).stage.isPastFlag = false := by
    rcases stage_takeStep next thread with hstage | ⟨report, hstage⟩
    · rw [hstage]
      exact hnext
    · rw [hstage]
      rfl
  obtain ⟨loop, stage, state⟩ := thread
  cases stage with
  | returned result => exact .inl ⟨result, rfl, rfl⟩
  | test =>
    match loop with
    | .endless | .batches _ 0 | .batches _ (_ + 1) => exact .inr rfl
    | .below bound =>
      rw [act, test]
      split <;> exact .inr rfl
  | status last =>
    rw [act]
    split <;> exact .inr rfl
  | flag last =>
    rw [act, if_pos haborted]
    exact .inr rfl
  | step => exact .inr (htakeStep ⟨loop, .step, state⟩ rfl)
  | settle =>
    rw [act]
    split
    · exact .inr (htakeStep ⟨loop, .settle, state⟩ rfl)
    · exact .inr rfl

private theorem stage_act (haborted : thread.state.aborted = true) : thread.act.stage ≠ .step := by
  intro hstep
  obtain ⟨result, -, hact⟩ | hflag := stage_act_cases haborted
  · rw [hstep] at hact
    cases hact
  · rw [hstep] at hflag
    cases hflag

private theorem done_act_of_settle (hstage : thread.stage = .settle) : thread.act.Done := by
  obtain ⟨loop, stage, state⟩ := thread
  obtain rfl : stage = .settle := hstage
  rw [act, takeStep]
  split
  · cases state.step <;> trivial
  · rfl

/-- When the end has been asked for, a thread that is not about to step takes no more step, except
one that carries out a halt behind its limit. -/
private theorem turns_of_aborted (haborted : thread.state.aborted = true) (hsound : thread.Sound)
    (hstage : thread.stage ≠ .step) (moves : List Move) :
    (thread.turns moves).count .step = 0 ∨ ∃ bound, thread.loop.bound? = some bound ∧
      Settles bound thread.state 0 (thread.turns moves) := by
  induction moves generalizing thread with
  | nil => exact .inl rfl
  | cons move moves ih =>
    have hmoved : (thread.move move).Sound := sound_move hsound move
    rw [Thread.turns]
    cases move with
    | meanwhile incident =>
      rcases ih (aborted_move haborted _) hmoved hstage with hnone | ⟨bound, hbound, hsettles⟩
      · exact .inl hnone
      · exact .inr ⟨bound, hbound, settles_cons (.incident incident) hsettles⟩
    | act =>
      obtain ⟨hsteps, next, ⟨hstep, -⟩ | ⟨hsettle, rfl⟩, hact⟩ | ⟨hsteps, hstate, hbound⟩ :=
        act_cases thread
      · exact absurd hstep hstage
      · obtain ⟨bound, hbound, hle⟩ : thread.loop.Exhausted thread.state.cycles := by
          rw [Sound, hsettle] at hsound
          exact hsound
        have hhalting : thread.state.status = .halting := by
          rw [Steps, hsettle] at hsteps
          exact hsteps
        rw [turn, if_pos hsteps]
        exact .inr ⟨bound, hbound, [], _, rfl, rfl,
          turns_of_done (done_act_of_settle hsettle) moves, hhalting, hle⟩
      · rw [turn, if_neg hsteps, List.nil_append, ← hstate, ← hbound]
        exact ih (hstate ▸ haborted) hmoved (stage_act haborted)

/-- When the end has been asked for, a thread takes one more step at most, except for one that
carries out a halt behind its limit. -/
private theorem turns_of_asked (haborted : thread.state.aborted = true) (hsound : thread.Sound)
    (moves : List Move) : (thread.turns moves).count .step ≤ 1 ∨
      ∃ bound, thread.loop.bound? = some bound ∧
        Settles bound thread.state 1 (thread.turns moves) := by
  by_cases hstage : thread.stage = .step
  · -- The thread has not seen the flag and takes its step when it acts next.
    induction moves generalizing thread with
    | nil => exact .inl (Nat.zero_le 1)
    | cons move moves ih =>
      have hmoved : (thread.move move).Sound := sound_move hsound move
      rw [Thread.turns]
      cases move with
      | meanwhile incident =>
        rcases ih (aborted_move haborted _) hmoved hstage with hone | ⟨bound, hbound, hsettles⟩
        · exact .inl hone
        · exact .inr ⟨bound, hbound, settles_cons (.incident incident) hsettles⟩
      | act =>
        obtain ⟨loop, stage, state⟩ := thread
        obtain rfl : stage = .step := hstage
        have hstate : (act ⟨loop, .step, state⟩).state = State.behind state.step :=
          state_takeStep .test _
        have hloop : (act ⟨loop, .step, state⟩).loop = loop := loop_takeStep .test _
        have hnext : (act ⟨loop, .step, state⟩).stage ≠ .step := stage_act haborted
        have haborted' : (act ⟨loop, .step, state⟩).state.aborted = true := by
          rw [hstate, State.aborted_step]
          exact haborted
        rcases turns_of_aborted haborted' hmoved hnext moves with hnone | ⟨bound, hbound, hsettles⟩
        · refine .inl (Nat.le_of_eq ?_)
          exact List.count_cons_self.trans (congrArg (· + 1) hnone)
        · rw [hstate] at hsettles
          rw [hloop] at hbound
          exact .inr ⟨bound, hbound, settles_cons .step hsettles⟩
  · -- Everywhere else the flag is seen in front of the next step.
    rcases turns_of_aborted haborted hsound hstage moves with hnone | ⟨bound, -, hsettles⟩
    · exact .inl (by rw [hnone]; exact Nat.zero_le 1)
    · obtain ⟨first, last, hturns, hfirst, hlast, -⟩ := hsettles
      rw [hturns, List.count_append, List.count_cons_self, hfirst, hlast]
      exact .inl (Nat.le_refl 1)

/-- The number of actions in which a call returns when the end has been asked for. -/
def due (thread : Thread) : Nat :=
  thread.stage.due thread.loop

private theorem due_test_le (loop : Loop) (state : State) : due ⟨loop, .test, state⟩ ≤ 4 := by
  match loop with
  | .endless | .batches _ (_ + 1) => exact Nat.le_succ 3
  | .batches _ 0 | .below _ => exact Nat.le_refl 4

private theorem due_le (thread : Thread) : thread.due ≤ 5 := by
  obtain ⟨loop, stage, state⟩ := thread
  cases stage with
  | test => exact Nat.le_succ_of_le (due_test_le loop state)
  | _ => exact Nat.le_of_ble_eq_true rfl

private theorem due_act (haborted : thread.state.aborted = true) :
    thread.act.due ≤ thread.due - 1 := by
  -- A step leads to the next stage or, by a fault, out of the call.
  have htakeStep (thread : Thread) {next : Stage} {bound : Nat}
      (h : next.due thread.loop ≤ bound) : (takeStep next thread).due ≤ bound := by
    rw [due, loop_takeStep]
    rcases stage_takeStep next thread with hnext | ⟨report, hreport⟩
    · rw [hnext]
      exact h
    · rw [hreport]
      exact Nat.zero_le bound
  obtain ⟨loop, stage, state⟩ := thread
  cases stage with
  | test =>
    match loop with
    | .endless | .batches _ (_ + 1) => exact Nat.le_refl 2
    | .batches tempo 0 =>
      obtain ⟨left, hleft⟩ := Nat.exists_eq_add_of_lt tempo.batch_pos
      rw [act, test, hleft, Nat.zero_add]
      exact Nat.le_refl 3
    | .below bound =>
      rw [act, test]
      split
      · exact Nat.le_succ 2
      · exact Nat.le_refl 3
  | status last =>
    rw [act]
    split
    · exact Nat.zero_le 1
    · exact Nat.le_refl 1
  | flag last =>
    rw [act, if_pos haborted]
    exact Nat.le_refl 0
  | step => exact htakeStep ⟨loop, .step, state⟩ (due_test_le loop state)
  | settle =>
    rw [act]
    split
    · exact htakeStep ⟨loop, .settle, state⟩ (Nat.le_refl 2)
    · exact Nat.le_refl 2
  | returned result => exact Nat.le_refl 0

private theorem due_after (haborted : thread.state.aborted = true) (moves : List Move) :
    (thread.after moves).due ≤ thread.due - moves.count .act := by
  induction moves generalizing thread with
  | nil => exact Nat.le_refl _
  | cons move moves ih =>
    have hrest : (thread.after (move :: moves)).due ≤ _ := ih (aborted_move haborted move)
    cases move with
    | act =>
      have hact : (thread.move .act).due ≤ thread.due - 1 := due_act haborted
      rw [List.count_cons_self]
      omega
    | meanwhile incident =>
      rw [List.count_cons_of_ne (by exact nofun)]
      exact hrest

/-- A call returns soon after the end has been asked for. -/
private theorem exists_returned (haborted : thread.state.aborted = true)
    (hacts : 5 ≤ moves.count .act) :
    ∃ result, (thread.after moves).stage = .returned result := by
  have hdue := due_after haborted moves
  have hle := due_le thread
  have hzero : (thread.after moves).due = 0 := by omega
  generalize thread.after moves = final at hzero
  obtain ⟨loop, stage, state⟩ := final
  cases stage with
  | returned result => exact ⟨result, rfl⟩
  | test =>
    match loop with
    | .endless | .batches _ 0 | .batches _ (_ + 1) | .below _ => cases hzero
  | _ => cases hzero

/-- A call returns that its cycles are used up only if the end has not been asked for when it looks
at the flag for the last time. -/
private theorem outOfCycles_of_aborted (haborted : thread.state.aborted = true) (moves : List Move)
    (hstage : (thread.after moves).stage = .returned (.ok .outOfCycles)) :
    thread.stage = .returned (.ok .outOfCycles) := by
  induction moves generalizing thread with
  | nil => exact hstage
  | cons move moves ih =>
    have hmoved : (thread.move move).stage = .returned (.ok .outOfCycles) :=
      ih (aborted_move haborted move) hstage
    cases move with
    | meanwhile incident => exact hmoved
    | act =>
      rw [Thread.move] at hmoved
      obtain ⟨result, hresult, hact⟩ | hflag := stage_act_cases haborted
      · rw [hresult, ← hact]
        exact hmoved
      · rw [hmoved] at hflag
        cases hflag

/-- What undisturbed actions are to the machine are steps. -/
private theorem turns_of_acts (hacts : ∀ move ∈ moves, move = .act) :
    ∀ turn ∈ thread.turns moves, turn = .step := by
  induction moves generalizing thread with
  | nil => exact nofun
  | cons move moves ih =>
    obtain ⟨rfl, hrest⟩ := List.forall_mem_cons.mp hacts
    intro other hother
    rcases List.mem_append.mp hother with hhere | hlater
    · rw [turn] at hhere
      split at hhere
      · exact List.mem_singleton.mp hhere
      · cases hhere
    · exact ih hrest other hlater

end Thread

namespace State

variable {state : State}

private theorem ending?_of_aborted (haborted : state.aborted = true) :
    state.ending? = some (if state.status = .halted then .halted else .aborted) := by
  rw [ending?, if_pos haborted]
  split <;> rfl

private theorem runWithin_of_aborted (haborted : state.aborted = true) (steps : Nat) :
    runWithin (steps + 1) state =
      .ok (some (if state.status = .halted then .halted else .aborted)) state := by
  rw [runWithin_succ, ending?_of_aborted haborted]

private theorem runAtTempo_of_aborted (haborted : state.aborted = true) (tempo : Tempo)
    (batches : Nat) :
    runAtTempo tempo (batches + 1) state =
      .ok (some (if state.status = .halted then .halted else .aborted)) state := by
  obtain ⟨left, hleft⟩ := Nat.exists_eq_add_of_lt tempo.batch_pos
  have hsteps : (batches + 1) * tempo.batch = batches * tempo.batch + left + 1 := by
    rw [Nat.succ_mul, hleft, Nat.zero_add, Nat.add_assoc]
  rw [runAtTempo_eq, hsteps, runWithin_of_aborted haborted]

end State

/-- A call without a limit returns at once, without a step, when the end has been asked for. -/
private theorem Thread.returns_of_aborted {state : State} (haborted : state.aborted = true)
    {call : Call}
    (hcall : call = .endless ∨ ∃ tempo, call = .paced tempo) :
    (Thread.start call state).Returns
        (.ok (if state.status = .halted then .halted else .aborted) state) ∧
      ∀ moves, ((Thread.start call state).turns moves).count .step = 0 := by
  have hunlimited : (call.loop state).bound? = none := by
    rcases hcall with rfl | ⟨tempo, rfl⟩ <;> rfl
  refine ⟨(Thread.returns_unlimited hunlimited).mpr ?_, fun moves => ?_⟩
  · exact ⟨1, congrArg State.ended? (State.runWithin_of_aborted haborted 0)⟩
  have hasked : (Thread.start call state).state.aborted = true := haborted
  have htest : (Thread.start call state).stage ≠ .step := by
    intro hstep
    cases hstep
  obtain hnone | ⟨bound, hsome, -⟩ := Thread.turns_of_aborted hasked trivial htest moves
  · exact hnone
  · have hnolimit := hunlimited.symm.trans hsome
    cases hnolimit

/-- Between any two actions of a call somebody may ask for the end. The machine is left at the end
of a step, at most one more is taken, and the call says whether the machine has halted. In front of
all later calls the end has been asked for. -/
theorem stops_at_boundary (call : Call) (state : State) (moves more : List Move) :
    let thread := (Thread.start call state).after moves
    let asked := thread.move (.meanwhile .abort)
    let final := asked.after more
    let before := (Thread.start call state).turns moves
    let behind := asked.turns more
    (final.state = state.afterTurns (before ++ .incident .abort :: behind) ∧
      ((∀ move ∈ moves ++ more, move = .act) →
        final.state = (state.stepped ((before ++ behind).count .step)).abort)) ∧
    (behind.count .step ≤ 1 ∨ ∃ limit, call = .limited limit ∧
      Thread.Settles (min (state.cycles + limit) State.maxCycles) asked.state 1 behind ∧
      final.state.status = .halted) ∧
    (5 ≤ more.count .act → ∃ result, final.stage = .returned result) ∧
    (∀ result, final.stage = .returned result →
      (final.state.status = .halted → result = .ok .halted ∨ ∃ report, result = .error report) ∧
      (final.state.status ≠ .halted → result = .ok .aborted ∨
        (∃ limit, call = .limited limit) ∧ result = .ok .outOfCycles ∧
          thread.stage = .returned result)) ∧
    ∀ turns,
      let later := final.state.afterTurns turns
      let ending := if later.status = .halted then .halted else .aborted
      later.aborted = true ∧
      (∀ steps, State.runWithin (steps + 1) later = .ok (some ending) later) ∧
      (∀ tempo batches, State.runAtTempo tempo (batches + 1) later = .ok (some ending) later) ∧
      ∀ call, call = .endless ∨ (∃ tempo, call = .paced tempo) →
        (Thread.start call later).Returns (.ok ending later) ∧
        ∀ moves, ((Thread.start call later).turns moves).count .step = 0 := by
  intro thread asked final before behind
  have hstart : (Thread.start call state).Sound := trivial
  have hsound : thread.Sound := Thread.sound_after hstart moves
  have hasked : asked.Sound := Thread.sound_move hsound _
  have haborted : asked.state.aborted = true := rfl
  have hbound : asked.loop.bound? = (call.loop state).bound? :=
    Thread.bound?_after (.start call state) moves
  have hbefore : thread.state = state.afterTurns before :=
    Thread.state_after (.start call state) moves
  have hbehind : final.state = asked.state.afterTurns behind := Thread.state_after asked more
  have hstate : final.state = state.afterTurns (before ++ .incident .abort :: behind) := by
    rw [hbehind, State.afterTurns_append, ← hbefore]
    rfl
  refine ⟨⟨hstate, fun hacts => ?_⟩, ?_, Thread.exists_returned haborted, ?_, ?_⟩
  · obtain ⟨hmoves, hmore⟩ := List.forall_mem_append.mp hacts
    have hfirst : thread.state = state.stepped (before.count .step) :=
      hbefore.trans (State.afterTurns_of_steps (Thread.turns_of_acts hmoves) state)
    have hlast : final.state = asked.state.stepped (behind.count .step) :=
      hbehind.trans (State.afterTurns_of_steps (Thread.turns_of_acts hmore) asked.state)
    have habort : asked.state = thread.state.abort := rfl
    rw [hlast, habort, State.stepped_abort, hfirst, List.count_append, Nat.add_comm, State.stepped,
      State.stepped, State.stepped, Function.iterate_add_apply]
  · rcases Thread.turns_of_asked haborted hasked more with hone | ⟨bound, hsome, hsettles⟩
    · exact .inl hone
    · -- A second step is there only to carry out a halt at the end of a limit.
      obtain ⟨limit, hcall, rfl⟩ := Call.exists_limit (hbound.symm.trans hsome)
      refine .inr ⟨limit, hcall, hsettles, ?_⟩
      rw [hbehind]
      exact Thread.halted_of_settles hsettles
  · intro result hstage
    obtain ⟨hhalted, hrunning⟩ := Thread.result_of_sound (Thread.sound_after hasked more) hstage
    refine ⟨hhalted, fun hne => (hrunning hne).imp_right ?_⟩
    rintro ⟨rfl, bound, hsome, -⟩
    rw [Thread.bound?_after] at hsome
    obtain ⟨limit, hcall, -⟩ := Call.exists_limit (hbound.symm.trans hsome)
    -- Out of cycles is no answer to the flag: the call had returned before the end was asked for.
    have hused : asked.stage = .returned (.ok .outOfCycles) :=
      Thread.outOfCycles_of_aborted haborted more hstage
    exact ⟨⟨limit, hcall⟩, rfl, hused⟩
  · intro turns later ending
    have hlater : later.aborted = true := by
      refine State.aborted_afterTurns ?_ turns
      rw [hbehind]
      exact State.aborted_afterTurns haborted behind
    refine ⟨hlater, State.runWithin_of_aborted hlater, State.runAtTempo_of_aborted hlater, ?_⟩
    exact fun call hcall => Thread.returns_of_aborted hlater hcall

/-- The end is asked for while the thread is about to execute the halt instruction, which is the
last one that the limit allows. The halt is carried out. -/
theorem stops_at_boundary_halt :
    let state : State :=
      { core := .initial 1, rom := ⟨.rom, #[0xff]⟩, config := { ramSize := 1, romSize := 1 } }
    let moves : List Move := [.act, .act, .act]
    let more : List Move := [.act, .act, .act, .act, .act]
    let asked := ((Thread.start (.limited 1) state).after moves).move (.meanwhile .abort)
    let final := asked.after more
    (asked.turns more).count .step = 2 ∧ final.stage = .returned (.ok .halted) ∧
      final.state = (state.stepped 2).abort ∧ final.state.status = .halted ∧
      State.runWithin 1 final.state = .ok (some .halted) final.state := by
  intro state moves more asked final
  obtain ⟨⟨-, hsteps⟩, -, hreturns, hresult, hlater⟩ :=
    stops_at_boundary (.limited 1) state moves more
  have htwo : (asked.turns more).count .step = 2 := by decide +kernel
  have hhalted : final.state.status = .halted := by decide +kernel
  have hstate : final.state = (state.stepped 2).abort := by
    have hcount : ((Thread.start (.limited 1) state).turns moves ++ asked.turns more).count .step =
        2 := by decide +kernel
    rw [← hcount]
    exact hsteps (by decide)
  obtain ⟨result, hstage⟩ := hreturns (by decide)
  have hreturned : final.stage = .returned (.ok .halted) := by
    obtain rfl | ⟨report, rfl⟩ := (hresult result hstage).1 hhalted
    · exact hstage
    · have hnofault : final.stage = .returned (.ok .halted) := rfl
      exact nomatch hnofault.symm.trans hstage
  have hagain : State.runWithin 1 final.state =
      .ok (some (if final.state.status = .halted then .halted else .aborted)) final.state :=
    (hlater []).2.1 0
  rw [if_pos hhalted] at hagain
  exact ⟨htwo, hreturned, hstate, hhalted, hagain⟩

end WordMachine.Machine
