import WordMachine.Machine.Tempo
import WordMachine.Proofs.Machine.Arising
import WordMachine.Proofs.Machine.Faults

/-! The ways to run a machine agree: without end, in batches, and with a limit. -/
namespace WordMachine.Machine.State

def ended? : EStateM.Result FaultReport State (Option Ending) →
    Option (EStateM.Result FaultReport State Ending)
  | .ok (some ending) after => some (.ok ending after)
  | .ok none _ => none
  | .error report after => some (.error report after)

/-- Whether a machine that runs without a limit ends, and in what. -/
def EndsIn (state : State) (result : EStateM.Result FaultReport State Ending) : Prop :=
  ∃ steps, ended? (runWithin steps state) = some result

/-- Whether a machine that runs at a tempo ends, and in what. -/
def EndsAt (tempo : Tempo) (state : State) (result : EStateM.Result FaultReport State Ending) :
    Prop :=
  ∃ batches, ended? (runAtTempo tempo batches state) = some result

/-- A number of instructions that are executed one after the other. -/
inductive Executes : Nat → State → State → Prop
  | nil {state : State} : Executes 0 state state
  | step {count : Nat} {state after finish : State} {outcome : Outcome}
      (hstatus : state.status = .running) (hstep : state.step = .ok outcome after)
      (h : Executes count after finish) : Executes (count + 1) state finish

/-- How a machine ends that does not execute any more instructions: it halts, or the next one
faults. -/
def Concludes (state : State) : EStateM.Result FaultReport State Ending → Prop
  | .ok ending final => ending = .halted ∧ state.status ≠ .running ∧ state.step = .ok .halted final
  | .error report final => state.status = .running ∧ state.step = .error report final

variable {state after finish : State} {outcome : Outcome} {count more steps : Nat}
  {result : EStateM.Result FaultReport State Ending}

theorem runWithin_succ (state : State) (steps : Nat) : runWithin (steps + 1) state =
    match state.ending? with
    | some ending => .ok (some ending) state
    | none => match state.step with
      | .ok _ after => runWithin steps after
      | .error report after => .error report after := by
  rw [runWithin]
  dsimp only [bind, EStateM.bind, get, getThe, MonadStateOf.get, EStateM.get]
  cases state.ending? with
  | some ending => rfl
  | none =>
    change EStateM.bind (EStateM.map (Function.const Outcome PUnit.unit) step)
      (fun _ => runWithin steps) state = _
    unfold EStateM.bind EStateM.map
    cases state.step with
    | ok outcome after => rfl
    | error report after => rfl

theorem runWithin_add (state : State) (steps more : Nat) : runWithin (steps + more) state =
    match runWithin steps state with
    | .ok none after => runWithin more after
    | result => result := by
  induction steps generalizing state with
  | zero => rw [Nat.zero_add]; rfl
  | succ steps ih =>
    rw [Nat.succ_add, runWithin_succ, runWithin_succ]
    cases state.ending? with
    | some ending => rfl
    | none =>
      dsimp only
      cases state.step with
      | ok outcome after => exact ih after
      | error report after => rfl

/-- An end that was reached is reached with more steps too. -/
private theorem ended?_runWithin_add (h : ended? (runWithin steps state) = some result)
    (more : Nat) :
    ended? (runWithin (steps + more) state) = some result := by
  rw [runWithin_add]
  cases hrun : runWithin steps state with
  | ok ending? after =>
    rw [hrun] at h
    cases ending? with
    | some ending => exact h
    | none => cases h
  | error report after =>
    rw [hrun] at h
    exact h

/-- A machine ends in no more than one way. -/
private theorem endsIn_unique {other : EStateM.Result FaultReport State Ending}
    (h : state.EndsIn result)
    (h' : state.EndsIn other) : result = other := by
  obtain ⟨steps, h⟩ := h
  obtain ⟨more, h'⟩ := h'
  have hboth := ended?_runWithin_add h' steps
  rw [Nat.add_comm, ended?_runWithin_add h more] at hboth
  exact Option.some.inj hboth

/-- Batches are a way to count steps. -/
theorem runAtTempo_eq (tempo : Tempo) (batches : Nat) (state : State) :
    runAtTempo tempo batches state = runWithin (batches * tempo.batch) state := by
  unfold runAtTempo
  induction batches generalizing state with
  | zero => rw [Nat.zero_mul]; rfl
  | succ batches ih =>
    have hsteps : (batches + 1) * tempo.batch = tempo.batch + batches * tempo.batch := by
      rw [Nat.succ_mul, Nat.add_comm]
    rw [hsteps, runWithin_add]
    change (match runWithin tempo.batch state with
      | .ok none after => runBatches (pure () : Id Unit) (fun _ => pure) tempo.batch batches after
      | result => result) = _
    cases runWithin tempo.batch state with
    | ok ending? after =>
      cases ending? with
      | some ending => rfl
      | none => exact ih after
    | error report after => rfl

/-- Whatever the tempo, a machine ends as it does without one. -/
theorem endsAt_iff (tempo : Tempo) : state.EndsAt tempo result ↔ state.EndsIn result := by
  unfold EndsAt EndsIn
  simp only [runAtTempo_eq]
  constructor
  · rintro ⟨batches, h⟩
    exact ⟨_, h⟩
  · rintro ⟨steps, h⟩
    have henough : steps + (steps * tempo.batch - steps) = steps * tempo.batch :=
      Nat.add_sub_cancel' (Nat.le_mul_of_pos_right steps tempo.batch_pos)
    refine ⟨steps, ?_⟩
    rw [← henough]
    exact ended?_runWithin_add h _

theorem ending?_of_halted (hstatus : state.status = .halted) : state.ending? = some .halted :=
  if_pos hstatus

private theorem ending?_of_not_halted (hstatus : state.status ≠ .halted)
    (haborted : state.aborted = false) : state.ending? = none := by
  rw [ending?, if_neg hstatus, haborted]
  rfl

private theorem runWithin_of_running (hstatus : state.status = .running)
    (haborted : state.aborted = false)
    (steps : Nat) : runWithin (steps + 1) state =
      match state.step with
      | .ok _ after => runWithin steps after
      | .error report after => .error report after := by
  rw [runWithin_succ, ending?_of_not_halted (by rw [hstatus]; decide) haborted]

/-- An instruction that is executed counts for one. -/
theorem counts_of_step (hstatus : state.status = .running)
    (hstep : state.step = .ok outcome after) :
    after.cycles = state.cycles + 1 ∧ after.aborted = state.aborted := by
  obtain ⟨registers, display, journal, hinput, -⟩ := state.sameButButtons_takeInput
  obtain ⟨_, _, _, -, h⟩ | ⟨_, _, -, h⟩ | ⟨_, _, _, -, h⟩ :=
    undergoes_cases (undergoes_due state hstatus)
  all_goals
    rw [hstep, hinput] at h
    cases h
  · exact ⟨rfl, rfl⟩
  · exact ⟨rfl, rfl⟩

/-- An instruction that faults does not count. -/
theorem cycles_of_error {report : FaultReport} (hstatus : state.status = .running)
    (hstep : state.step = .error report after) : after.cycles = state.cycles := by
  obtain ⟨core, journal, -, -, rfl⟩ := exists_of_error hstatus hstep
  obtain ⟨registers, display, journal, hinput, -⟩ := state.sameButButtons_takeInput
  rw [hinput]

theorem counts_of_executes (h : Executes count state after) :
    after.cycles = state.cycles + count ∧ after.aborted = state.aborted := by
  induction h with
  | nil => exact ⟨rfl, rfl⟩
  | step hstatus hstep h ih =>
    obtain ⟨hcycles, haborted⟩ := counts_of_step hstatus hstep
    rw [ih.1, ih.2, hcycles, haborted]
    exact ⟨by omega, rfl⟩

private theorem executes_add (h : Executes (count + more) state finish) :
    ∃ after, Executes count state after ∧ Executes more after finish := by
  induction count generalizing state with
  | zero => exact ⟨state, .nil, Nat.zero_add more ▸ h⟩
  | succ count ih =>
    rw [Nat.succ_add] at h
    cases h with
    | step hstatus hstep h =>
      obtain ⟨middle, hbefore, hbehind⟩ := ih h
      exact ⟨middle, .step hstatus hstep hbefore, hbehind⟩

/-- The steps of a run that does not end execute one instruction each. -/
theorem runWithin_of_executes (haborted : state.aborted = false) (h : Executes count state after) :
    runWithin count state = .ok none after := by
  induction h with
  | nil => rfl
  | step hstatus hstep h ih =>
    rw [runWithin_of_running hstatus haborted, hstep]
    exact ih ((counts_of_step hstatus hstep).2.trans haborted)

/-- A machine executes as many instructions as it is asked to, or fewer and then no more. -/
private theorem exists_executes (state : State) (steps : Nat) :
    ∃ count after, Executes count state after ∧
    (count = steps ∨ ∃ result, after.Concludes result) := by
  induction steps generalizing state with
  | zero => exact ⟨0, state, .nil, .inl rfl⟩
  | succ steps ih =>
    by_cases hstatus : state.status = .running
    · cases hstep : state.step with
      | ok outcome after =>
        obtain ⟨count, finish, hexecutes, hend⟩ := ih after
        exact ⟨count + 1, finish, .step hstatus hstep hexecutes,
          hend.imp_left (congrArg (· + 1))⟩
      | error report after => exact ⟨0, state, .nil, .inr ⟨.error report after, hstatus, hstep⟩⟩
    · obtain ⟨final, hstep, -⟩ := exists_of_not_running hstatus
      exact ⟨0, state, .nil, .inr ⟨.ok .halted final, rfl, hstatus, hstep⟩⟩

private theorem runWithin_of_halted (hstatus : state.status = .halted) (steps : Nat) :
    runWithin (steps + 1) state = .ok (some .halted) state := by
  rw [runWithin_succ, ending?_of_halted hstatus]

/-- A machine that does not run has halted, or it has been asked to and does so with one more
step. -/
private theorem runWithin_of_not_running {final : State} (haborted : state.aborted = false)
    (hstatus : state.status ≠ .running) (hstep : state.step = .ok .halted final) :
    final.status = .halted ∧ (state = final ∨
      state.status = .halting ∧ ∀ steps, runWithin (steps + 1) state = runWithin steps final) := by
  obtain ⟨other, hother, hhalted, -⟩ := exists_of_not_running hstatus
  obtain rfl : final = other := (EStateM.Result.ok.inj (hstep.symm.trans hother)).2
  cases h : state.status with
  | running => exact absurd h hstatus
  | halted =>
    rw [step, h] at hstep
    exact ⟨hhalted, .inl (EStateM.Result.ok.inj hstep).2⟩
  | halting =>
    refine ⟨hhalted, .inr ⟨rfl, fun steps => ?_⟩⟩
    rw [runWithin_succ, ending?_of_not_halted (by rw [h]; decide) haborted, hstep]

/-- A machine that has come to its end is there after two steps at most. -/
private theorem ended?_of_concludes (haborted : state.aborted = false)
    (h : state.Concludes result) :
    ended? (runWithin 2 state) = some result := by
  cases result with
  | error report final =>
    obtain ⟨hstatus, hstep⟩ := h
    rw [runWithin_of_running hstatus haborted, hstep]
    rfl
  | ok ending final =>
    obtain ⟨rfl, hstatus, hstep⟩ := h
    obtain ⟨hhalted, rfl | ⟨-, hrun⟩⟩ := runWithin_of_not_running haborted hstatus hstep
    · rw [runWithin_of_halted hhalted]
      rfl
    · rw [hrun, runWithin_of_halted hhalted]
      rfl

/-- A run without a limit ends where the instructions do. -/
private theorem endsIn_of_executes (haborted : state.aborted = false)
    (hexecutes : Executes count state after) (hconcludes : after.Concludes result) :
    state.EndsIn result := by
  refine ⟨count + 2, ?_⟩
  rw [runWithin_add, runWithin_of_executes haborted hexecutes]
  exact ended?_of_concludes ((counts_of_executes hexecutes).2.trans haborted) hconcludes

/-- A run without a limit that ends executes a number of instructions and then comes to its end. -/
private theorem exists_of_endsIn (haborted : state.aborted = false) (h : state.EndsIn result) :
    ∃ count after, Executes count state after ∧ after.Concludes result := by
  obtain ⟨steps, hrun⟩ := id h
  obtain ⟨count, after, hexecutes, rfl | ⟨other, hconcludes⟩⟩ := exists_executes state steps
  · rw [runWithin_of_executes haborted hexecutes] at hrun
    cases hrun
  · -- There is an end behind the instructions, and it is the only one.
    obtain rfl := endsIn_unique h (endsIn_of_executes haborted hexecutes hconcludes)
    exact ⟨count, after, hexecutes, hconcludes⟩

/-- The end of a run that a limit has cut off: a halt that is pending is carried out. -/
def settled (state : State) : EStateM.Result FaultReport State Ending :=
  let after := if state.status = .halting then behind state.step else state
  .ok (after.ending?.getD .outOfCycles) after

/-- What a run with a limit makes of the steps that it could take. -/
def limited : EStateM.Result FaultReport State (Option Ending) →
    EStateM.Result FaultReport State Ending
  | .ok (some ending) after => .ok ending after
  | .ok none after => after.settled
  | .error report after => .error report after

/-- The steps that a limit leaves. What cannot be counted is cut off. -/
def granted (state : State) (limit : Nat) : Nat :=
  min (state.cycles + limit) maxCycles - state.cycles

theorem granted_eq {limit : Nat} (h : state.cycles + limit ≤ maxCycles) :
    state.granted limit = limit := by
  unfold granted
  omega

theorem runCycles_eq (limit : Nat) (state : State) :
    runCycles limit state = limited (runWithin (state.granted limit) state) := by
  unfold runCycles granted
  change EStateM.bind (runWithin (min (state.cycles + limit) maxCycles - state.cycles)) _ state = _
  unfold EStateM.bind
  cases runWithin (min (state.cycles + limit) maxCycles - state.cycles) state with
  | error report after => rfl
  | ok ending? after =>
    cases ending? with
    | some ending => rfl
    | none =>
      -- What is left to do is to carry out a halt that is pending.
      dsimp only [limited, settled]
      by_cases hstatus : after.status = .halting
      · obtain ⟨final, hstep, -⟩ := exists_of_not_running (by rw [hstatus]; decide)
        rw [if_pos hstatus, hstep]
        dsimp [bind, EStateM.bind, get, getThe, MonadStateOf.get, EStateM.get]
        rw [if_pos hstatus]
        change EStateM.bind (EStateM.map (Function.const Outcome PUnit.unit) step) _ after = _
        unfold EStateM.bind EStateM.map
        rw [hstep]
        rfl
      · rw [if_neg hstatus]
        dsimp [bind, EStateM.bind, get, getThe, MonadStateOf.get, EStateM.get]
        rw [if_neg hstatus]
        rfl

theorem limited_of_halted (hstatus : state.status = .halted) (steps : Nat) :
    limited (runWithin steps state) = .ok .halted state := by
  cases steps with
  | zero =>
    change settled state = _
    rw [settled, if_neg (by rw [hstatus]; decide), ending?_of_halted hstatus]
    rfl
  | succ steps =>
    rw [runWithin_of_halted hstatus]
    rfl

/-- A machine that has come to its end is there whatever the limit, if only there is a step left for
a fault. -/
private theorem limited_of_concludes (haborted : state.aborted = false) (h : state.Concludes result)
    (hfault : state.status = .running → 0 < steps) : limited (runWithin steps state) = result := by
  cases result with
  | error report final =>
    obtain ⟨hstatus, hstep⟩ := h
    obtain ⟨steps, rfl⟩ := Nat.exists_eq_add_of_lt (hfault hstatus)
    rw [runWithin_of_running hstatus haborted, hstep]
    rfl
  | ok ending final =>
    obtain ⟨rfl, hstatus, hstep⟩ := h
    obtain ⟨hhalted, rfl | ⟨hhalting, hrun⟩⟩ := runWithin_of_not_running haborted hstatus hstep
    · exact limited_of_halted hhalted steps
    · cases steps with
      | zero =>
        change settled state = _
        rw [settled, if_pos hhalting, hstep]
        exact congrArg (fun ending? => EStateM.Result.ok (ending?.getD .outOfCycles) final)
          (ending?_of_halted hhalted)
      | succ steps =>
        rw [hrun]
        exact limited_of_halted hhalted steps

/-- A limit that is not in the way changes nothing. -/
theorem runCycles_of_concludes {middle : State} {limit : Nat} (haborted : state.aborted = false)
    (hexecutes : Executes count state middle) (hconcludes : middle.Concludes result)
    (henough : count ≤ state.granted limit)
    (hfault : middle.status = .running → count < state.granted limit) :
    runCycles limit state = result := by
  obtain ⟨more, hmore⟩ := Nat.exists_eq_add_of_le henough
  rw [runCycles_eq, hmore, runWithin_add, runWithin_of_executes haborted hexecutes]
  refine limited_of_concludes ((counts_of_executes hexecutes).2.trans haborted) hconcludes ?_
  intro hstatus
  have hlt := hfault hstatus
  omega

/-- Whether a limit cuts a run off behind exactly as many instructions. -/
def CutOff (state : State) (limit : Nat) : Prop :=
  ∃ after, Executes limit state after ∧ runCycles limit state = .ok .outOfCycles after

private theorem cutOff_of_executes {limit : Nat} (haborted : state.aborted = false)
    (hexecutes : Executes limit state after) (hstatus : after.status = .running)
    (hcounted : state.cycles + limit ≤ maxCycles) : state.CutOff limit := by
  refine ⟨after, hexecutes, ?_⟩
  have hended := ending?_of_not_halted (by rw [hstatus]; decide)
    ((counts_of_executes hexecutes).2.trans haborted)
  rw [runCycles_eq, granted_eq hcounted, runWithin_of_executes haborted hexecutes, limited, settled,
    if_neg (by rw [hstatus]; decide), hended]
  rfl

/-- A limit below the number of instructions cuts a run off. -/
private theorem cutOff_of_lt {limit : Nat} (haborted : state.aborted = false)
    (hexecutes : Executes count state after) (hlt : limit < count)
    (hcounted : state.cycles + count ≤ maxCycles) : state.CutOff limit := by
  obtain ⟨more, rfl⟩ := Nat.exists_eq_add_of_lt hlt
  rw [Nat.add_assoc] at hexecutes
  obtain ⟨middle, hbefore, hbehind⟩ := executes_add hexecutes
  cases hbehind with
  | step hstatus _ _ => exact cutOff_of_executes haborted hbefore hstatus (by omega)

/-- The ways to run a machine agree. A run in batches ends as one without a limit, and so does a run
with a limit that is not below the number of instructions, and above it if the next one faults. All
other limits cut it off. No limit goes beyond what can be counted, so there has to be room in the
count for an instruction that faults. -/
theorem runs_agree (haborted : state.aborted = false) :
    (∀ frequency batch result, state.EndsAt (.of frequency batch) result ↔ state.EndsIn result) ∧
      (∀ ending final, state.EndsIn (.ok ending final) → ending = .halted ∧
        ∃ count middle, Executes count state middle ∧ middle.status ≠ .running ∧
          middle.step = .ok .halted final ∧ final.cycles = state.cycles + count ∧
          (final.cycles ≤ maxCycles →
            (∀ limit, count ≤ limit → runCycles limit state = .ok .halted final) ∧
            ∀ limit, limit < count → state.CutOff limit)) ∧
      ∀ report final, state.EndsIn (.error report final) →
        ∃ count middle, Executes count state middle ∧ middle.status = .running ∧
          middle.step = .error report final ∧ final.cycles = state.cycles + count ∧
          (final.cycles < maxCycles →
            ∀ limit, count < limit → runCycles limit state = .error report final) ∧
          (final.cycles ≤ maxCycles → ∀ limit, limit ≤ count → state.CutOff limit) := by
  refine ⟨fun frequency batch result => endsAt_iff _, fun ending final h => ?_,
    fun report final h => ?_⟩
  · obtain ⟨count, middle, hexecutes, hconcludes⟩ := exists_of_endsIn haborted h
    obtain ⟨rfl, hstatus, hstep⟩ := id hconcludes
    obtain ⟨other, hother, -, hcycles⟩ := exists_of_not_running hstatus
    obtain rfl : final = other := (EStateM.Result.ok.inj (hstep.symm.trans hother)).2
    rw [(counts_of_executes hexecutes).1] at hcycles
    refine ⟨rfl, count, middle, hexecutes, hstatus, hstep, hcycles, fun hcounted => ⟨?_, ?_⟩⟩
    · intro limit hle
      apply runCycles_of_concludes haborted hexecutes hconcludes
      · unfold granted
        omega
      · intro hrunning
        exact absurd hrunning hstatus
    · intro limit hlt
      exact cutOff_of_lt haborted hexecutes hlt (hcycles ▸ hcounted)
  · obtain ⟨count, middle, hexecutes, hconcludes⟩ := exists_of_endsIn haborted h
    obtain ⟨hstatus, hstep⟩ := id hconcludes
    have hcycles := cycles_of_error hstatus hstep
    rw [(counts_of_executes hexecutes).1] at hcycles
    refine ⟨count, middle, hexecutes, hstatus, hstep, hcycles, ?_, ?_⟩
    · intro hcounted limit hlt
      -- The faulting step is not counted, but a limit has to leave room for it.
      have hgranted : count < state.granted limit := by
        unfold granted
        omega
      exact runCycles_of_concludes haborted hexecutes hconcludes (Nat.le_of_lt hgranted)
        fun _ => hgranted
    · intro hcounted limit hle
      rw [hcycles] at hcounted
      obtain rfl | hlt := Nat.eq_or_lt_of_le hle
      · exact cutOff_of_executes haborted hexecutes hstatus hcounted
      · exact cutOff_of_lt haborted hexecutes hlt hcounted

/-- The machine halts with its first instruction, whatever the batches, and is cut off in front of
it. -/
theorem runs_agree_halt :
    let state : State :=
      { core := .initial 1, rom := ⟨.rom, #[0xff]⟩, config := { ramSize := 1, romSize := 1 } }
    let final := behind (behind state.step).step
    state.aborted = false ∧ state.EndsIn (.ok .halted final) ∧
      state.EndsAt (.of 0 0) (.ok .halted final) ∧
      runCycles 1 state = .ok .halted final ∧ state.CutOff 0 := by
  intro state final
  have hends : state.EndsIn (.ok .halted final) := ⟨3, rfl⟩
  have hfinal : final.cycles = 1 := rfl
  obtain ⟨hbatches, hhalts, -⟩ := @runs_agree state rfl
  obtain ⟨-, count, middle, -, -, -, hcycles, hlimits⟩ := hhalts .halted final hends
  obtain rfl : 1 = count := by
    rw [hfinal] at hcycles
    exact hcycles.trans (Nat.zero_add count)
  obtain ⟨hsame, hcut⟩ := hlimits (by rw [hfinal]; decide)
  exact ⟨rfl, hends, (hbatches 0 0 _).mpr hends, hsame 1 (Nat.le_refl 1), hcut 0 Nat.one_pos⟩

end WordMachine.Machine.State
