import WordMachine.Proofs.Machine.Runs

/-! A run with a limit is a loop over the count of the cycles. It ends within the limit, and two
such runs in a row are one. -/
namespace WordMachine.Machine.State

def bound (state : State) (limit : Nat) : Nat :=
  min (state.cycles + limit) maxCycles

/-- How the loop of a run with a limit ends: as long as the count is below the bound and nothing
ends the run, there is one more step. -/
inductive Loops (bound : Nat) : State → EStateM.Result FaultReport State (Option Ending) → Prop
  | spent {state : State} (hspent : bound ≤ state.cycles) : Loops bound state (.ok none state)
  | ended {state : State} {ending : Ending} (hcount : state.cycles < bound)
      (hending : state.ending? = some ending) : Loops bound state (.ok (some ending) state)
  | fault {state final : State} {report : FaultReport} (hcount : state.cycles < bound)
      (hending : state.ending? = none) (hstep : state.step = .error report final) :
      Loops bound state (.error report final)
  | step {state after : State} {outcome : Outcome}
      {result : EStateM.Result FaultReport State (Option Ending)} (hcount : state.cycles < bound)
      (hending : state.ending? = none) (hstep : state.step = .ok outcome after)
      (h : Loops bound after result) : Loops bound state result

def Stops (bound : Nat) (state : State) : EStateM.Result FaultReport State Ending → Prop
  | .ok .halted final => final.cycles = state.cycles ∧ state.Concludes (.ok .halted final)
  | .ok .aborted final => final = state ∧ state.status ≠ .halted ∧ state.aborted = true
  | .ok .outOfCycles final =>
    final = state ∧ state.status = .running ∧ state.aborted = false ∧ bound ≤ state.cycles
  | .error report final => final.cycles = state.cycles ∧ state.Concludes (.error report final) ∧
    state.aborted = false ∧ state.cycles < bound

variable {state after middle final : State} {outcome : Outcome} {ending : Ending}
  {bound first second : Nat}

private theorem ending?_eq_none :
    state.ending? = none ↔ state.status ≠ .halted ∧ state.aborted = false := by
  unfold ending?
  grind

private theorem ending?_eq_some : state.ending? = some ending ↔
    ending = .halted ∧ state.status = .halted ∨
      ending = .aborted ∧ state.status ≠ .halted ∧ state.aborted = true := by
  unfold ending?
  grind

/-- A step that executes no instruction is the one into the halt. -/
private theorem halted_of_step (hstatus : state.status ≠ .running)
    (hstep : state.step = .ok outcome after) :
    state.step = .ok .halted after ∧ after.status = .halted ∧ after.cycles = state.cycles := by
  obtain ⟨final, hfinal, hhalted, hcycles⟩ := exists_of_not_running hstatus
  obtain ⟨rfl, rfl⟩ := EStateM.Result.ok.inj (hstep.symm.trans hfinal)
  exact ⟨hfinal, hhalted, hcycles⟩

private theorem exists_loops_of_halted (hstatus : state.status = .halted) (bound : Nat) :
    ∃ result, Loops bound state result := by
  obtain hcount | hspent := Nat.lt_or_ge state.cycles bound
  · exact ⟨_, .ended hcount (ending?_of_halted hstatus)⟩
  · exact ⟨_, .spent hspent⟩

/-- The loop ends. What is left of the count gets less with each instruction, and the one step that
does not count is the last. -/
private theorem exists_loops (bound : Nat) (state : State) :
    ∃ result, Loops bound state result := by
  induction hleft : bound - state.cycles generalizing state with
  | zero => exact ⟨_, .spent (Nat.le_of_sub_eq_zero hleft)⟩
  | succ left ih =>
    have hcount : state.cycles < bound := by omega
    cases hending : state.ending? with
    | some ending => exact ⟨_, .ended hcount hending⟩
    | none =>
      cases hstep : state.step with
      | error report final => exact ⟨_, .fault hcount hending hstep⟩
      | ok outcome after =>
        have hrest : ∃ result, Loops bound after result := by
          by_cases hstatus : state.status = .running
          · have hcycles := (counts_of_step hstatus hstep).1
            exact ih after (by omega)
          · exact exists_loops_of_halted (halted_of_step hstatus hstep).2.1 bound
        obtain ⟨result, h⟩ := hrest
        exact ⟨result, .step hcount hending hstep h⟩

variable {looped : EStateM.Result FaultReport State (Option Ending)}
  {result : EStateM.Result FaultReport State Ending}

private theorem runWithin_of_lt (hcount : state.cycles < bound) :
    runWithin (bound - state.cycles) state =
      match state.ending? with
      | some ending => .ok (some ending) state
      | none => match state.step with
        | .ok _ after => runWithin (bound - (state.cycles + 1)) after
        | .error report after => .error report after := by
  have hleft : bound - state.cycles = bound - (state.cycles + 1) + 1 := by omega
  rw [hleft]
  exact runWithin_succ state _

/-- The steps that are left below the bound are enough for the loop. -/
private theorem limited_of_loops (h : Loops bound state looped) :
    limited (runWithin (bound - state.cycles) state) = limited looped := by
  induction h with
  | spent hspent => rw [Nat.sub_eq_zero_of_le hspent]; rfl
  | ended hcount hending => rw [runWithin_of_lt hcount, hending]
  | fault hcount hending hstep => rw [runWithin_of_lt hcount, hending, hstep]
  | @step state after _ _ hcount hending hstep _ ih =>
    rw [runWithin_of_lt hcount, hending, hstep, ← ih]
    by_cases hstatus : state.status = .running
    · rw [(counts_of_step hstatus hstep).1]
    · -- A machine that has halted is there whatever is left.
      have hhalted := (halted_of_step hstatus hstep).2.1
      exact (limited_of_halted hhalted _).trans (limited_of_halted hhalted _).symm

private theorem runCycles_of_loops {limit : Nat} (h : Loops (state.bound limit) state looped) :
    runCycles limit state = limited looped :=
  (runCycles_eq limit state).trans (limited_of_loops h)

private theorem stops_of_ending? (hending : state.ending? = some ending) (bound : Nat) :
    Stops bound state (.ok ending state) := by
  obtain ⟨rfl, hhalted⟩ | ⟨rfl, hhalted, haborted⟩ := ending?_eq_some.mp hending
  · exact ⟨rfl, rfl, by rw [hhalted]; decide, by rw [step, hhalted]⟩
  · exact ⟨rfl, hhalted, haborted⟩

private theorem stops_settled (hspent : bound ≤ state.cycles) :
    Stops bound state state.settled := by
  unfold settled
  dsimp only
  by_cases hstatus : state.status = .halting
  · have hnot : state.status ≠ .running := by rw [hstatus]; decide
    obtain ⟨final, hstep, hhalted, hcycles⟩ := exists_of_not_running hnot
    rw [if_pos hstatus, hstep, behind, ending?_of_halted hhalted]
    exact ⟨hcycles, rfl, hnot, hstep⟩
  · rw [if_neg hstatus]
    cases hending : state.ending? with
    | some ending => exact stops_of_ending? hending bound
    | none =>
      obtain ⟨hhalted, haborted⟩ := ending?_eq_none.mp hending
      have hrunning : state.status = .running := by
        cases h : state.status with
        | running => rfl
        | halting => exact absurd h hstatus
        | halted => exact absurd h hhalted
      exact ⟨rfl, hrunning, haborted, hspent⟩

/-- The loop executes instructions up to the bound, or it stops in front of one. -/
private theorem exists_stops_of_loops (h : Loops bound state looped) :
    ∃ count after, Executes count state after ∧ state.cycles + count ≤ max state.cycles bound ∧
      Stops bound after (limited looped) := by
  induction h with
  | @spent state hspent => exact ⟨0, state, .nil, by omega, stops_settled hspent⟩
  | @ended state ending hcount hending =>
    exact ⟨0, state, .nil, by omega, stops_of_ending? hending bound⟩
  | @fault state final report hcount hending hstep =>
    refine ⟨0, state, .nil, by omega, ?_⟩
    obtain ⟨hhalted, haborted⟩ := ending?_eq_none.mp hending
    have hrunning : state.status = .running := by
      by_contra hstatus
      obtain ⟨_, hok, -⟩ := exists_of_not_running hstatus
      cases hstep.symm.trans hok
    exact ⟨cycles_of_error hrunning hstep, ⟨hrunning, hstep⟩, haborted, hcount⟩
  | @step state after outcome looped hcount hending hstep h ih =>
    by_cases hstatus : state.status = .running
    · obtain ⟨count, finish, hexecutes, hle, hstops⟩ := ih
      have hcycles := (counts_of_step hstatus hstep).1
      exact ⟨count + 1, finish, .step hstatus hstep hexecutes, by omega, hstops⟩
    · obtain ⟨hinto, hhalted, hcycles⟩ := halted_of_step hstatus hstep
      refine ⟨0, state, .nil, by omega, ?_⟩
      rw [← limited_of_loops h, limited_of_halted hhalted]
      exact ⟨hcycles, rfl, hstatus, hinto⟩

private theorem runCycles_of_halted (hstatus : state.status = .halted) (limit : Nat) :
    runCycles limit state = .ok .halted state := by
  rw [runCycles_eq, limited_of_halted hstatus]

private theorem exists_stops (hcounted : state.cycles ≤ maxCycles) (limit : Nat) :
    ∃ count middle, Executes count state middle ∧ count ≤ limit ∧
      middle.cycles = state.cycles + count ∧ middle.cycles ≤ maxCycles ∧
      Stops (state.bound limit) middle (runCycles limit state) := by
  obtain ⟨looped, hlooped⟩ := exists_loops (state.bound limit) state
  obtain ⟨count, middle, hexecutes, hle, hstops⟩ := exists_stops_of_loops hlooped
  have hcycles := (counts_of_executes hexecutes).1
  rw [← runCycles_of_loops hlooped] at hstops
  unfold bound at hle
  exact ⟨count, middle, hexecutes, by omega, hcycles, by omega, hstops⟩

/-- Two runs with limits in a row are one, if the count has room for both. -/
private theorem runCycles_add (haborted : state.aborted = false)
    (hroom : state.cycles + (first + second) ≤ maxCycles) :
    runCycles (first + second) state =
      match runCycles first state with
      | .ok _ middle => runCycles second middle
      | .error report final => .error report final := by
  have hcounted : state.cycles ≤ maxCycles := by omega
  obtain ⟨count, middle, hexecutes, hle, hcycles, -, hstops⟩ := exists_stops hcounted first
  have hclear := (counts_of_executes hexecutes).2.trans haborted
  have hbound : state.bound first = state.cycles + first := by
    unfold bound
    omega
  rw [hbound] at hstops
  have hgranted : state.granted (first + second) = first + second := granted_eq hroom
  cases hrun : runCycles first state with
  | error report final =>
    rw [hrun] at hstops
    obtain ⟨-, hconcludes, -, hlt⟩ := hstops
    exact runCycles_of_concludes haborted hexecutes hconcludes (by omega) (by omega)
  | ok ending final =>
    rw [hrun] at hstops
    cases ending with
    | aborted =>
      obtain ⟨-, -, haborted⟩ := hstops
      rw [hclear] at haborted
      cases haborted
    | halted =>
      obtain ⟨-, -, hstatus, hstep⟩ := id hstops
      have hhalted := (halted_of_step hstatus hstep).2.1
      rw [runCycles_of_concludes haborted hexecutes hstops.2 (by omega)
        fun hrunning => absurd hrunning hstatus]
      exact (runCycles_of_halted hhalted second).symm
    | outOfCycles =>
      -- The first run has executed all that it may, and the second one goes on from there.
      obtain ⟨rfl, -, -, hspent⟩ := hstops
      obtain rfl : count = first := by omega
      dsimp only
      rw [runCycles_eq, runCycles_eq, hgranted, granted_eq (by omega), runWithin_add,
        runWithin_of_executes haborted hexecutes]

/-- A run with a limit is the loop over the count, and that loop ends. It executes no more
instructions than the limit says, nor more than can be counted, and it is out of cycles only if
nothing else ends it and the bound is reached. If nobody asks for its end and the count has room,
two runs in a row are one with both limits. A fault of the first is the fault of that one. -/
theorem runCycles_bounded (state : State) (hcounted : state.cycles ≤ maxCycles) :
    (∀ limit, (∃ looped, Loops (state.bound limit) state looped) ∧
      (∀ looped, Loops (state.bound limit) state looped →
        runCycles limit state = limited looped) ∧
      ∃ count middle, Executes count state middle ∧ count ≤ limit ∧
        middle.cycles = state.cycles + count ∧ middle.cycles ≤ maxCycles ∧
        Stops (state.bound limit) middle (runCycles limit state)) ∧
      (state.aborted = false → ∀ first second, state.cycles + (first + second) ≤ maxCycles →
        runCycles (first + second) state =
          match runCycles first state with
          | .ok _ middle => runCycles second middle
          | .error report final => .error report final) :=
  ⟨fun limit => ⟨exists_loops _ state, fun _ => runCycles_of_loops, exists_stops hcounted limit⟩,
    fun haborted _ _ => runCycles_add haborted⟩

/-- The limit is used up in front of the halt instruction, and one more cycle is enough for it. -/
theorem runCycles_bounded_halt :
    let state : State :=
      { core := .initial 1, rom := ⟨.rom, #[0, 0xff]⟩, config := { ramSize := 1, romSize := 2 } }
    let middle := behind state.step
    let final := behind (behind middle.step).step
    state.cycles ≤ maxCycles ∧ state.aborted = false ∧ state.cycles + (1 + 1) ≤ maxCycles ∧
      runCycles 1 state = .ok .outOfCycles middle ∧ runCycles 1 middle = .ok .halted final ∧
      runCycles (1 + 1) state = .ok .halted final := by
  intro state middle final
  have hcounted : state.cycles ≤ maxCycles := by decide
  have hroom : state.cycles + (1 + 1) ≤ maxCycles := by decide
  have hfirst : runCycles 1 state = .ok .outOfCycles middle := rfl
  have hsecond : runCycles 1 middle = .ok .halted final := rfl
  have hboth := (runCycles_bounded state hcounted).2 rfl 1 1 hroom
  rw [hfirst] at hboth
  exact ⟨hcounted, rfl, hroom, hfirst, hsecond, hboth.trans hsecond⟩

end WordMachine.Machine.State
