import WordMachine.Proofs.Machine.History
import WordMachine.Proofs.Machine.Input
import WordMachine.Proofs.Machine.Step

/-! The flags of every machine that a program reaches tell of the last comparison, the last result
and a halt, and branches go by them. -/
namespace WordMachine.Machine

open Isa (Command Instruction Register Source Condition)

namespace State

def command? (state : State) : Option Command :=
  state.rom.cells[(state.core.registers.get .ip).toNat]?.bind fun word =>
    (Instruction.decode word).command?

/-- What the next step executes, on the core with the input that has arrived. -/
def executing (state : State) : History :=
  if state.status = .running then
    (state.takeInput.command?.map fun command => ⟨command, state.takeInput.core.view⟩).toList
  else
    []

/-- The machine behind a step, whether the step has ended in a fault or not. -/
def behind : EStateM.Result FaultReport State Outcome → State
  | .ok _ after => after
  | .error _ after => after

variable {state : State} {history : History}

theorem due_of_command? {command : Command} (h : state.command? = some command) :
    state.due = state.core.view.perform command := by
  obtain ⟨word, hword, hcommand⟩ := Option.bind_eq_some_iff.mp h
  simp only [due, hword, hcommand]

/-- Without a command there is a fault, or the word is passed by. -/
theorem due_of_command?_eq_none (h : state.command? = none) :
    (∃ fault, state.due = .faults fault state.core.view) ∨
      state.due = .passes state.core.view.next none := by
  unfold command? at h
  unfold due
  dsimp only
  cases hword : state.rom.cells[(state.core.registers.get .ip).toNat]? with
  | none => exact .inl ⟨_, rfl⟩
  | some word =>
    rw [hword, Option.bind_some] at h
    right
    simp only [h]

private theorem flgs_due (h : state.core.view.reg .flgs = history.flags.toBits) :
    state.due.view.reg .flgs = (History.flags ((state.command?.map fun command =>
      ⟨command, state.core.view⟩).toList ++ history)).toBits := by
  unfold due command?
  dsimp only
  cases state.rom.cells[(state.core.registers.get .ip).toNat]? with
  | none => exact h
  | some word =>
    dsimp only [Option.bind_some]
    cases (Instruction.decode word).command? with
    | none => exact h
    | some command => exact View.flgs_perform h command

private theorem core_dismissDisplay (state : State) : state.dismissDisplay.core = state.core := by
  unfold dismissDisplay
  split
  · rfl
  · rfl

/-- A machine that does not run keeps its core. -/
theorem core_step_of_not_running (hstatus : state.status ≠ .running) :
    (behind state.step).core = state.core := by
  unfold step
  cases h : state.status with
  | halted => rfl
  | halting => exact core_dismissDisplay { state with status := .halted }
  | running => exact absurd h hstatus

theorem view_of_undergoes {effect : Effect} {result : EStateM.Result FaultReport State Outcome}
    (h : state.Undergoes effect result) : (behind result).core.view = effect.view := by
  obtain ⟨core, pixel, journal, rfl, rfl⟩ | ⟨core, journal, rfl, rfl⟩ |
    ⟨fault, core, journal, rfl, rfl⟩ := undergoes_cases h
  all_goals rfl

theorem exists_of_passes {view : View} {pixel : Option Display.Pixel}
    {result : EStateM.Result FaultReport State Outcome}
    (h : state.Undergoes (.passes view pixel) result) :
    ∃ after, result = .ok .normal after ∧ after.core.view = view := by
  obtain ⟨core, _, journal, ⟨⟩, rfl⟩ | ⟨_, _, ⟨⟩, -⟩ | ⟨_, _, _, ⟨⟩, -⟩ := undergoes_cases h
  exact ⟨_, rfl, rfl⟩

/-- A step leaves the flags that follow from the history with what it has executed. -/
private theorem flgs_step (h : state.core.registers.get .flgs = history.flags.toBits) :
    (behind state.step).core.registers.get .flgs =
      (History.flags (state.executing ++ history)).toBits := by
  unfold executing
  by_cases hstatus : state.status = .running
  · rw [if_pos hstatus]
    have hinput : state.takeInput.core.view.reg .flgs = history.flags.toBits :=
      (get_takeInput state (by decide)).trans h
    rw [← flgs_due hinput, ← view_of_undergoes (undergoes_due state hstatus)]
    rfl
  · rw [if_neg hstatus, core_step_of_not_running hstatus]
    exact h

/-- A branch is taken if the history meets its condition, and otherwise passed by. -/
private theorem branch_step (h : state.core.registers.get .flgs = history.flags.toBits)
    (hstatus : state.status = .running) {condition : Condition} {target : Source}
    (hcommand : state.takeInput.command? = some (.branch condition target)) :
    ∃ after, state.step = .ok .normal after ∧
      (history.Meets condition → after.core.view =
        state.takeInput.core.view.goTo (state.takeInput.core.view.source target)) ∧
      (¬ history.Meets condition → after.core.view = state.takeInput.core.view.next) := by
  have hinput : state.takeInput.core.view.reg .flgs = history.flags.toBits :=
    (get_takeInput state (by decide)).trans h
  have hmeets : Flags.bitsMeet (state.takeInput.core.view.reg .flgs) condition = true ↔
      history.Meets condition := by
    rw [hinput, ← Flags.meet_ofBits, Flags.ofBits_toBits, History.meet_flags]
  have hundergoes : state.takeInput.Undergoes
      (state.takeInput.core.view.perform (.branch condition target)) state.step := by
    rw [← due_of_command? hcommand]
    exact undergoes_due state hstatus
  rw [View.perform] at hundergoes
  by_cases hmet : history.Meets condition
  · rw [if_pos (hmeets.mpr hmet)] at hundergoes
    obtain ⟨after, hstep, hview⟩ := exists_of_passes hundergoes
    exact ⟨after, hstep, fun _ => hview, fun hnot => absurd hmet hnot⟩
  · rw [if_neg (fun hmeet => hmet (hmeets.mp hmeet))] at hundergoes
    obtain ⟨after, hstep, hview⟩ := exists_of_passes hundergoes
    exact ⟨after, hstep, fun hmeet => absurd hmeet hmet, fun _ => hview⟩

end State

variable {config : Config} {words : List CodeWord} {history : History} {state : State}

/-- The machines that a program reaches, each with what was executed. Between two steps anything
but the registers may change. -/
inductive Reached (config : Config) (words : List CodeWord) : History → State → Prop
  | load {state : State} (h : State.load config words = .ok state) : Reached config words [] state
  | meanwhile {history : History} {state after : State} (h : Reached config words history state)
      (hregisters : after.core.registers = state.core.registers) :
      Reached config words history after
  | step {history : History} {state : State} (h : Reached config words history state) :
      Reached config words (state.executing ++ history) (State.behind state.step)

/-- A machine is set up when its sizes are good and its program fits. -/
theorem State.load_eq_ok : State.load config words = .ok state ↔
    config.check = .ok () ∧
      ∃ rom, Bank.load 0 words.toArray (.filled .rom config.romSize 0) = .ok () rom ∧
        state = { core := .initial config.ramSize, rom, config } := by
  unfold State.load
  cases config.check with
  | error error => exact ⟨nofun, fun h => nomatch h.1⟩
  | ok =>
    dsimp only [bind, Except.bind]
    cases Bank.load 0 words.toArray (.filled .rom config.romSize 0) with
    | error => exact ⟨nofun, fun ⟨_, _, hload, _⟩ => nomatch hload⟩
    | ok value rom =>
      constructor
      · rintro ⟨⟩
        exact ⟨rfl, rom, rfl, rfl⟩
      · rintro ⟨-, _, ⟨⟩, rfl⟩
        rfl

theorem registers_of_load (h : State.load config words = .ok state) :
    state.core.registers = .initial (.ofNat config.ramSize) := by
  obtain ⟨-, rom, -, rfl⟩ := State.load_eq_ok.mp h
  rfl

/-- The flag register follows from what was executed. -/
private theorem flgs_of_reached (h : Reached config words history state) :
    state.core.registers.get .flgs = history.flags.toBits := by
  induction h with
  | load h =>
    rw [registers_of_load h]
    exact RegisterFile.get_set_of_ne _ (by decide) _
  | meanwhile h hregisters ih =>
    rw [hregisters]
    exact ih
  | step h ih => exact State.flgs_step ih

/-- The flag register shows the last comparison, the last result and a halt, whatever was executed
in between, and each branch goes by them. -/
theorem flags_and_branches_of_reached (h : Reached config words history state) :
    history.Leaves (state.core.registers.get .flgs) ∧
      ∀ condition target, state.status = .running →
        state.takeInput.command? = some (.branch condition target) →
          ∃ after, state.step = .ok .normal after ∧
            (history.Meets condition → after.core.view =
              state.takeInput.core.view.goTo (state.takeInput.core.view.source target)) ∧
            (¬ history.Meets condition → after.core.view = state.takeInput.core.view.next) := by
  have hflgs := flgs_of_reached h
  constructor
  · rw [hflgs]
    exact history.leaves_flags
  · intro condition target hstatus hcommand
    exact State.branch_step hflgs hstatus hcommand

/-- After a comparison of zero with two a branch is taken, although the flags were the destination
of a move in between. -/
theorem flags_and_branches_of_reached_greater :
    let config : Config := { ramSize := 1, romSize := 4 }
    let words : List CodeWord := [0x20002, 0x10e, 0x1e01, 0x9001e]
    let start : State := { core := .initial 1, rom := ⟨.rom, words.toArray⟩, config }
    let loaded := State.behind start.step
    let compared := State.behind loaded.step
    let moved := State.behind compared.step
    let history := compared.executing ++ (loaded.executing ++ (start.executing ++ []))
    Reached config words history moved ∧ history.comparison? = some (0, 2) ∧
      history.Leaves (moved.core.registers.get .flgs) ∧
      ∃ after, moved.step = .ok .normal after ∧ after.core.view.reg .ip = 9 := by
  intro config words start loaded compared moved history
  have hload : State.load config words = .ok start := rfl
  have hreached : Reached config words history moved := .step (.step (.step (.load hload)))
  have hcomparison : history.comparison? = some (0, 2) := by
    decide +kernel
  have hcommand : moved.takeInput.command? = some (.branch .greater (.value 9)) := by
    decide +kernel
  obtain ⟨hleaves, hbranch⟩ := flags_and_branches_of_reached hreached
  obtain ⟨after, hstep, htaken, -⟩ := hbranch .greater (.value 9) (by decide +kernel) hcommand
  refine ⟨hreached, hcomparison, hleaves, after, hstep, ?_⟩
  rw [htaken ⟨0, 2, hcomparison, by decide⟩]
  rfl

end WordMachine.Machine
