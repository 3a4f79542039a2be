import WordMachine.Proofs.Machine.Faults
import WordMachine.Proofs.Machine.Signal
import WordMachine.Proofs.Machine.Turns

/-! How a machine comes to its end: it executes instructions until one asks for the halt, which the
next step carries out, or until one faults. From then on it stays as it is. -/
namespace WordMachine.Machine

open Isa (Instruction)

inductive Course : Status → List (Except FaultReport Outcome) → Prop
  | running (count : Nat) : Course .running (.replicate count (.ok .normal))
  | halting (count : Nat) : Course .halting (.replicate count (.ok .normal) ++ [.ok .halting])
  | halted (count rest : Nat) : Course .halted
      (.replicate count (.ok .normal) ++ .ok .halting :: .replicate (rest + 1) (.ok .halted))
  | faulted (count rest : Nat) (report : FaultReport) : Course .halted
      (.replicate count (.ok .normal) ++ .error report :: .replicate rest (.ok .halted))

def counts : Except FaultReport Outcome → Bool
  | .ok .normal | .ok .halting => true
  | .ok .halted | .error _ => false

namespace State

/-- Whether a machine has been asked to halt by the instruction that it had in front of it before:
the flag of the halt is set, and the instruction pointer still points to the word. -/
structure AskedToHalt (before state : State) : Prop where
  flag : state.core.registers.flags.halt = true
  rom : state.rom = before.rom
  ip : state.core.registers.get .ip = before.core.registers.get .ip
  word : ∃ word, state.rom.cells[(state.core.registers.get .ip).toNat]? = some word ∧
    (Instruction.decode word).opcode = 0xff

/-- What holds of a machine behind the steps of others, which are given as they were in front of
them. -/
structure InCourse (stepped : List State) (state : State) : Prop where
  course : Course state.status (stepped.map fun before => told before.step)
  cycles : state.cycles = (stepped.map fun before => told before.step).countP counts
  asked : state.status = .halting →
    ∃ before, stepped.getLast? = some before ∧ before.AskedToHalt state

variable {state after : State} {stepped : List State}

private theorem AskedToHalt.of_undisturbed {before : State} (h : before.AskedToHalt state)
    (hundisturbed : state.Undisturbed after) : before.AskedToHalt after where
  flag := hundisturbed.1 ▸ h.flag
  rom := hundisturbed.2.1.trans h.rom
  ip := hundisturbed.1 ▸ h.ip
  word := by
    rw [hundisturbed.1, hundisturbed.2.1]
    exact h.word

/-- The halt that is due is that of an instruction. -/
private theorem exists_of_due_halts {view : View} (h : state.due = .halts view) :
    view = state.core.view.withHalt ∧
      ∃ word, state.rom.cells[(state.core.registers.get .ip).toNat]? = some word ∧
        (Instruction.decode word).opcode = 0xff := by
  have hcommand := command?_of_due_halts h
  rw [due_of_command? hcommand] at h
  obtain ⟨word, hword, hhalt⟩ := Option.bind_eq_some_iff.mp hcommand
  exact ⟨(Effect.halts.inj h).symm, word, hword, Instruction.opcode_of_halt hhalt⟩

/-- Behind the halt instruction its flag is set and control has not moved on. -/
private theorem askedToHalt_of_step (hstatus : state.status = .running)
    (hstep : state.step = .ok .halting after) : state.AskedToHalt after := by
  obtain ⟨_, _, _, -, h⟩ | ⟨core, journal, hdue, h⟩ | ⟨_, _, _, -, h⟩ := step_cases hstatus <;>
    rw [hstep] at h <;> cases h
  obtain ⟨hview, word, hword, hopcode⟩ := exists_of_due_halts hdue
  have hip : core.registers.get .ip = state.core.registers.get .ip := by
    rw [show core.registers.get .ip = core.view.reg .ip from rfl, hview]
    exact (View.reg_setReg_of_ne (by decide)).trans (get_takeInput state (by decide))
  refine ⟨?_, rfl, hip, word, ?_, hopcode⟩
  · have hflgs : core.registers.get .flgs = state.takeInput.core.view.reg .flgs &&& 0x1f ||| 8 := by
      rw [show core.registers.get .flgs = core.view.reg .flgs from rfl, hview]
      exact View.reg_setReg_self
    rw [RegisterFile.flags, hflgs, ← Flags.toBits_withHalt, Flags.ofBits_toBits]
  · rw [hip, ← get_takeInput state (by decide), ← rom_takeInput state]
    exact hword

private theorem InCourse.of_undisturbed (h : InCourse stepped state)
    (hundisturbed : state.Undisturbed after) : InCourse stepped after where
  course := hundisturbed.2.2.2.2 ▸ h.course
  cycles := hundisturbed.2.2.2.1.trans h.cycles
  asked hstatus := by
    obtain ⟨before, hlast, hasked⟩ := h.asked (hundisturbed.2.2.2.2.symm.trans hstatus)
    exact ⟨before, hlast, hasked.of_undisturbed hundisturbed⟩

/-- Each status allows the outcomes that a step from there has. -/
private theorem Course.step {outcomes : List (Except FaultReport Outcome)}
    (h : Course state.status outcomes) :
    Course (behind state.step).status (outcomes ++ [told state.step]) := by
  cases hstatus : state.status with
  | running =>
    rw [hstatus] at h
    cases h with | running count =>
    obtain ⟨_, _, _, -, hstep⟩ | ⟨_, _, -, hstep⟩ | ⟨_, _, _, -, hstep⟩ := step_cases hstatus
    · rw [hstep, told, ← List.replicate_succ']
      exact hstatus ▸ .running (count + 1)
    · rw [hstep]
      exact .halting count
    · rw [hstep]
      exact .faulted count 0 _
  | halting =>
    rw [hstatus] at h
    cases h with | halting count =>
    rw [step_of_halting hstatus, List.append_assoc]
    exact .halted count 0
  | halted =>
    rw [step_of_halted hstatus, behind, told, hstatus]
    rw [hstatus] at h
    cases h with
    | halted count rest =>
      rw [List.append_assoc, List.cons_append, ← List.replicate_succ']
      exact .halted count (rest + 1)
    | faulted count rest report =>
      rw [List.append_assoc, List.cons_append, ← List.replicate_succ']
      exact .faulted count (rest + 1) report

/-- A step counts if it has executed an instruction. -/
private theorem cycles_step (state : State) :
    (behind state.step).cycles = state.cycles + [told state.step].countP counts := by
  cases hstatus : state.status with
  | running =>
    obtain ⟨_, _, _, -, hstep⟩ | ⟨_, _, -, hstep⟩ | ⟨_, _, _, -, hstep⟩ := step_cases hstatus <;>
      rw [hstep] <;> rfl
  | halting =>
    rw [step_of_halting hstatus]
    rfl
  | halted =>
    rw [step_of_halted hstatus]
    rfl

private theorem InCourse.step (h : InCourse stepped state) :
    InCourse (stepped ++ [state]) (behind state.step) where
  course := by
    rw [List.map_append]
    exact Course.step h.course
  cycles := by
    rw [List.map_append, List.countP_append, ← h.cycles]
    exact cycles_step state
  asked hhalting := by
    refine ⟨state, List.getLast?_concat, ?_⟩
    cases hstatus : state.status with
    | running =>
      obtain ⟨_, _, _, -, hstep⟩ | ⟨_, _, -, hstep⟩ | ⟨_, _, _, -, hstep⟩ := step_cases hstatus
      · rw [hstep] at hhalting
        exact nomatch hstatus.symm.trans hhalting
      · rw [hstep]
        exact askedToHalt_of_step hstatus hstep
      · rw [hstep] at hhalting
        cases hhalting
    | halting =>
      rw [step_of_halting hstatus] at hhalting
      cases hhalting
    | halted =>
      rw [step_of_halted hstatus] at hhalting
      exact nomatch hstatus.symm.trans hhalting

private theorem inCourse_of_load {config : Config} {words : List CodeWord}
    (h : load config words = .ok state) : InCourse [] state := by
  obtain ⟨-, rom, -, rfl⟩ := load_eq_ok.mp h
  exact ⟨.running 0, rfl, nofun⟩

/-- A new machine keeps its course whatever happens around it. The count of its cycles is that of
the calls that have executed an instruction, so it has room where the number of calls has. A halt
that was asked for is carried out by the next call, which changes the status and the display alone,
and no call changes anything behind that. -/
theorem inCourse_afterTurns {config : Config} {words : List CodeWord} {start : State}
    (h : load config words = .ok start) (turns : List Turn) :
    let stepped := start.stepping turns
    let state := start.afterTurns turns
    InCourse stepped state ∧ state.cycles ≤ stepped.length ∧
      (state.status = .halting → state.step = .ok .halted
        { state with status := .halted, display := dismissed state.display }) ∧
      (state.status = .halted → ∀ more, (state.afterTurns more).status = .halted ∧
        (state.afterTurns more).step = .ok .halted (state.afterTurns more)) := by
  intro stepped state
  have hcourse : InCourse stepped state :=
    stepping_induct InCourse (inCourse_of_load h) (fun _ _ => InCourse.step)
      (fun _ _ _ => InCourse.of_undisturbed) turns
  refine ⟨hcourse, ?_, step_of_halting, fun hstatus more => ?_⟩
  · calc state.cycles
        = (stepped.map fun before => told before.step).countP counts := hcourse.cycles
      _ ≤ (stepped.map fun before => told before.step).length := List.countP_le_length
      _ = stepped.length := List.length_map _
  · have hhalted := halted_afterTurns hstatus more
    exact ⟨hhalted, step_of_halted hhalted⟩

/-- A display is attached while the halt is pending, and told to close by the next step. -/
theorem inCourse_afterTurns_halt :
    let start : State :=
      { core := .initial 1, rom := ⟨.rom, #[0, 0xff]⟩, config := { ramSize := 1, romSize := 2 } }
    let state := start.afterTurns [.step, .step, .incident .attach]
    load { ramSize := 1, romSize := 2 } [0, 0xff] = .ok start ∧ state.status = .halting ∧
      state.cycles = 2 ∧ state.core.registers.flags.halt = true ∧
      ∃ after, state.step = .ok .halted after ∧
        after.display = { messages := #[.close], hasLink := false } := by
  intro start state
  have hload : load { ramSize := 1, romSize := 2 } [0, 0xff] = .ok start := rfl
  have hstatus : state.status = .halting := by decide +kernel
  obtain ⟨hcourse, -, hsettles, -⟩ :=
    inCourse_afterTurns hload [.step, .step, .incident .attach]
  obtain ⟨before, -, hasked⟩ := hcourse.asked hstatus
  have hcycles : state.cycles = 2 := by
    rw [hcourse.cycles]
    decide +kernel
  exact ⟨hload, hstatus, hcycles, hasked.flag, _, hsettles hstatus, by decide +kernel⟩

end State

end WordMachine.Machine
