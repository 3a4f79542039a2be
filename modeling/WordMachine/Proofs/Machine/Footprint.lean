import WordMachine.Proofs.Isa.Reading
import WordMachine.Proofs.Machine.Ports
import WordMachine.Proofs.Machine.Safety

/-! The footprint of a step: no more changes than what the instruction at the instruction pointer
writes, and program memory never does. -/
namespace WordMachine

namespace Isa.Instruction

/-- A decoded word without a command has an unknown opcode, and each entry has a command with its
mnemonic. -/
theorem exists_command_of_entry {word : CodeWord} {entry : Entry}
    (h : Entry.ofOpcode? (decode word).opcode = some entry) :
    ∃ command, (decode word).command? = some command ∧
      command.mnemonic.toList = entry.mnemonic := by
  obtain ⟨hdest, hsrc⟩ := decode_encodable word
  obtain ⟨rd, rs, -, -, hcommand⟩ := exists_command h hdest hsrc
  have hlisted := (Entry.ofOpcode?_eq_some.mp h).1
  exact ⟨_, hcommand, Entry.mnemonic_command rd rs _ _ entry hlisted⟩

end Isa.Instruction

namespace Machine

open Isa (Command Entry Instruction Register)

namespace State

structure Confines (before after : State) (command : Command) : Prop where
  registers : ∀ register,
    after.core.registers.get register ≠ before.core.registers.get register →
      command.Writes register
  ram : ∀ address, after.core.ram.cells[address]? ≠ before.core.ram.cells[address]? →
    before.core.view.written? command = some address
  ports : ∀ port, after.core.port port ≠ before.core.port port →
    command.writtenPort? = some port

variable {state after : State} {word : CodeWord} {command : Command}

private theorem due_of_getElem? (hword : state.rom.cells[state.ip]? = some word)
    (hcommand : (Instruction.decode word).command? = some command) :
    state.due = state.core.view.perform command := by
  apply due_of_command?
  exact Option.bind_eq_some_iff.mpr ⟨word, hword, hcommand⟩

private theorem confines_of_view (h : after.core.view = (state.core.view.perform command).view) :
    state.Confines after command where
  registers register hne := by
    by_contra hwrites
    have hreg := congrArg (·.reg register) h
    exact hne (hreg.trans (View.reg_perform hwrites))
  ram address hne := by
    by_contra hwritten
    have hram := congrArg (·.ram.cells[address]?) h
    exact hne (hram.trans (View.getElem?_perform hwritten))
  ports port hne := by
    have hport : after.core.port port = (state.core.view.perform command).view.port port :=
      congrFun (congrArg View.port h) port
    rw [View.port_perform] at hport
    cases hsent : state.core.view.sent? command with
    | none =>
      rw [hsent] at hport
      exact absurd hport hne
    | some output =>
      obtain ⟨written, value⟩ := output
      rw [hsent] at hport
      have heq : port = written := by
        by_contra hother
        exact hne (hport.trans (Function.update_of_ne hother _ _))
      rw [heq]
      exact View.writtenPort?_of_sent? hsent

section Running

variable (hstatus : state.status = .running) (hpresses : state.display.presses = #[])

include hstatus hpresses

/-- What is the same behind every step. -/
private theorem setting_step : (behind state.step).rom = state.rom ∧
    (behind state.step).config = state.config ∧
    (behind state.step).core.ram.name = state.core.ram.name ∧
    (behind state.step).core.ram.size = state.core.ram.size := by
  have hundergoes := undergoes_step state hstatus hpresses
  have hconfig : (behind state.step).config = state.config := by
    obtain ⟨core, pixel, journal, -, hstep⟩ | ⟨core, journal, -, hstep⟩ |
      ⟨fault, core, journal, -, hstep⟩ := undergoes_cases hundergoes
    all_goals
      rw [hstep]
      rfl
  have hram := congrArg View.ram (view_of_undergoes hundergoes)
  obtain ⟨hname, hsize⟩ := size_due state
  rw [← hram] at hname hsize
  exact ⟨state.rom_step, hconfig, hname, hsize⟩

/-- A word that is known writes what its command writes. -/
private theorem confines_step (hword : state.rom.cells[state.ip]? = some word)
    (hcommand : (Instruction.decode word).command? = some command) :
    state.Confines (behind state.step) command := by
  apply confines_of_view
  rw [← due_of_getElem? hword hcommand]
  exact view_of_undergoes (undergoes_step state hstatus hpresses)

/-- A word that is not known is passed by. -/
private theorem exists_of_unknown (hword : state.rom.cells[state.ip]? = some word)
    (hunknown : Entry.ofOpcode? (Instruction.decode word).opcode = none) :
    ∃ journal, state.step = .ok .normal { state with
      core.registers := state.core.registers.set .ip (state.core.registers.get .ip + 1)
      cycles := state.cycles + 1
      journal } := by
  have hnone : (Instruction.decode word).command? = none := by
    rw [Instruction.command?, hunknown]
    rfl
  have hdue : state.due = .passes state.core.view.next none := by
    have hfetched : state.rom.cells[(state.core.registers.get .ip).toNat]? = some word := hword
    simp only [due, hfetched, hnone]
  have hundergoes := undergoes_step state hstatus hpresses
  rw [hdue] at hundergoes
  obtain ⟨core, pixel, journal, heffect, hstep⟩ | ⟨_, _, ⟨⟩, -⟩ | ⟨_, _, _, ⟨⟩, -⟩ :=
    undergoes_cases hundergoes
  obtain ⟨hview, rfl⟩ := Effect.passes.inj heffect
  have hcore : core = { state.core with
      registers := state.core.registers.set .ip (state.core.registers.get .ip + 1) } :=
    Core.view_injective (hview.symm.trans (view_advance state).symm)
  exact ⟨journal, by rw [hstep, hcore]; rfl⟩

/-- Where program memory ends nothing is done. -/
private theorem core_of_missing (hmissing : state.rom.size ≤ state.ip) :
    (behind state.step).core = state.core ∧ (behind state.step).cycles = state.cycles := by
  have hdue : state.due =
      .faults (.memoryViolation (state.rom.violation state.ip)) state.core.view := by
    have hfetched : state.rom.cells[(state.core.registers.get .ip).toNat]? = none :=
      Array.getElem?_eq_none hmissing
    simp only [due, hfetched]
    rfl
  have hundergoes := undergoes_step state hstatus hpresses
  rw [hdue] at hundergoes
  obtain ⟨_, _, _, ⟨⟩, -⟩ | ⟨_, _, ⟨⟩, -⟩ | ⟨fault, core, journal, heffect, hstep⟩ :=
    undergoes_cases hundergoes
  obtain ⟨-, hview⟩ := Effect.faults.inj heffect
  rw [hstep]
  exact ⟨Core.view_injective hview.symm, rfl⟩

end Running

end State

/-- Without input a step changes nothing but what the command of the fetched word writes. A word
with an unknown opcode moves the instruction pointer and the clock on, and nothing is done where
program memory ends. Program memory holds the program for as long as the machine is there. -/
theorem step_footprint :
    (∀ state : State, state.status = .running → state.display.presses = #[] →
      let after := State.behind state.step
      (after.rom = state.rom ∧ after.config = state.config ∧
        after.core.ram.name = state.core.ram.name ∧
        after.core.ram.size = state.core.ram.size) ∧
      (state.rom.size ≤ state.ip → after.core = state.core ∧ after.cycles = state.cycles) ∧
      ∀ word, state.rom.cells[state.ip]? = some word →
        (∀ entry, Entry.ofOpcode? (Instruction.decode word).opcode = some entry →
          ∃ command, (Instruction.decode word).command? = some command ∧
            command.mnemonic.toList = entry.mnemonic ∧ state.Confines after command) ∧
        (Entry.ofOpcode? (Instruction.decode word).opcode = none →
          ∃ journal, state.step = .ok .normal { state with
            core.registers := state.core.registers.set .ip (state.core.registers.get .ip + 1)
            cycles := state.cycles + 1
            journal })) ∧
    ∀ (config : Config) (words : List CodeWord) (state : State), Arises config words state →
      state.rom =
        ⟨.rom, (words ++ List.replicate (config.romSize - words.length) 0).toArray⟩ := by
  refine ⟨fun state hstatus hpresses => ⟨State.setting_step hstatus hpresses,
    State.core_of_missing hstatus hpresses, fun word hword => ⟨?_, ?_⟩⟩,
    fun config words state h => rom_of_arises h⟩
  · intro entry hentry
    obtain ⟨command, hcommand, hmnemonic⟩ := Instruction.exists_command_of_entry hentry
    exact ⟨command, hcommand, hmnemonic, State.confines_step hstatus hpresses hword hcommand⟩
  · exact State.exists_of_unknown hstatus hpresses hword

/-- A word is put on the stack, and behind that a word with an unknown opcode is passed by. -/
theorem step_footprint_push :
    let config : Config := { ramSize := 8, romSize := 3 }
    let start : State := { core := .initial 8, rom := ⟨.rom, #[5, 0xabcdef30, 0]⟩, config }
    let pushed := State.behind start.step
    start.Confines pushed (.push .a) ∧
      (∃ journal, pushed.step = .ok .normal { pushed with
        core.registers := pushed.core.registers.set .ip (pushed.core.registers.get .ip + 1)
        cycles := pushed.cycles + 1
        journal }) ∧
      (State.behind pushed.step).rom.cells = #[5, 0xabcdef30, 0] := by
  intro config start pushed
  obtain ⟨hsteps, hruns⟩ := step_footprint
  have hentry : ∃ entry, Entry.ofOpcode? (Instruction.decode 5).opcode = some entry := ⟨_, rfl⟩
  have hpush : (Instruction.decode 5).command? = some (.push .a) := by decide +kernel
  have hunknown : Entry.ofOpcode? (Instruction.decode 0xabcdef30).opcode = none := by
    decide +kernel
  have hload : State.load config [5, 0xabcdef30] = .ok start := rfl
  obtain ⟨entry, hentry⟩ := hentry
  obtain ⟨-, -, hstart⟩ := hsteps start rfl rfl
  obtain ⟨command, hcommand, -, hconfines⟩ := (hstart 5 rfl).1 entry hentry
  obtain rfl : .push .a = command := Option.some.inj (hpush.symm.trans hcommand)
  obtain ⟨-, -, hpushed⟩ := hsteps pushed (by decide +kernel) (by decide +kernel)
  have hpassed := (hpushed 0xabcdef30 (by decide +kernel)).2 hunknown
  exact ⟨hconfines, hpassed, congrArg Bank.cells (hruns config _ _ (.step (.step (.load hload))))⟩

end Machine

end WordMachine
