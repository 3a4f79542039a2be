import WordMachine.Proofs.Assembly.Meaning
import WordMachine.Proofs.Machine.Bank
import WordMachine.Proofs.Machine.Step

/-! From source to effect: a machine that runs an assembled program does what the source says. -/
namespace WordMachine

open Assembly (Program Statement assemble instructionStatements)
open Isa (Argument Command Instruction)
open Machine (Bank State)

variable {ramSize : Nat} {source : List Char} {program : Program}

/-- The words of a program stand for the commands that its statements say. -/
theorem exists_command_of_assemble (h : assemble ramSize source = .ok program) {index : Nat}
    (hindex : index < program.size) :
    ∃ statement command word, (instructionStatements source)[index]? = some statement ∧
      program.words[index]? = some word ∧
      (Instruction.decode word).command? = some command ∧
      ∀ other, statement.Says program.labels other ↔ other = command := by
  obtain ⟨statement, instruction, word, hstatement, hword, hfulfil, hencode⟩ :=
    Assembly.exists_statement_of_assemble h hindex
  have hlabels := (Assembly.fulfils_of_assemble h).1
  obtain ⟨entry, arguments, hreads, hbuild⟩ := hfulfil
  obtain ⟨rd, rs, immediate, packed, hcommand, harguments⟩ :=
    Assembly.exists_command_of_reads hreads
  refine ⟨statement, entry.operation.command rd rs immediate packed, word, hstatement, hword, ?_,
    ?_⟩
  · rw [Instruction.decode_of_encode hencode, hbuild, hcommand]
  · intro other
    rw [hlabels, Assembly.says_iff_of_reads hreads]
    constructor
    · rintro ⟨⟨rd', rs', immediate', packed', rfl⟩, hother⟩
      exact Command.eq_of_arguments (hother.trans harguments.symm)
    · rintro rfl
      exact ⟨⟨rd, rs, immediate, packed, rfl⟩, harguments⟩

/-- One step of a machine that is about to execute an instruction of an assembled program has the
effect of the one command that the statement of the instruction says. -/
theorem step_of_assemble (h : assemble ramSize source = .ok program) {bank : Bank CodeWord}
    {state : State} (hrom : Bank.load 0 program.words.toArray bank = .ok () state.rom)
    (hstatus : state.status = .running) (hpresses : state.display.presses = #[]) {index : Nat}
    (hindex : index < program.size) (hip : (state.core.registers.get .ip).toNat = index) :
    ∃ statement command, (instructionStatements source)[index]? = some statement ∧
      (∀ other, statement.Says program.labels other ↔ other = command) ∧
      state.Undergoes (state.core.view.perform command) state.step := by
  obtain ⟨statement, command, word, hstatement, hword, hcommand, hsays⟩ :=
    exists_command_of_assemble h hindex
  refine ⟨statement, command, hstatement, hsays, ?_⟩
  have hlt : index < program.words.toArray.size := (List.getElem?_eq_some_iff.mp hword).1
  have hfetch : state.rom.cells[index]? = some word := by
    rw [← Nat.zero_add index, Bank.getElem?_of_load hrom hlt, List.getElem?_toArray, hword]
  have hdue : state.due = state.core.view.perform command := by
    simp only [State.due, hip, hfetch, hcommand]
  rw [← hdue]
  exact State.undergoes_step state hstatus hpresses

/-- A jump to a label that is declared behind it. -/
theorem step_of_assemble_jump :
    let source := "jmpi [end]; end: hlt".toList
    let program : Program :=
      ⟨[{ opcode := 0x15, immediate := 1 }, { opcode := 0xff }], [⟨"end".toList, 1⟩], [0x10015, 0xff]⟩
    let state : State :=
      { core := .initial 8, rom := ⟨.rom, #[0x10015, 0xff]⟩, config := {} }
    ∃ statement command, (instructionStatements source)[0]? = some statement ∧
      (∀ other, statement.Says program.labels other ↔ other = command) ∧
      state.Undergoes (state.core.view.perform command) state.step := by
  intro source program state
  have hassemble : assemble 8 source = .ok program := by
    decide +kernel
  have hrom : Bank.load 0 program.words.toArray (.filled .rom 2 0) = .ok () state.rom :=
    Bank.load_eq_ok.mpr (by decide +kernel)
  exact step_of_assemble hassemble hrom rfl rfl (Nat.zero_lt_succ 1) rfl

end WordMachine
