import WordMachine.Proofs.Assembly.Printing
import WordMachine.Proofs.Assembly.Spelling
import WordMachine.Proofs.Fidelity
import WordMachine.Proofs.Machine.Ports

/-! Ports from source to effect: a port literal, the field of the instruction word and the latch
that a command reads or writes are all of one port. -/
namespace WordMachine

open Assembly (Program Statement assemble instructionStatements)
open Isa (Argument Command Entry Instruction Operand Operation Register)
open Machine (Config Executed History Latching State)

namespace Isa

/-- The port of a command is the pair of its register fields or the low byte of its immediate
field. -/
private theorem Operation.port_command {operation : Operation} {rd rs : Register} {immediate : Word}
    {packed port : UInt8}
    (h : (operation.command rd rs immediate packed).port? = some port) :
    port = if (operation.command rd rs immediate packed).packsPort then packed
      else immediate.toUInt8 := by
  cases operation <;> cases h <;> rfl

/-- The fields in which an instruction names its port. -/
theorem Instruction.port_of_command? {instruction : Instruction} {command : Command}
    {port : UInt8} (hencodable : instruction.Encodable)
    (hcommand : instruction.command? = some command) (hport : command.port? = some port) :
    port.toNat = if command.packsPort then 16 * instruction.dest.toNat + instruction.src.toNat
      else instruction.immediate.toNat % 0x100 := by
  obtain ⟨entry, -, hrest⟩ := Option.bind_eq_some_iff.mp hcommand
  obtain ⟨rd, -, hrest⟩ := Option.bind_eq_some_iff.mp hrest
  obtain ⟨rs, -, hrest⟩ := Option.bind_eq_some_iff.mp hrest
  obtain rfl := Option.some.inj hrest
  rw [Operation.port_command hport]
  obtain ⟨hdest, hsrc⟩ := hencodable
  split
  next =>
    rw [UInt16.toNat_toUInt8, Instruction.toNat_get_pair ⟨hdest, hsrc⟩,
      Nat.mod_eq_of_lt (by omega)]
  next => exact UInt16.toNat_toUInt8 _

/-- The operands that are ports stand for the port of the command. -/
private theorem Entry.ports_command (rd rs : Register) (immediate : Word) (packed : UInt8) :
    ∀ entry ∈ all, (entry.operands.filter (·.kind = .port)).map
        (Operand.argument rd rs immediate packed) =
      (entry.operation.command rd rs immediate packed).port?.toList.map
        fun port => .number port.toNat := by
  unfold all
  repeat refine List.forall_mem_cons.mpr ⟨rfl, ?_⟩
  exact nofun

theorem Entry.exists_port {entry : Entry} (hentry : entry ∈ all) {operand : Operand}
    (hoperand : operand ∈ entry.operands) (hkind : operand.kind = .port) (rd rs : Register)
    (immediate : Word) (packed : UInt8) :
    ∃ port, (entry.operation.command rd rs immediate packed).port? = some port ∧
      operand.argument rd rs immediate packed = .number port.toNat := by
  have hfilter : operand ∈ entry.operands.filter (·.kind = .port) :=
    List.mem_filter.mpr ⟨hoperand, decide_eq_true hkind⟩
  have hmem : operand.argument rd rs immediate packed ∈
      (entry.operands.filter (·.kind = .port)).map (Operand.argument rd rs immediate packed) :=
    List.mem_map_of_mem hfilter
  rw [ports_command rd rs immediate packed entry hentry] at hmem
  obtain ⟨port, hport, hargument⟩ := List.mem_map.mp hmem
  exact ⟨port, Option.mem_toList.mp hport, hargument.symm⟩

end Isa

variable {ramSize : Nat} {source : List Char} {program : Program}

/-- The word of a statement with a port literal stands for a command on that port. -/
private theorem exists_port_of_assemble (h : assemble ramSize source = .ok program)
    {index value : Nat}
    {statement : Statement} {entry : Entry} {operand : Operand} {text : List Char}
    (hstatement : (instructionStatements source)[index]? = some statement)
    (hentry : Entry.ofMnemonic? statement.mnemonic = some entry)
    (hoperand : (operand, text) ∈ entry.operands.zip statement.operands)
    (hkind : operand.kind = .port) (hvalue : Assembly.Literal.parse? text = some value) :
    ∃ word command port, program.words[index]? = some word ∧
      (Instruction.decode word).command? = some command ∧ command.port? = some port ∧
      port.toNat = value := by
  have hindex : index < program.size := by
    rw [Program.size, ← (Assembly.fulfils_of_assemble h).2.1.length_eq]
    exact (List.getElem?_eq_some_iff.mp hstatement).1
  obtain ⟨same, command, word, hsame, hword, hcommand, hmeaning⟩ :=
    exists_command_of_assemble h hindex
  obtain rfl : same = statement := Option.some.inj (hsame.symm.trans hstatement)
  obtain ⟨hmnemonic, hwritten⟩ := (hmeaning command).mpr rfl
  obtain ⟨other, hlisted, rd, rs, immediate, packed, rfl⟩ := Command.exists_entry command
  rw [Entry.mnemonic_command _ _ _ _ other hlisted] at hmnemonic
  have hother := Entry.ofMnemonic?_eq_some.mpr ⟨hlisted, hmnemonic⟩
  obtain rfl : other = entry := Option.some.inj (hother.symm.trans hentry)
  obtain ⟨port, hport, hargument⟩ := Entry.exists_port hlisted (List.of_mem_zip hoperand).1 hkind
    rd rs immediate packed
  refine ⟨word, _, port, hword, hcommand, hport, ?_⟩
  rw [Entry.arguments_command _ _ _ _ other hlisted, List.forall₂_map_right_iff] at hwritten
  have hread : Assembly.WrittenAs program.labels text
      (operand.argument rd rs immediate packed) :=
    (List.forall₂_iff_zip.mp hwritten.flip).2 hoperand
  rw [hargument, Assembly.WrittenAs,
    Assembly.referredLabel?_of_isWord (Assembly.Literal.isWord_of_parse? hvalue)] at hread
  exact Option.some.inj (hread.symm.trans hvalue)

/-- Ports are latches, and all commands address them alike. What input delivers from a port other
than zero is the value of the last output to it or else zero, and from port zero it is the buttons;
the port of a command is the pair of its register fields or the low byte of its immediate field;
and a port literal of the source is the port of the command that its statement becomes. -/
theorem ports_latch :
    (∀ (config : Config) (words : List CodeWord) (history : History) (state : State),
      Latching config words history state → state.status = .running →
        let view := state.takeInput.core.view
        (∀ rd port, state.command? = some (.input rd port) → state.takeInput.Undergoes
          (.passes (view.assign rd (history.delivered view port)).next none) state.step) ∧
        ∀ offset port, state.command? = some (.inputRam offset port) → state.takeInput.Undergoes
          (view.writing (view.address offset) (history.delivered view port) fun after =>
            .passes after.next none) state.step) ∧
    (∀ (word : CodeWord) (command : Command) (port : UInt8),
      (Instruction.decode word).command? = some command → command.port? = some port →
        port.toNat =
          if command.packsPort then
            16 * (Instruction.decode word).dest.toNat + (Instruction.decode word).src.toNat
          else (Instruction.decode word).immediate.toNat % 0x100) ∧
    ∀ (ramSize : Nat) (source : List Char) (program : Program),
      assemble ramSize source = .ok program → ∀ (index : Nat) (statement : Statement),
        (instructionStatements source)[index]? = some statement → ∀ (entry : Entry),
          Entry.ofMnemonic? statement.mnemonic = some entry → ∀ operand text value,
            (operand, text) ∈ entry.operands.zip statement.operands → operand.kind = .port →
              Assembly.Literal.parse? text = some value → ∃ word command port,
                program.words[index]? = some word ∧
                (Instruction.decode word).command? = some command ∧
                command.port? = some port ∧ port.toNat = value := by
  refine ⟨fun config words history state h hstatus => Machine.undergoes_of_latching h hstatus,
    fun word command port hcommand hport => ?_, ?_⟩
  · exact Instruction.port_of_command? (Instruction.decode_encodable word) hcommand hport
  · intro ramSize source program h index statement hstatement entry hentry operand text value
    exact exists_port_of_assemble h hstatement hentry

/-- Seven is sent to a port by one of the two encodings and read back by the other one. -/
theorem ports_latch_outi_in :
    let source := "outi 0x21, 7; in b, 33".toList
    let program : Program := ⟨[{ opcode := 0x26, dest := 2, src := 1, immediate := 7 },
      { opcode := 0x28, dest := 1, immediate := 33 }], [], [0x71226, 0x210128]⟩
    let config : Config := { ramSize := 8, romSize := 2 }
    let start : State := { core := .initial 8, rom := ⟨.rom, #[0x71226, 0x210128]⟩, config }
    let sent := State.behind start.step
    assemble 8 source = .ok program ∧
      (∃ word command port, program.words[1]? = some word ∧
        (Instruction.decode word).command? = some command ∧ command.port? = some port ∧
        port.toNat = 33) ∧
      16 * (Instruction.decode 0x71226).dest.toNat + (Instruction.decode 0x71226).src.toNat = 33 ∧
      sent.takeInput.Undergoes (.passes (sent.takeInput.core.view.assign .b 7).next none)
        sent.step := by
  intro source program config start sent
  obtain ⟨hdelivers, hfields, hsource⟩ := ports_latch
  have hassemble : assemble 8 source = .ok program := by
    decide +kernel
  have hload : State.load config program.words = .ok start := rfl
  have hinput := (hdelivers config _ _ sent (.step (.load hload)) (by decide +kernel)).1 .b 33
    (by decide +kernel)
  have hseven : (start.executing ++ []).delivered sent.takeInput.core.view 33 = 7 := by
    decide +kernel
  rw [hseven] at hinput
  have hport := hfields 0x71226 (.outputImmediate 33 7) 33 (by decide +kernel) rfl
  have hentry : Entry.ofMnemonic? "in".toList = some ⟨.input, 0x28, "in".toList, "In",
      "Read port into Rd", [⟨.register, .destination, "rd"⟩, ⟨.port, .source, "port"⟩]⟩ := by
    decide +kernel
  have hread := hsource 8 source program hassemble 1 ⟨1, "in b, 33".toList⟩ (by decide +kernel) _
    hentry ⟨.port, .source, "port"⟩ "33".toList 33 (by decide +kernel) rfl (by decide +kernel)
  exact ⟨hassemble, hread, hport.symm, hinput⟩

end WordMachine
