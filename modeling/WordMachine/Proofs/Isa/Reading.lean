import WordMachine.Proofs.Isa.Codec
import WordMachine.Proofs.Isa.Command

/-! The table and the commands tell the same: an entry has the mnemonic of its commands, and the
fields of its operands hold their arguments. -/
namespace WordMachine.Isa

def Operand.argument (rd rs : Register) (immediate : Word) (packed : UInt8)
    (operand : Operand) : Argument :=
  match operand.field with
  | .dest => .register rd
  | .src => .register rs
  | .pair => .number packed.toNat
  | .immediate =>
    if operand.kind = .port then .number immediate.toUInt8.toNat else .number immediate.toNat

namespace Entry

/-- Two statements about entries that differ in what their operations are applied to. -/
theorem arguments_command (rd rs : Register) (immediate : Word) (packed : UInt8) :
    ∀ entry ∈ all, (entry.operation.command rd rs immediate packed).arguments =
      entry.operands.map (Operand.argument rd rs immediate packed) := by
  unfold all
  repeat refine List.forall_mem_cons.mpr ⟨rfl, ?_⟩
  exact nofun

theorem mnemonic_command (rd rs : Register) (immediate : Word) (packed : UInt8) :
    ∀ entry ∈ all, (entry.operation.command rd rs immediate packed).mnemonic.toList =
      entry.mnemonic := by
  unfold all
  repeat refine List.forall_mem_cons.mpr ⟨rfl, ?_⟩
  exact nofun

private theorem exists_of_operation (operation : Operation) :
    ∃ entry ∈ all, entry.operation = operation := by
  have hopcode : (ofOpcode? operation.opcode).map Entry.operation = some operation := by
    cases operation with
    | branch condition mode => cases condition <;> cases mode <;> rfl
    | add mode | subtract mode | call mode => cases mode <;> rfl
    | _ => rfl
  obtain ⟨entry, hentry, hoperation⟩ := Option.map_eq_some_iff.mp hopcode
  exact ⟨entry, List.mem_of_find?_eq_some hentry, hoperation⟩

end Entry

namespace Command

/-- Every command is that of an operation. -/
private theorem exists_operation (command : Command) :
    ∃ operation : Operation, ∃ rd rs immediate packed,
      command = operation.command rd rs immediate packed := by
  cases command with
  | nop => exact ⟨.nop, .a, .a, 0, 0, rfl⟩
  | halt => exact ⟨.halt, .a, .a, 0, 0, rfl⟩
  | ret => exact ⟨.ret, .a, .a, 0, 0, rfl⟩
  | move rd rs => exact ⟨.move, rd, rs, 0, 0, rfl⟩
  | loadImmediate rd value => exact ⟨.loadImmediate, rd, .a, value, 0, rfl⟩
  | loadRam rd offset => exact ⟨.loadRam, rd, .a, offset, 0, rfl⟩
  | storeRam offset rs => exact ⟨.storeRam, .a, rs, offset, 0, rfl⟩
  | push rs => exact ⟨.push, .a, rs, 0, 0, rfl⟩
  | pushImmediate value => exact ⟨.pushImmediate, .a, .a, value, 0, rfl⟩
  | pushRam offset => exact ⟨.pushRam, .a, .a, offset, 0, rfl⟩
  | pop rd => exact ⟨.pop, rd, .a, 0, 0, rfl⟩
  | popRam offset => exact ⟨.popRam, .a, .a, offset, 0, rfl⟩
  | add rd operand =>
    cases operand with
    | register rs => exact ⟨.add .register, rd, rs, 0, 0, rfl⟩
    | value value => exact ⟨.add .immediate, rd, .a, value, 0, rfl⟩
  | subtract rd operand =>
    cases operand with
    | register rs => exact ⟨.subtract .register, rd, rs, 0, 0, rfl⟩
    | value value => exact ⟨.subtract .immediate, rd, .a, value, 0, rfl⟩
  | and rd rs => exact ⟨.and, rd, rs, 0, 0, rfl⟩
  | or rd rs => exact ⟨.or, rd, rs, 0, 0, rfl⟩
  | xor rd rs => exact ⟨.xor, rd, rs, 0, 0, rfl⟩
  | shiftLeft rt => exact ⟨.shiftLeft, rt, .a, 0, 0, rfl⟩
  | shiftRight rt => exact ⟨.shiftRight, rt, .a, 0, 0, rfl⟩
  | compare rd rs => exact ⟨.compare, rd, rs, 0, 0, rfl⟩
  | branch condition target =>
    cases target with
    | register rt => exact ⟨.branch condition .register, rt, .a, 0, 0, rfl⟩
    | value value => exact ⟨.branch condition .immediate, .a, .a, value, 0, rfl⟩
  | call target =>
    cases target with
    | register rt => exact ⟨.call .register, rt, .a, 0, 0, rfl⟩
    | value value => exact ⟨.call .immediate, .a, .a, value, 0, rfl⟩
  | output port rs =>
    exact ⟨.output, .a, rs, port.toUInt16, 0, by rw [Operation.command, UInt8.toUInt8_toUInt16]⟩
  | outputImmediate port value => exact ⟨.outputImmediate, .a, .a, value, port, rfl⟩
  | outputRam port offset => exact ⟨.outputRam, .a, .a, offset, port, rfl⟩
  | input rd port =>
    exact ⟨.input, rd, .a, port.toUInt16, 0, by rw [Operation.command, UInt8.toUInt8_toUInt16]⟩
  | inputRam offset port => exact ⟨.inputRam, .a, .a, offset, port, rfl⟩
  | drawPixel rd rs color => exact ⟨.drawPixel, rd, rs, color, 0, rfl⟩

/-- Commands of one operation differ in their arguments. -/
theorem eq_of_arguments {operation : Operation} {rd rs rd' rs' : Register}
    {immediate immediate' : Word} {packed packed' : UInt8}
    (h : (operation.command rd rs immediate packed).arguments =
      (operation.command rd' rs' immediate' packed').arguments) :
    operation.command rd rs immediate packed = operation.command rd' rs' immediate' packed' := by
  cases operation with
  | add mode | subtract mode | branch condition mode | call mode =>
    cases mode <;>
      simpa [Operation.command, arguments, Mode.source, Source.argument, UInt16.toNat_inj] using h
  | nop | halt | ret => rfl
  | output | input => simpa [Operation.command, arguments, ← UInt8.toNat_inj] using h
  | _ => simpa [Operation.command, arguments, UInt16.toNat_inj, UInt8.toNat_inj] using h

/-- The entry of a command, and the fields that say the same. -/
theorem exists_entry (command : Command) :
    ∃ entry ∈ Entry.all, ∃ rd rs immediate packed,
      command = entry.operation.command rd rs immediate packed := by
  obtain ⟨operation, rd, rs, immediate, packed, hcommand⟩ := exists_operation command
  obtain ⟨entry, hentry, rfl⟩ := Entry.exists_of_operation operation
  exact ⟨entry, hentry, rd, rs, immediate, packed, hcommand⟩

end Command

def Argument.IsOf (argument : Argument) (operand : Operand) : Prop :=
  match argument with
  | .register _ => operand.kind = .register
  | .number _ => operand.kind ≠ .register

theorem Operand.isOf_argument (rd rs : Register) (immediate : Word) (packed : UInt8)
    (operand : Operand) : (operand.argument rd rs immediate packed).IsOf operand := by
  obtain ⟨kind, role, name⟩ := operand
  cases kind with
  | register => cases role <;> rfl
  | address | port | immediate => cases role <;> exact nofun

end WordMachine.Isa
