import WordMachine.Proofs.Machine.Effect
import WordMachine.Proofs.Sequencing

/-! The machine does what is documented: executing an instruction has the effect of the command
that it stands for. -/
namespace WordMachine.Machine

open Isa (Register Command Source Operation Instruction Mode Entry)
open Display (Pixel)

namespace Core

variable (core : Core)

private theorem view_set (register : Register) (value : Word) :
    Core.view { core with registers := core.registers.set register value } =
      core.view.setReg register (value &&& register.width.mask) := by
  refine View.ext ?_ rfl rfl
  funext other
  by_cases h : other = register
  · subst h
    simp only [view, View.setReg, Function.update_self]
    exact RegisterFile.get_set_self ..
  · simp only [view, View.setReg, Function.update_of_ne h]
    exact RegisterFile.get_set_of_ne _ (Ne.symm h) _

theorem view_set_word {register : Register} (h : register.width = .word) (value : Word) :
    Core.view { core with registers := core.registers.set register value } =
      core.view.setReg register value := by
  rw [view_set, h]
  congr 1
  exact UInt16.and_neg_one

private theorem view_setFlags (flags : Flags) :
    Core.view { core with registers := core.registers.setFlags flags } =
      core.view.setReg .flgs flags.toBits := by
  rw [RegisterFile.setFlags, view_set]
  exact congrArg _ flags.toBits_and_mask

private theorem view_withZero (result : Word) :
    Core.view { core with
      registers := core.registers.setFlags { core.registers.flags with zero := result == 0 } } =
      core.view.withZero result := by
  rw [view_setFlags, View.withZero]
  congr 1
  apply (Flags.toBits_withZero _ _).trans
  simp only [beq_iff_eq]
  rfl

private theorem view_withComparison (dest src : Word) :
    Core.view { core with
      registers := core.registers.setFlags ((Alu.compare dest src) core.registers.flags).2 } =
      core.view.withComparison dest src := by
  rw [view_setFlags, View.withComparison]
  congr 1
  exact Flags.toBits_withComparison _ dest src

private theorem view_withHalt :
    Core.view { core with
      registers := core.registers.setFlags { core.registers.flags with halt := true } } =
      core.view.withHalt := by
  rw [view_setFlags, View.withHalt]
  congr 1
  exact Flags.toBits_withHalt _

private theorem view_assign {register : Register} (h : register ≠ .flgs) (value : Word) :
    Core.view { core with registers := core.registers.set register value } =
      core.view.assign register value := by
  cases register with
  | flgs => exact absurd rfl h
  | inp => exact view_set core .inp value
  | _ => exact view_set_word core rfl value

private theorem view_setPort (port : UInt8) (value : Word) :
    (core.setPort port value).view =
      { core.view with port := Function.update core.view.port port value } := by
  refine View.ext rfl rfl ?_
  funext other
  by_cases h : other = port
  · subst h
    simp only [view, Function.update_self]
    exact port_setPort_self ..
  · simp only [view, Function.update_of_ne h]
    exact port_setPort_of_ne _ (Ne.symm h) _

end Core

private theorem toUInt8_and_mask (value mask : Word) {size : Nat}
    (hmask : ∀ n, n &&& mask.toNat = n % size) :
    (value &&& mask).toUInt8 = .ofNat (value.toNat % size) := by
  apply UInt8.toNat.inj
  rw [UInt16.toNat_toUInt8, UInt16.toNat_and, hmask, UInt8.toNat_ofNat']

theorem pixel_of (x y color : Word) : Pixel.of x y color = View.pixel x y color := by
  have hfour (n : Nat) : n &&& 0xf = n % 16 := Nat.and_two_pow_sub_one_eq_mod n 4
  have hthree (n : Nat) : n &&& 7 = n % 8 := Nat.and_two_pow_sub_one_eq_mod n 3
  unfold Pixel.of View.pixel
  rw [toUInt8_and_mask x 0xf hfour, toUInt8_and_mask y 0xf hfour, toUInt8_and_mask color 7 hthree]

private theorem pixel_unpack (value : Word) :
    Pixel.unpack value = View.pixel value (value >>> 4) (value >>> 8) := by
  have hvalue : value.toNat < 0x10000 := value.toNat_lt
  have hshift (count : Word) (hcount : count.toNat < 16) :
      value >>> count = .ofNat (value.toNat / 2 ^ count.toNat) := by
    apply UInt16.toNat.inj
    have hle := Nat.div_le_self value.toNat (2 ^ count.toNat)
    rw [UInt16.toNat_shiftRight, Nat.mod_eq_of_lt hcount, Nat.shiftRight_eq_div_pow,
      UInt16.toNat_ofNat', Nat.mod_eq_of_lt (by omega)]
  rw [← pixel_of, Pixel.unpack, hshift 4 (by decide), hshift 8 (by decide)]
  rfl

def Effect.of : EStateM.Result Fault Core Signal → Effect
  | .ok .halt core => .halts core.view
  | .ok (.pixel pixel) core => .passes core.view.next (some pixel)
  | .ok _ core => .passes core.view.next none
  | .error fault core => .faults fault core.view

namespace Execution

variable {core : Core}

section Sequence

variable {α : Type}

private theorem select_of {address : UInt8} {register : Register}
    (h : Register.ofAddress? address = some register) :
    select address core = .ok register core := by
  rw [select, h]
  rfl

private theorem read_bind {address : UInt8} {register : Register}
    (h : Register.ofAddress? address = some register) (rest : Word → Execution α) :
    (read address >>= rest) core = rest (core.view.reg register) core := by
  apply bind_of_ok
  rw [read, bind_of_ok (select_of h)]
  rfl

private theorem effectiveAddress_bind (offset : Word) (rest : Nat → Execution α) :
    (effectiveAddress offset >>= rest) core = rest (core.view.address offset) core := rfl

private theorem portIn_bind (port : UInt8) (rest : Word → Execution α) :
    (portIn port >>= rest) core = rest (core.view.portIn port) core := by
  apply bind_of_ok
  unfold portIn View.portIn
  by_cases h : port = 0
  · subst h
    rfl
  · rw [if_neg (show ¬ port = inputPort from h), if_neg h]
    rfl

end Sequence

private theorem of_assign {address : UInt8} {register : Register}
    (h : Register.ofAddress? address = some register) (value : Word) :
    Effect.of (assign address value core) =
      .passes (core.view.assign register value).next none := by
  rw [assign, bind_of_ok (select_of h)]
  by_cases hflgs : register = .flgs
  · rw [if_pos hflgs, hflgs]
    rfl
  · rw [if_neg hflgs, ← core.view_assign hflgs]
    rfl

private theorem of_readRam (address : Nat) (rest : Word → Execution Signal) :
    Effect.of ((readRam address >>= rest) core) =
      core.view.reading address fun value => Effect.of (rest value core) := by
  have hget : (get : Execution Core) core = .ok core core := rfl
  unfold View.reading
  cases h : core.view.ram.cells[address]? with
  | some value =>
    obtain ⟨hlt, rfl⟩ := Array.getElem?_eq_some_iff.mp h
    have hread : readRam address core = .ok core.view.ram.cells[address] core := by
      rw [readRam, bind_of_ok hget, Bank.read_of_lt core.ram hlt]
      rfl
    rw [bind_of_ok hread]
  | none =>
    have hread : readRam address core =
        .error (.memoryViolation (core.ram.violation address)) core := by
      rw [readRam, bind_of_ok hget, Bank.read_of_le core.ram (Array.getElem?_eq_none_iff.mp h)]
      rfl
    rw [bind_of_error hread]
    rfl

private theorem of_writeRam (address : Nat) (value : Word) {rest : Unit → Execution Signal}
    {after : View → Effect} (h : ∀ core, Effect.of (rest () core) = after core.view) :
    Effect.of ((writeRam address value >>= rest) core) =
      core.view.writing address value after := by
  unfold View.writing
  by_cases hlt : address < core.view.ram.cells.size
  · have hram : writeRam address value core =
        .ok () { core with
          ram := { core.ram with cells := core.ram.cells.set address value } } := by
      simp only [writeRam, ram, Bank.write_of_lt core.ram hlt]
    rw [dif_pos hlt, bind_of_ok hram, h]
    rfl
  · have hram : writeRam address value core =
        .error (.memoryViolation (core.ram.violation address)) core := by
      simp only [writeRam, ram, Bank.write_of_le core.ram (Nat.not_lt.mp hlt)]
    rw [dif_neg hlt, bind_of_error hram]
    rfl

private theorem of_setReg {register : Register} (hwidth : register.width = .word) (value : Word)
    {rest : Unit → Execution Signal} {after : View → Effect}
    (h : ∀ core, Effect.of (rest () core) = after core.view) :
    Effect.of ((setReg register value >>= rest) core) =
      after (core.view.setReg register value) := by
  rw [← core.view_set_word hwidth, ← h]
  rfl

private theorem of_push (value : Word) {rest : Unit → Execution Signal} {after : View → Effect}
    (h : ∀ core, Effect.of (rest () core) = after core.view) :
    Effect.of ((push value >>= rest) core) = core.view.pushing value after := by
  unfold push View.pushing
  rw [bind_assoc, bind_of_ok (show register .sp core = .ok (core.view.reg .sp) core from rfl)]
  by_cases hsp : core.view.reg .sp = 0
  · rw [if_pos hsp, if_pos hsp]
    rfl
  · rw [if_neg hsp, if_neg hsp, bind_assoc]
    exact of_writeRam _ _ fun core => of_setReg rfl _ h

private theorem of_pop {rest : Word → Execution Signal} {after : Word → View → Effect}
    (h : ∀ value core, Effect.of (rest value core) = after value core.view) :
    Effect.of ((pop >>= rest) core) = core.view.popping after := by
  unfold pop View.popping
  rw [bind_assoc, bind_of_ok (show register .sp core = .ok (core.view.reg .sp) core from rfl),
    bind_assoc, bind_of_ok (show (get : Execution Core) core = .ok core core from rfl)]
  by_cases hsp : core.ram.size ≤ (core.view.reg .sp).toNat
  · rw [if_pos hsp]
    exact (if_pos hsp).symm
  · rw [if_neg hsp, if_neg (show ¬ core.view.ram.cells.size ≤ _ from hsp), bind_assoc, of_readRam]
    congr 1
    funext value
    rw [bind_assoc]
    apply of_setReg rfl
    exact h value

/-- A jump leaves the instruction pointer in front of its target. -/
private theorem of_jump (target : Word) :
    Effect.of ((jump target >>= fun _ => pure .quiet) core) =
      .passes (core.view.goTo target) none := by
  have hset : Effect.of ((setReg .ip (target - 1) >>= fun _ => pure .quiet) core) =
      .passes (core.view.setReg .ip (target - 1)).next none :=
    @of_setReg core .ip rfl _ _ (fun view => .passes view.next none) fun _ => rfl
  apply hset.trans
  simp only [View.next, View.goTo, View.setReg, Function.update_self, Function.update_idem,
    UInt16.sub_add_cancel]

variable {instruction : Instruction} {rd rs : Register}

private theorem target_bind {α : Type} (hdest : Register.ofAddress? instruction.dest = some rd)
    (mode : Mode)
    (rest : Word → Execution α) :
    (target mode instruction >>= rest) core =
      rest (core.view.source (mode.source rd instruction.immediate)) core := by
  cases mode with
  | register => exact read_bind hdest rest
  | immediate => rfl

private theorem of_result (hdest : Register.ofAddress? instruction.dest = some rd) (result : Word) :
    Effect.of ((alu (Alu.result result) >>= assign instruction.dest) core) =
      core.view.compute rd result := by
  apply (of_assign hdest result).trans
  rw [View.compute, ← core.view_withZero]

private theorem of_combine (hdest : Register.ofAddress? instruction.dest = some rd)
    {operand : Execution Word} {b : Word} (hoperand : operand core = .ok b core)
    (operation : Word → Word → Word) :
    Effect.of (Execution.combine instruction operand
      (fun a b => Alu.result (operation a b)) core) =
      core.view.compute rd (operation (core.view.reg rd) b) := by
  rw [combine, bind_of_ok hoperand, read_bind hdest]
  exact of_result hdest _

private theorem of_shift (hdest : Register.ofAddress? instruction.dest = some rd)
    (operation : Word → Word) :
    Effect.of (shift instruction (fun a => Alu.result (operation a)) core) =
      core.view.compute rd (operation (core.view.reg rd)) := by
  rw [shift, read_bind hdest]
  exact of_result hdest _

private theorem of_portOut (port : UInt8) (value : Word) :
    Effect.of (portOut port value core) = core.view.portOut port value := by
  unfold View.portOut
  rw [← core.view_setPort, ← pixel_unpack]
  by_cases h : port = 1
  · subst h
    rfl
  · rw [if_neg h]
    have hout : portOut port value core =
        .ok (if port = displayPort then .pixel (.unpack value) else .quiet)
          (core.setPort port value) := rfl
    rw [hout, if_neg (show ¬ port = displayPort from h)]
    rfl

/-- An operation does on the registers and values of its instruction what its command does. -/
private theorem of_perform (hdest : Register.ofAddress? instruction.dest = some rd)
    (hsrc : Register.ofAddress? instruction.src = some rs) (operation : Operation) :
    Effect.of (perform operation instruction core) =
      core.view.perform (operation.command rd rs instruction.immediate
        (instruction.get .pair).toUInt8) := by
  have hread : read instruction.src core = .ok (core.view.reg rs) core := by
    rw [← bind_pure (read instruction.src), read_bind hsrc]
    rfl
  have hsecond (mode : Mode) : second mode instruction core =
      .ok (core.view.source (mode.source rs instruction.immediate)) core := by
    cases mode with
    | register => exact hread
    | immediate => rfl
  have hquiet (core : Core) : Effect.of ((pure .quiet : Execution Signal) core) =
      .passes core.view.next none := rfl
  -- On either side the operands come first: a case reads them and cites what is done with them.
  cases operation <;> simp only [perform, Operation.command, View.perform]
  case nop => rfl
  case move =>
    rw [read_bind hsrc]
    exact of_assign hdest _
  case halt => exact congrArg Effect.halts core.view_withHalt
  case loadImmediate => exact of_assign hdest _
  case loadRam =>
    rw [effectiveAddress_bind, of_readRam]
    congr 1
    funext value
    exact of_assign hdest _
  case storeRam =>
    rw [read_bind hsrc, effectiveAddress_bind]
    apply of_writeRam
    exact hquiet
  case push =>
    rw [read_bind hsrc]
    apply of_push
    exact hquiet
  case pushImmediate =>
    apply of_push
    exact hquiet
  case pushRam =>
    rw [effectiveAddress_bind, of_readRam]
    congr 1
    funext value
    apply of_push
    exact hquiet
  case pop =>
    apply of_pop
    intro value core
    exact of_assign hdest _
  case popRam =>
    apply of_pop
    intro value core
    apply of_writeRam
    exact hquiet
  case compare =>
    rw [read_bind hdest, read_bind hsrc, ← core.view_withComparison]
    rfl
  case add mode => exact of_combine hdest (hsecond mode) (· + ·)
  case subtract mode => exact of_combine hdest (hsecond mode) (· - ·)
  case and => exact of_combine hdest hread (· &&& ·)
  case or => exact of_combine hdest hread (· ||| ·)
  case xor => exact of_combine hdest hread (· ^^^ ·)
  case shiftLeft => exact of_shift hdest (· <<< 1)
  case shiftRight => exact of_shift hdest (· >>> 1)
  case branch condition mode =>
    rw [bind_of_ok (show (get : Execution Core) core = .ok core core from rfl)]
    have hmeet : core.registers.flags.meet condition =
        Flags.bitsMeet (core.view.reg .flgs) condition := Flags.meet_ofBits _ condition
    rw [← hmeet]
    by_cases h : core.registers.flags.meet condition = true
    · rw [if_pos h, if_pos h, target_bind hdest]
      exact of_jump _
    · rw [if_neg h, if_neg h]
      rfl
  case call mode =>
    rw [target_bind hdest]
    apply of_push
    intro core
    exact of_jump _
  case ret =>
    apply of_pop
    intro value core
    exact of_jump value
  case output =>
    rw [read_bind hsrc]
    exact of_portOut _ _
  case outputImmediate => exact of_portOut _ _
  case outputRam =>
    rw [effectiveAddress_bind, of_readRam]
    congr 1
    funext value
    exact of_portOut _ _
  case input =>
    rw [portIn_bind]
    exact of_assign hdest _
  case inputRam =>
    rw [portIn_bind, effectiveAddress_bind]
    apply of_writeRam
    exact hquiet
  case drawPixel =>
    rw [read_bind hdest, read_bind hsrc, ← pixel_of]
    rfl

end Execution

variable {instruction : Instruction} (core : Core)

/-- Executing an instruction has the documented effect of its command. -/
theorem of_execute {command : Command} (h : instruction.command? = some command) :
    Effect.of (execute instruction core) = core.view.perform command := by
  simp only [Instruction.command?, Option.bind_eq_bind, Option.bind_eq_some_iff] at h
  obtain ⟨entry, hentry, rd, hrd, rs, hrs, ⟨⟩⟩ := h
  rw [execute, hentry]
  exact Execution.of_perform hrd hrs entry.operation

/-- An instruction that is not in the table is skipped. -/
theorem of_execute_unknown (h : Entry.ofOpcode? instruction.opcode = none) :
    Effect.of (execute instruction core) = .passes core.view.next none := by
  rw [execute, h]
  rfl

end WordMachine.Machine
