import WordMachine.Proofs.Assembly.Resizing
import WordMachine.Proofs.Assembly.RoundTrip
import WordMachine.Proofs.Loading
import WordMachine.Proofs.Machine.Safety

/-! Addresses from source to data memory: what assembly admits for a size is there when a machine of
that size runs the program. -/
namespace WordMachine

open Assembly (AddressesBelow Program assemble)
open Machine (Arises Config State)

namespace Isa

/-- The command of an entry names a word of data memory if one of the operands is an address, and
then by the immediate. -/
private theorem Entry.offset?_command (rd rs : Register) (immediate : Word) (packed : UInt8) :
    ∀ entry ∈ all, (entry.operation.command rd rs immediate packed).offset? =
      if entry.operands.any (·.kind = .address) then some immediate else none := by
  unfold all
  repeat refine List.forall_mem_cons.mpr ⟨rfl, ?_⟩
  exact nofun

private theorem Operand.field_of_address {operand : Operand} (h : operand.kind = .address) :
    operand.field = .immediate := by
  obtain ⟨kind, role, name⟩ := operand
  subst h
  cases role <;> rfl

/-- A canonical word names no data memory that is not there. -/
private theorem Canonical.offset_lt {ramSize : Nat} {word : CodeWord} (h : Canonical ramSize word)
    {command : Command} (hcommand : (Instruction.decode word).command? = some command)
    {offset : Word} (hoffset : command.offset? = some offset) : offset.toNat < ramSize := by
  obtain ⟨entry, hentry⟩ := h
  obtain ⟨hdest, hsrc⟩ := Instruction.decode_encodable word
  obtain ⟨rd, rs, -, -, hfound⟩ := Instruction.exists_command hentry.opcode hdest hsrc
  obtain rfl := Option.some.inj (hfound.symm.trans hcommand)
  have hlisted := (Entry.ofOpcode?_eq_some.mp hentry.opcode).1
  rw [Entry.offset?_command _ _ _ _ entry hlisted, Option.ite_none_right_eq_some] at hoffset
  obtain ⟨hany, himmediate⟩ := hoffset
  obtain ⟨operand, hoperand, haddress⟩ := List.any_eq_true.mp hany
  have hkind : operand.kind = .address := of_decide_eq_true haddress
  have hlt := hentry.address operand hoperand hkind
  rw [Operand.field_of_address hkind] at hlt
  rwa [← Option.some.inj himmediate]

/-- The zeros behind a program name no data memory at all. -/
private theorem canonical_zero (ramSize : Nat) : Canonical ramSize 0 := by
  obtain ⟨entry, hentry, hnone⟩ :
      ∃ entry, Entry.ofOpcode? 0 = some entry ∧ entry.operands = [] := ⟨_, rfl, rfl⟩
  refine ⟨entry, hentry, fun field hfield _ => ?_, ?_, ?_⟩
  · cases field with
    | pair => exact absurd rfl hfield
    | dest | src | immediate => rfl
  · rw [hnone]
    exact nofun
  · rw [hnone]
    exact nofun

end Isa

namespace Machine

variable {config : Config} {words : List CodeWord} {state : State}

/-- What is fetched is a word of the program or a zero. -/
private theorem canonical_of_arises {ramSize : Nat} (h : Arises config words state)
    (hcanonical : ∀ word ∈ words, Isa.Canonical ramSize word) {word : CodeWord} {ip : Nat}
    (hword : state.rom.cells[ip]? = some word) : Isa.Canonical ramSize word := by
  rw [rom_of_arises h, List.getElem?_toArray] at hword
  rcases List.mem_append.mp (List.mem_of_getElem? hword) with hmem | hmem
  · exact hcanonical word hmem
  · rw [List.eq_of_mem_replicate hmem]
    exact Isa.canonical_zero ramSize

/-- While the data pointer is zero, the word of data memory that a canonical program names is
there. -/
private theorem address_lt_of_arises (h : Arises config words state)
    (hcanonical : ∀ word ∈ words, Isa.Canonical config.ramSize word)
    (hdp : state.core.registers.get .dp = 0) {command : Isa.Command}
    (hcommand : state.command? = some command) {offset : Word}
    (hoffset : command.offset? = some offset) :
    state.core.view.address offset < config.ramSize := by
  obtain ⟨word, hword, hdecode⟩ := Option.bind_eq_some_iff.mp hcommand
  have haddress : state.core.view.address offset = offset.toNat := by
    change (state.core.registers.get .dp + offset).toNat = _
    rw [hdp, UInt16.zero_add]
  rw [haddress]
  exact (canonical_of_arises h hcanonical hword).offset_lt hdecode hoffset

/-- While the data pointer is zero, a canonical program misses data memory only where it puts a word
on a stack that begins behind it. -/
private theorem faultIn_ram_iff_of_arises (h : Arises config words state)
    (hcanonical : ∀ word ∈ words, Isa.Canonical config.ramSize word)
    (hdp : state.core.registers.get .dp = 0) (address size : Nat) :
    State.faultIn state.step = some (.memoryViolation ⟨.ram, address, size⟩) ↔
      state.status = .running ∧ (∃ command, state.command? = some command ∧ command.pushes) ∧
        config.ramSize < state.sp ∧ address + 1 = state.sp ∧ size = config.ramSize := by
  by_cases hstatus : state.status = .running
  · have hthere := @address_lt_of_arises config words state h hcanonical hdp
    rw [State.faultIn_eq_ram_iff (fits_of_arises h) hstatus]
    constructor
    · rintro ⟨⟨hmissing, command, hcommand, ⟨-, offset, hoffset, rfl⟩ | ⟨hpushes, -, hsp⟩⟩, hsize⟩
      · exact absurd (hthere hcommand hoffset) (Nat.not_lt.mpr hmissing)
      · exact ⟨hstatus, ⟨command, hcommand, hpushes⟩, by omega, hsp, hsize⟩
    · rintro ⟨-, ⟨command, hcommand, hpushes⟩, hlt, hsp, hsize⟩
      have hprovides : state.Provides config command := fun _ hoffset => hthere hcommand hoffset
      exact ⟨⟨by omega, command, hcommand, .inr ⟨hpushes, hprovides, hsp⟩⟩, hsize⟩
  · obtain ⟨final, hstep, -⟩ := State.exists_of_not_running hstatus
    rw [hstep]
    exact ⟨nofun, fun hrunning => absurd hrunning.1 hstatus⟩

end Machine

/-- More data memory changes nothing of a program, and less only if an address is not below it,
which is then to blame. A machine with the size that a program was assembled for does not miss data
memory while the data pointer is zero, except where a word is put on a stack that begins behind it.
-/
theorem addresses_agree (source : List Char) :
    (∀ size other program, size ≤ other → assemble size source = .ok program →
      assemble other source = .ok program) ∧
    (∀ size other program, assemble other source = .ok program →
      (AddressesBelow size source → assemble size source = .ok program) ∧
      (¬ AddressesBelow size source → ∃ line address, size ≤ address ∧
        assemble size source = .error ⟨line, .outsideRam address size⟩)) ∧
    ∀ (config : Config) (program : Program) (state : State),
      assemble config.ramSize source = .ok program → Arises config program.words state →
        state.core.registers.get .dp = 0 → ∀ address size,
          State.faultIn state.step = some (.memoryViolation ⟨.ram, address, size⟩) ↔
            state.status = .running ∧
              (∃ command, state.command? = some command ∧ command.pushes) ∧
              config.ramSize < state.sp ∧ address + 1 = state.sp ∧ size = config.ramSize := by
  refine ⟨fun size other program hle h => Assembly.assemble_mono hle h, ?_, ?_⟩
  · intro size other program h
    refine ⟨(Assembly.assemble_iff_addressesBelow h).mpr, fun hnot => ?_⟩
    obtain hsame | ⟨⟨line, cause⟩, herror, address, rfl, hle, -⟩ :=
      Assembly.assemble_resize size h
    · exact absurd (Assembly.addressesBelow_of_assemble hsame) hnot
    · exact ⟨line, address, hle, herror⟩
  · intro config program state h harises hdp
    exact Machine.faultIn_ram_iff_of_arises harises (Assembly.canonical_of_assemble h) hdp

/-- A label is an address that is not below every size, and a stack begins behind data memory. -/
theorem addresses_agree_label :
    let source := "ldi sp, 9; push a; ldm b, [end]; end: nop".toList
    let program : Program :=
      ⟨[{ opcode := 2, dest := 11, immediate := 9 }, { opcode := 5 },
        { opcode := 3, dest := 1, immediate := 3 }, { opcode := 0 }],
        [⟨"end".toList, 3⟩], [0x90b02, 5, 0x30103, 0]⟩
    let config : Config := { ramSize := 4, romSize := 8 }
    ∃ start : State, State.load config program.words = .ok start ∧
      assemble 4 source = .ok program ∧ assemble 5 source = .ok program ∧
      (∃ line address, 3 ≤ address ∧
        assemble 3 source = .error ⟨line, .outsideRam address 3⟩) ∧
      State.faultIn (State.behind start.step).step = some (.memoryViolation ⟨.ram, 8, 4⟩) := by
  intro source program config
  have hassemble : assemble 4 source = .ok program := by decide +kernel
  have hnot : assemble 3 source ≠ .ok program := by decide +kernel
  obtain ⟨hmore, hless, hruns⟩ := addresses_agree source
  obtain ⟨hbelow, habove⟩ := hless 3 4 program hassemble
  have hload : State.load config program.words = .ok _ := State.load_of_le rfl (by decide)
  refine ⟨_, hload, hassemble, hmore 4 5 program (by decide) hassemble,
    habove fun h => hnot (hbelow h), ?_⟩
  have harises : Arises config program.words (State.behind (State.step _)) := .step (.load hload)
  refine (hruns config program _ hassemble harises (by decide +kernel) 8 4).mpr ?_
  exact ⟨by decide +kernel, ⟨.push .a, by decide +kernel, rfl⟩, by decide +kernel,
    by decide +kernel, rfl⟩

end WordMachine
