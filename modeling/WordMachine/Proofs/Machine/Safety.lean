import WordMachine.Proofs.Machine.Arising
import WordMachine.Proofs.Machine.Faults

/-! Exactly when the machines that a program brings about fault, and why. -/
namespace WordMachine.Machine

open Isa (Command Register)

namespace View

def Provides (view : View) (command : Command) : Prop :=
  ∀ offset, command.offset? = some offset → view.address offset < view.ram.size

/-- Why a command faults: of two reasons that hold at once only one counts. -/
inductive Hazard (view : View) (command : Command) : Fault → Prop
  | empty (hpops : command.pops) (hempty : view.ram.size ≤ (view.reg .sp).toNat) :
      view.Hazard command .stackUnderflow
  | missing {offset : Word} (hoffset : command.offset? = some offset)
      (hpops : command.pops → (view.reg .sp).toNat < view.ram.size)
      (hmissing : view.ram.size ≤ view.address offset) :
      view.Hazard command (.memoryViolation (view.ram.violation (view.address offset)))
  | full (hpushes : command.pushes) (hprovides : view.Provides command)
      (hfull : (view.reg .sp).toNat = 0) : view.Hazard command .stackOverflow
  | outside (hpushes : command.pushes) (hprovides : view.Provides command)
      (houtside : view.ram.size < (view.reg .sp).toNat) :
      view.Hazard command (.memoryViolation (view.ram.violation ((view.reg .sp).toNat - 1)))

variable {view : View} {command : Command} {fault : Fault}

private theorem missing?_eq_some {address : Nat} : view.missing? address = some fault ↔
    view.ram.size ≤ address ∧ fault = .memoryViolation (view.ram.violation address) := by
  rw [missing?, Option.ite_none_right_eq_some, Option.some.injEq, eq_comm (a := fault)]

private theorem empty?_eq_some : view.empty? = some fault ↔
    view.ram.size ≤ (view.reg .sp).toNat ∧ fault = .stackUnderflow := by
  rw [empty?, Option.ite_none_right_eq_some, Option.some.injEq, eq_comm (a := fault)]

private theorem full?_eq_some : view.full? = some fault ↔
    (view.reg .sp).toNat = 0 ∧ fault = .stackOverflow ∨
      view.ram.size < (view.reg .sp).toNat ∧
        fault = .memoryViolation (view.ram.violation ((view.reg .sp).toNat - 1)) := by
  unfold full?
  by_cases hsp : view.reg .sp = 0
  · rw [if_pos hsp, hsp, Option.some.injEq, eq_comm (a := fault)]
    simp
  · have hbefore := toNat_before hsp
    have hsub : (view.reg .sp - 1).toNat = (view.reg .sp).toNat - 1 := Nat.eq_sub_of_add_eq hbefore
    have houtside : view.ram.size ≤ (view.reg .sp).toNat - 1 ↔
        view.ram.size < (view.reg .sp).toNat := by omega
    rw [if_neg hsp, missing?_eq_some, hsub, houtside, or_iff_right]
    omega

/-- The word that a command names is looked for where there is one. -/
private theorem operand_eq_none :
    (command.offset?.bind fun offset => view.missing? (view.address offset)) = none ↔
      view.Provides command := by
  simp only [Option.bind_eq_none_iff, missing?_eq_none]
  rfl

/-- A command faults for exactly these reasons. -/
theorem fault?_eq_some_iff : view.fault? command = some fault ↔ view.Hazard command fault := by
  have hunstacked : (if command.pops then view.empty? else none) = none ↔
      (command.pops → (view.reg .sp).toNat < view.ram.size) := by
    rw [ite_eq_right_iff, empty?_eq_none]
  unfold fault?
  rw [Option.or_eq_some_iff, Option.or_eq_some_iff, hunstacked, operand_eq_none,
    Option.ite_none_right_eq_some, Option.ite_none_right_eq_some, empty?_eq_some, full?_eq_some,
    Option.bind_eq_some_iff]
  simp only [missing?_eq_some]
  constructor
  · rintro (⟨h, hempty, rfl⟩ | ⟨hpops, ⟨offset, hoffset, hmissing, rfl⟩ |
      ⟨hprovides, hpushes, ⟨hfull, rfl⟩ | ⟨houtside, rfl⟩⟩⟩)
    · exact .empty h hempty
    · exact .missing hoffset hpops hmissing
    · exact .full hpushes hprovides hfull
    · exact .outside hpushes hprovides houtside
  · intro h
    cases h with
    | empty hpops hempty => exact .inl ⟨hpops, hempty, rfl⟩
    | missing hoffset hpops hmissing =>
      exact .inr ⟨hpops, .inl ⟨_, hoffset, hmissing, rfl⟩⟩
    | full hpushes hprovides hfull =>
      exact .inr ⟨fun h => absurd h (Command.not_pops_of_pushes hpushes),
        .inr ⟨hprovides, hpushes, .inl ⟨hfull, rfl⟩⟩⟩
    | outside hpushes hprovides houtside =>
      exact .inr ⟨fun h => absurd h (Command.not_pops_of_pushes hpushes),
        .inr ⟨hprovides, hpushes, .inr ⟨houtside, rfl⟩⟩⟩

end View

namespace State

variable (config : Config) (state : State)

def ip : Nat := (state.core.view.reg .ip).toNat

/-- The word of data memory that is popped next. -/
def sp : Nat := (state.core.view.reg .sp).toNat

def Provides (command : Command) : Prop :=
  ∀ offset, command.offset? = some offset → state.core.view.address offset < config.ramSize

/-- Whether a word is to be put on a stack that has used up the addresses. -/
def Overflows : Prop :=
  ∃ command, state.command? = some command ∧ command.pushes ∧ state.Provides config command ∧
    state.sp = 0

/-- Whether a word is to be taken off a stack that begins where data memory ends, or behind. -/
def Underflows : Prop :=
  ∃ command, state.command? = some command ∧ command.pops ∧ config.ramSize ≤ state.sp

/-- Whether an address is to be accessed at which there is no data memory: as that of an operand,
if no empty stack stands in front of it, or as that of the word to be pushed. -/
def Oversteps (address : Nat) : Prop :=
  config.ramSize ≤ address ∧ ∃ command, state.command? = some command ∧
    ((command.pops → state.sp < config.ramSize) ∧
        (∃ offset, command.offset? = some offset ∧ address = state.core.view.address offset) ∨
      command.pushes ∧ state.Provides config command ∧ address + 1 = state.sp)

/-- Why the next step fails, and that it succeeds otherwise. -/
structure FaultsExactly : Prop where
  /-- There is a register at every address that an instruction has room for. -/
  register : ∀ address, faultIn state.step ≠ some (.noSuchRegister address)
  fetch : ∀ address size, faultIn state.step = some (.memoryViolation ⟨.rom, address, size⟩) ↔
    config.romSize ≤ state.ip ∧ address = state.ip ∧ size = config.romSize
  /-- Program memory of full size has no end. -/
  endless : config.romSize = 0x10000 → state.ip < config.romSize
  overflow : faultIn state.step = some .stackOverflow ↔ state.Overflows config
  underflow : faultIn state.step = some .stackUnderflow ↔ state.Underflows config
  access : ∀ address size, faultIn state.step = some (.memoryViolation ⟨.ram, address, size⟩) ↔
    state.Oversteps config address ∧ size = config.ramSize
  success : (∃ outcome after, state.step = .ok outcome after) ↔
    state.ip < config.romSize ∧ ¬ state.Overflows config ∧ ¬ state.Underflows config ∧
      ∀ address, ¬ state.Oversteps config address
  bounds : ∀ violation, faultIn state.step = some (.memoryViolation violation) →
    violation.size ≤ violation.address ∧
      violation.size = match violation.bank with | .ram => config.ramSize | .rom => config.romSize
  /-- The stack pointer that a pop leaves is a word. -/
  pop : ∀ command, state.command? = some command → command.pops → state.sp < config.ramSize →
    (state.core.view.reg .sp + 1).toNat = state.sp + 1

variable {config state} {words : List CodeWord} {fault : Fault}

private theorem Fits.ram_violation (hfits : state.Fits config) (address : Nat) :
    state.core.ram.violation address = ⟨.ram, address, config.ramSize⟩ := by
  rw [Bank.violation, hfits.ram_name, hfits.ram_size]

private theorem Fits.rom_violation (hfits : state.Fits config) (address : Nat) :
    state.rom.violation address = ⟨.rom, address, config.romSize⟩ := by
  rw [Bank.violation, hfits.rom_name, hfits.rom_size]

/-- The hazards of the next command, in the terms of a configuration that the machine fits. -/
private theorem exists_hazard_iff (hfits : state.Fits config) :
    (∃ command, state.command? = some command ∧ state.core.view.Hazard command fault) ↔
      state.Overflows config ∧ fault = .stackOverflow ∨
      state.Underflows config ∧ fault = .stackUnderflow ∨
      ∃ address, state.Oversteps config address ∧
        fault = .memoryViolation ⟨.ram, address, config.ramSize⟩ := by
  simp only [← hfits.ram_violation]
  unfold Overflows Underflows Oversteps Provides
  rw [← hfits.ram_size]
  constructor
  · rintro ⟨command, hcommand, hhazard⟩
    cases hhazard with
    | empty hpops hempty => exact .inr (.inl ⟨⟨command, hcommand, hpops, hempty⟩, rfl⟩)
    | missing hoffset hpops hmissing =>
      exact .inr (.inr ⟨_, ⟨hmissing, command, hcommand, .inl ⟨hpops, _, hoffset, rfl⟩⟩, rfl⟩)
    | full hpushes hprovides hfull =>
      exact .inl ⟨⟨command, hcommand, hpushes, hprovides, hfull⟩, rfl⟩
    | outside hpushes hprovides houtside =>
      have hsp : state.sp - 1 + 1 = state.sp := Nat.sub_add_cancel (Nat.one_le_of_lt houtside)
      exact .inr (.inr ⟨_, ⟨Nat.le_sub_one_of_lt houtside, command, hcommand,
        .inr ⟨hpushes, hprovides, hsp⟩⟩, rfl⟩)
  · rintro (⟨⟨command, hcommand, hpushes, hprovides, hfull⟩, rfl⟩ |
      ⟨⟨command, hcommand, hpops, hempty⟩, rfl⟩ |
      ⟨address, ⟨hmissing, command, hcommand, ⟨hpops, offset, hoffset, rfl⟩ |
        ⟨hpushes, hprovides, hsp⟩⟩, rfl⟩)
    · exact ⟨command, hcommand, .full hpushes hprovides hfull⟩
    · exact ⟨command, hcommand, .empty hpops hempty⟩
    · exact ⟨command, hcommand, .missing hoffset hpops hmissing⟩
    · obtain rfl : state.sp - 1 = address := Nat.sub_eq_of_eq_add hsp.symm
      have houtside : state.core.ram.size < state.sp := by omega
      exact ⟨command, hcommand, .outside hpushes hprovides houtside⟩

/-- A step fails where program memory ends or for a reason that its command has. -/
private theorem faultIn_eq_some_iff (hfits : state.Fits config)
    (hstatus : state.status = .running) :
    faultIn state.step = some fault ↔
      config.romSize ≤ state.ip ∧ fault = .memoryViolation ⟨.rom, state.ip, config.romSize⟩ ∨
      state.Overflows config ∧ fault = .stackOverflow ∨
      state.Underflows config ∧ fault = .stackUnderflow ∨
      ∃ address, state.Oversteps config address ∧
        fault = .memoryViolation ⟨.ram, address, config.ramSize⟩ := by
  rw [faultIn_step hstatus, fault?, ← exists_hazard_iff hfits, ← hfits.rom_violation,
    ← hfits.rom_size]
  change (if state.rom.size ≤ state.ip then _ else _) = _ ↔ _
  by_cases hend : state.rom.size ≤ state.ip
  · have hnone : state.command? = none := by
      have hfetch : state.rom.cells[state.ip]? = none := Array.getElem?_eq_none hend
      change state.rom.cells[state.ip]?.bind _ = none
      rw [hfetch, Option.bind_none]
    rw [if_pos hend, hnone, Option.some.injEq, eq_comm (a := fault)]
    constructor
    · intro h
      exact .inl ⟨hend, h⟩
    · rintro (⟨-, h⟩ | ⟨_, ⟨⟩, -⟩)
      exact h
  · rw [if_neg hend, Option.bind_eq_some_iff, or_iff_right (fun h => hend h.1)]
    simp only [View.fault?_eq_some_iff]

section

/-! The reasons told apart. -/

variable (hfits : state.Fits config) (hstatus : state.status = .running)
include hfits hstatus

private theorem faultIn_eq_rom_iff (address size : Nat) :
    faultIn state.step = some (.memoryViolation ⟨.rom, address, size⟩) ↔
      config.romSize ≤ state.ip ∧ address = state.ip ∧ size = config.romSize := by
  simp [faultIn_eq_some_iff hfits hstatus]

private theorem faultIn_eq_overflow_iff :
    faultIn state.step = some .stackOverflow ↔ state.Overflows config := by
  simp [faultIn_eq_some_iff hfits hstatus]

private theorem faultIn_eq_underflow_iff :
    faultIn state.step = some .stackUnderflow ↔ state.Underflows config := by
  simp [faultIn_eq_some_iff hfits hstatus]

theorem faultIn_eq_ram_iff (address size : Nat) :
    faultIn state.step = some (.memoryViolation ⟨.ram, address, size⟩) ↔
      state.Oversteps config address ∧ size = config.ramSize := by
  rw [faultIn_eq_some_iff hfits hstatus]
  constructor
  · rintro (⟨-, h⟩ | ⟨-, h⟩ | ⟨-, h⟩ | ⟨_, hoversteps, h⟩) <;> cases h
    exact ⟨hoversteps, rfl⟩
  · rintro ⟨hoversteps, rfl⟩
    exact .inr (.inr (.inr ⟨address, hoversteps, rfl⟩))

/-- A step that has no reason to fail succeeds. -/
private theorem exists_ok_iff : (∃ outcome after, state.step = .ok outcome after) ↔
    state.ip < config.romSize ∧ ¬ state.Overflows config ∧ ¬ state.Underflows config ∧
      ∀ address, ¬ state.Oversteps config address := by
  rw [← faultIn_eq_none, Option.eq_none_iff_forall_ne_some]
  constructor
  · intro h
    exact ⟨Nat.not_le.mp fun hend => h _ ((faultIn_eq_rom_iff hfits hstatus _ _).mpr
        ⟨hend, rfl, rfl⟩),
      mt (faultIn_eq_overflow_iff hfits hstatus).mpr (h _),
      mt (faultIn_eq_underflow_iff hfits hstatus).mpr (h _),
      fun address hoversteps => h _ ((faultIn_eq_ram_iff hfits hstatus address _).mpr
        ⟨hoversteps, rfl⟩)⟩
  · rintro ⟨hfetched, hroom, hfilled, hinside⟩ fault h
    obtain ⟨hend, -⟩ | ⟨hoverflows, -⟩ | ⟨hunderflows, -⟩ | ⟨address, hoversteps, -⟩ :=
      (faultIn_eq_some_iff hfits hstatus).mp h
    · exact Nat.not_le.mpr hfetched hend
    · exact hroom hoverflows
    · exact hfilled hunderflows
    · exact hinside address hoversteps

end

end State

variable {config : Config} {words : List CodeWord} {state : State}

/-- The machines that a program brings about fail only in these ways, and in each of them exactly
where it has to be. -/
theorem faultsExactly_of_arises (h : Arises config words state)
    (hstatus : state.status = .running) : state.FaultsExactly config := by
  have hfits := fits_of_arises h
  obtain ⟨⟨-, hram⟩, -⟩ := Config.check_eq_ok.mp (check_of_arises h)
  have hip : state.ip < 0x10000 := (state.core.view.reg .ip).toNat_lt
  exact {
    register := by simp [State.faultIn_eq_some_iff hfits hstatus]
    fetch := State.faultIn_eq_rom_iff hfits hstatus
    endless := fun hsize => hsize ▸ hip
    overflow := State.faultIn_eq_overflow_iff hfits hstatus
    underflow := State.faultIn_eq_underflow_iff hfits hstatus
    access := State.faultIn_eq_ram_iff hfits hstatus
    success := State.exists_ok_iff hfits hstatus
    bounds := by
      rintro ⟨bank, address, size⟩ h
      cases bank with
      | rom =>
        obtain ⟨hend, rfl, rfl⟩ := (State.faultIn_eq_rom_iff hfits hstatus address size).mp h
        exact ⟨hend, rfl⟩
      | ram =>
        obtain ⟨⟨hoversteps, -⟩, rfl⟩ :=
          (State.faultIn_eq_ram_iff hfits hstatus address size).mp h
        exact ⟨hoversteps, rfl⟩
    pop := by
      intro command hcommand hpops hsp
      have hlt : state.sp + 1 < 2 ^ 16 := by
        unfold maxRamSize at hram
        omega
      rw [UInt16.toNat_add]
      exact Nat.mod_eq_of_lt hlt }

/-- The stack of a new machine is empty. -/
theorem faultsExactly_of_arises_load :
    let state : State :=
      { core := .initial 1, rom := ⟨.rom, #[9]⟩, config := { ramSize := 1, romSize := 1 } }
    Arises { ramSize := 1, romSize := 1 } [9] state ∧ state.status = .running ∧
      State.faultIn state.step = some .stackUnderflow := by
  intro state
  have harises : Arises { ramSize := 1, romSize := 1 } [9] state := .load rfl
  have hcommand : state.command? = some (.popRam 0) := by decide
  have hunderflows : state.Underflows { ramSize := 1, romSize := 1 } :=
    ⟨.popRam 0, hcommand, rfl, Nat.le_refl 1⟩
  exact ⟨harises, rfl, (faultsExactly_of_arises harises rfl).underflow.mpr hunderflows⟩

end WordMachine.Machine
