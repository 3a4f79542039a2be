import WordMachine.Proofs.Machine.Bank
import WordMachine.Proofs.Machine.Reached

/-! The machines that a program brings about while nobody meddles with what it works on, and what
they keep: the sizes of their memories. -/
namespace WordMachine.Machine

variable {config : Config} {words : List CodeWord} {state after : State}

/-- The sizes that there are. -/
theorem Config.check_eq_ok : config.check = .ok () ↔
    (1 ≤ config.ramSize ∧ config.ramSize ≤ maxRamSize) ∧
      1 ≤ config.romSize ∧ config.romSize ≤ Isa.maxProgramLength := by
  unfold Config.check
  split
  · exact ⟨nofun, fun h => by omega⟩
  · split
    · exact ⟨nofun, fun h => by omega⟩
    · exact ⟨fun _ => by omega, fun _ => rfl⟩

namespace State

/-- What may happen between two steps: displays come and go, buttons are pressed, and somebody asks
for the end. The machine itself stays. -/
def Undisturbed (before after : State) : Prop :=
  after.core = before.core ∧ after.rom = before.rom ∧ after.config = before.config ∧
    after.cycles = before.cycles ∧ after.status = before.status

structure Fits (config : Config) (state : State) : Prop where
  ram_name : state.core.ram.name = .ram
  ram_size : state.core.ram.size = config.ramSize
  rom_name : state.rom.name = .rom
  rom_size : state.rom.size = config.romSize

private theorem Fits.of_eq (h : state.Fits config)
    (hname : after.core.ram.name = state.core.ram.name)
    (hsize : after.core.ram.size = state.core.ram.size) (hrom : after.rom = state.rom) :
    after.Fits config where
  ram_name := hname.trans h.ram_name
  ram_size := hsize.trans h.ram_size
  rom_name := hrom ▸ h.rom_name
  rom_size := hrom ▸ h.rom_size

private theorem Fits.of_undisturbed (h : state.Fits config)
    (hundisturbed : state.Undisturbed after) :
    after.Fits config := by
  obtain ⟨hcore, hrom, -⟩ := hundisturbed
  exact h.of_eq (congrArg (·.ram.name) hcore) (congrArg (·.ram.size) hcore) hrom

private theorem fits_of_load (h : load config words = .ok state) : state.Fits config := by
  obtain ⟨-, rom, hload, rfl⟩ := load_eq_ok.mp h
  exact ⟨rfl, Array.size_replicate, congrArg Bank.name (Bank.load_eq_ok.mp hload).2,
    (Bank.size_of_load hload).trans Array.size_replicate⟩

/-- A program that fits stands at the beginning of program memory, with zeros behind it. -/
theorem load_of_le (hcheck : config.check = .ok ()) (hfits : words.length ≤ config.romSize) :
    load config words = .ok
      { core := .initial config.ramSize
        rom := ⟨.rom, (words ++ List.replicate (config.romSize - words.length) 0).toArray⟩
        config } := by
  refine load_eq_ok.mpr ⟨hcheck, _, Bank.load_eq_ok.mpr ⟨?_, rfl⟩, ?_⟩
  · rw [Bank.size, Bank.filled, Array.size_replicate, Nat.zero_add, List.size_toArray]
    exact hfits
  · simp [Bank.filled]

theorem load_of_lt (hcheck : config.check = .ok ()) (hlong : config.romSize < words.length) :
    load config words = .error (.tooLong words.length config.romSize) := by
  have hsize : (Bank.filled .rom config.romSize (0 : CodeWord)).size < 0 + words.toArray.size := by
    rw [Bank.size, Bank.filled, Array.size_replicate, Nat.zero_add, List.size_toArray]
    exact hlong
  unfold load Bank.load
  dsimp only
  rw [hcheck, if_pos hsize]
  rfl

variable {result : EStateM.Result FaultReport State Outcome} {effect : Effect}

private theorem rom_of_undergoes (h : state.Undergoes effect result) :
    (behind result).rom = state.rom := by
  obtain ⟨core, pixel, journal, rfl, rfl⟩ | ⟨core, journal, rfl, rfl⟩ |
    ⟨fault, core, journal, rfl, rfl⟩ := undergoes_cases h
  all_goals rfl

theorem size_due (state : State) : state.due.view.ram.name = state.core.ram.name ∧
    state.due.view.ram.size = state.core.ram.size := by
  unfold due
  dsimp only
  cases state.rom.cells[(state.core.registers.get .ip).toNat]? with
  | none => exact ⟨rfl, rfl⟩
  | some word =>
    dsimp only
    cases (Isa.Instruction.decode word).command? with
    | none => exact ⟨rfl, rfl⟩
    | some command => exact View.size_perform

theorem undisturbed_dismissDisplay (state : State) : state.Undisturbed state.dismissDisplay := by
  unfold dismissDisplay
  split <;> exact ⟨rfl, rfl, rfl, rfl, rfl⟩

/-- A machine that does not run halts, and that costs no cycle. -/
theorem exists_of_not_running (hstatus : state.status ≠ .running) : ∃ final,
    state.step = .ok .halted final ∧ final.status = .halted ∧ final.cycles = state.cycles := by
  unfold step
  cases h : state.status with
  | running => exact absurd h hstatus
  | halted => exact ⟨state, rfl, h, rfl⟩
  | halting =>
    obtain ⟨-, -, -, hcycles, hhalted⟩ :=
      undisturbed_dismissDisplay { state with status := .halted }
    exact ⟨_, rfl, hhalted, hcycles⟩

private theorem Fits.takeInput (h : state.Fits config) : state.takeInput.Fits config :=
  h.of_eq (congrArg Bank.name state.ram_takeInput) (congrArg Bank.size state.ram_takeInput)
    state.rom_takeInput

/-- Program memory cannot be written. -/
theorem rom_step (state : State) : (behind state.step).rom = state.rom := by
  unfold State.step
  cases state.status with
  | halted => rfl
  | halting => exact (undisturbed_dismissDisplay { state with status := .halted }).2.1
  | running => exact (rom_of_undergoes (undergoes_cycle state.takeInput)).trans state.rom_takeInput

private theorem Fits.step (h : state.Fits config) : (behind state.step).Fits config := by
  unfold State.step
  cases state.status with
  | halted => exact h
  | halting =>
    have hhalted : State.Fits config { state with status := .halted } := h.of_eq rfl rfl rfl
    exact hhalted.of_undisturbed (undisturbed_dismissDisplay _)
  | running =>
    have hundergoes := undergoes_cycle state.takeInput
    have hview := congrArg View.ram (view_of_undergoes hundergoes)
    obtain ⟨hname, hsize⟩ := size_due state.takeInput
    rw [← hview] at hname hsize
    exact h.takeInput.of_eq hname hsize (rom_of_undergoes hundergoes)

end State

/-- The machines that a program brings about. -/
inductive Arises (config : Config) (words : List CodeWord) : State → Prop
  | load {state : State} (h : State.load config words = .ok state) : Arises config words state
  | meanwhile {state after : State} (h : Arises config words state)
      (hundisturbed : state.Undisturbed after) : Arises config words after
  | step {state : State} (h : Arises config words state) :
      Arises config words (State.behind state.step)

theorem fits_of_arises (h : Arises config words state) : state.Fits config := by
  induction h with
  | load h => exact State.fits_of_load h
  | meanwhile h hundisturbed ih => exact ih.of_undisturbed hundisturbed
  | step h ih => exact ih.step

theorem check_of_arises (h : Arises config words state) : config.check = .ok () := by
  induction h with
  | load h => exact (State.load_eq_ok.mp h).1
  | meanwhile h hundisturbed ih => exact ih
  | step h ih => exact ih

/-- Program memory stays as it was loaded: a program with zeros behind it. -/
theorem rom_of_arises (h : Arises config words state) : state.rom =
    ⟨.rom, (words ++ List.replicate (config.romSize - words.length) 0).toArray⟩ := by
  induction h with
  | load h =>
    have hcheck := (State.load_eq_ok.mp h).1
    obtain hlong | hfits := Nat.lt_or_ge config.romSize words.length
    · rw [State.load_of_lt hcheck hlong] at h
      cases h
    · rw [State.load_of_le hcheck hfits] at h
      cases h
      rfl
  | meanwhile h hundisturbed ih => exact hundisturbed.2.1.trans ih
  | step h ih => exact (State.rom_step _).trans ih

end WordMachine.Machine
