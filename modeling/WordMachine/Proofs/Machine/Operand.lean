import WordMachine.Proofs.Machine.Safety

/-! The word of data memory that an instruction names by an offset from the data pointer. The sum of
the two is a word too, so that it starts over behind the last address. -/
namespace WordMachine.Machine

open Isa (Command)

namespace View

def performAt (view : View) (address : Nat) : Command → Effect
  | .loadRam rd _ =>
    view.reading address fun value => .passes (view.assign rd value).next none
  | .storeRam _ rs => view.writing address (view.reg rs) fun view => .passes view.next none
  | .pushRam _ =>
    view.reading address fun value => view.pushing value fun view => .passes view.next none
  | .popRam _ => view.popping fun value view =>
    view.writing address value fun view => .passes view.next none
  | .outputRam port _ => view.reading address fun value => view.portOut port value
  | .inputRam _ port =>
    view.writing address (view.portIn port) fun view => .passes view.next none
  | command => view.perform command

variable {view : View} {command : Command} {offset : Word}

private theorem perform_eq_performAt (h : command.offset? = some offset) :
    view.perform command = view.performAt (view.address offset) command := by
  cases command <;> cases h <;> rfl

private theorem toNat_address : view.address offset =
    ((view.reg .dp).toNat + offset.toNat) % 0x10000 := UInt16.toNat_add _ _

/-- No fault changes data memory. -/
private theorem ram_stopped : (view.stopped command).ram = view.ram := by
  cases command with
  | popRam offset =>
    unfold stopped
    dsimp only
    split <;> rfl
  | _ => rfl

end View

namespace State

/-- Whether the word of data memory that the next command names is the given one: it is the one
that the step accesses, and if it does not exist the step is a fault that changes no other. -/
structure Accesses (state : State) (command : Command) (address : Nat) : Prop where
  undergoes : state.takeInput.Undergoes (state.takeInput.core.view.performAt address command)
    state.step
  missing : state.core.ram.size ≤ address → (command.pops → state.sp < state.core.ram.size) →
    ∃ report after, state.step = .error report after ∧
      report.fault = .memoryViolation (state.core.ram.violation address) ∧
      after.core.ram = state.core.ram

variable {state : State} {command : Command} {offset : Word}

private theorem fault?_of_command? (hcommand : state.command? = some command) :
    state.fault? = state.core.view.fault? command := by
  obtain ⟨word, hword, -⟩ := Option.bind_eq_some_iff.mp hcommand
  have hfetched : ¬ state.rom.size ≤ (state.core.registers.get .ip).toNat :=
    Nat.not_le.mpr (Array.getElem?_eq_some_iff.mp hword).1
  rw [fault?, hcommand]
  exact if_neg hfetched

/-- No fault changes data memory. -/
private theorem ram_of_error (hstatus : state.status = .running) {report : FaultReport}
    {after : State}
    (h : state.step = .error report after) : after.core.ram = state.core.ram := by
  obtain ⟨core, journal, hcore, -, rfl⟩ := exists_of_error hstatus h
  have hstopped : state.takeInput.stopped.ram = state.takeInput.core.ram := by
    unfold stopped
    cases state.takeInput.command? with
    | none => rfl
    | some command => exact View.ram_stopped
  exact (congrArg View.ram hcore).trans (hstopped.trans state.ram_takeInput)

private theorem undergoes_performAt (hstatus : state.status = .running)
    (hcommand : state.command? = some command) (hoffset : command.offset? = some offset) :
    state.takeInput.Undergoes (state.takeInput.core.view.performAt
      (state.core.view.address offset) command) state.step := by
  -- Input does not move the data pointer.
  have haddress : state.takeInput.core.view.address offset = state.core.view.address offset :=
    congrArg (fun dp : Word => (dp + offset).toNat) (get_takeInput state (by decide))
  rw [← haddress, ← View.perform_eq_performAt hoffset]
  exact undergoes_perform hstatus hcommand

/-- A named word that data memory does not have is a fault, if no empty stack stands in front of
it. -/
private theorem exists_of_missing (hstatus : state.status = .running)
    (hcommand : state.command? = some command) (hoffset : command.offset? = some offset)
    (hmissing : state.core.ram.size ≤ state.core.view.address offset)
    (hpops : command.pops → state.sp < state.core.ram.size) :
    ∃ report after, state.step = .error report after ∧
      report.fault =
        .memoryViolation (state.core.ram.violation (state.core.view.address offset)) := by
  have hfault := faultIn_step hstatus
  rw [fault?_of_command? hcommand,
    View.fault?_eq_some_iff.mpr (.missing hoffset hpops hmissing)] at hfault
  cases hstep : state.step with
  | ok outcome after =>
    rw [hstep] at hfault
    cases hfault
  | error report after =>
    rw [hstep] at hfault
    exact ⟨report, after, rfl, Option.some.inj hfault⟩

/-- The word that an instruction accesses has the sum of data pointer and offset for its number, if
that sum is a word, and otherwise the rest of it. -/
theorem accesses_operand (hstatus : state.status = .running)
    (hcommand : state.command? = some command) (hoffset : command.offset? = some offset) :
    let sum := (state.core.registers.get .dp).toNat + offset.toNat
    (sum < 0x10000 → state.Accesses command sum) ∧
      (0x10000 ≤ sum → state.Accesses command (sum - 0x10000)) := by
  intro sum
  have haccesses : state.Accesses command (state.core.view.address offset) := by
    refine ⟨undergoes_performAt hstatus hcommand hoffset, fun hmissing hpops => ?_⟩
    obtain ⟨report, after, hstep, hfault⟩ :=
      exists_of_missing hstatus hcommand hoffset hmissing hpops
    exact ⟨report, after, hstep, hfault, ram_of_error hstatus hstep⟩
  have hnumber : state.core.view.address offset = sum % 0x10000 := View.toNat_address
  rw [hnumber] at haccesses
  constructor
  · intro hword
    rwa [Nat.mod_eq_of_lt hword] at haccesses
  · intro hover
    have hdp : (state.core.registers.get .dp).toNat < 0x10000 := UInt16.toNat_lt _
    have hoffset : offset.toNat < 0x10000 := UInt16.toNat_lt _
    have hrest : sum % 0x10000 = sum - 0x10000 := by omega
    rwa [hrest] at haccesses

/-- A machine with the first word of data memory set and the data pointer at the last address, about
to load the word behind that. -/
def pastTheEnd : State :=
  let start : State :=
    { core := .initial 8, rom := ⟨.rom, #[0x70002, 4, 0xffff0a02, 0x10103]⟩,
      config := { ramSize := 8, romSize := 4 } }
  behind (behind (behind start.step).step).step

/-- The word behind the last address is the first one. -/
theorem accesses_operand_first :
    pastTheEnd.status = .running ∧ pastTheEnd.command? = some (.loadRam .b 1) ∧
      pastTheEnd.Accesses (.loadRam .b 1) 0 ∧
      (behind pastTheEnd.step).core.registers.get .b = 7 := by
  have hstatus : pastTheEnd.status = .running := by decide +kernel
  have hcommand : pastTheEnd.command? = some (.loadRam .b 1) := by decide +kernel
  have hdp : (pastTheEnd.core.registers.get .dp).toNat = 0xffff := by decide +kernel
  have hover := (accesses_operand hstatus hcommand rfl).2
  rw [hdp] at hover
  exact ⟨hstatus, hcommand, hover (by decide), by decide +kernel⟩

/-- Not every operand that lies outside of data memory is a fault. -/
theorem not_accesses_sum :
    ¬ ∀ (state : State) (command : Command) (offset : Word), state.status = .running →
      state.command? = some command → command.offset? = some offset →
        state.Accesses command ((state.core.registers.get .dp).toNat + offset.toNat) := by
  intro haccesses
  have hsum := haccesses pastTheEnd (.loadRam .b 1) 1 (by decide +kernel) (by decide +kernel) rfl
  obtain ⟨report, after, hstep, -⟩ :=
    hsum.missing (by decide +kernel) fun hpops => absurd hpops (by decide)
  have hnone : faultIn pastTheEnd.step = none := by decide +kernel
  rw [hstep] at hnone
  cases hnone

end State

end WordMachine.Machine
