import WordMachine.Proofs.Machine.Faults

/-! The bit of zero and the register that takes the result. The bit tells of the whole result, also
where the register keeps less of it. -/
namespace WordMachine.Machine

open Isa (Command Register)

namespace Flags

variable (word : Word) (zero : Bool)

private theorem bitsMeet_withZero :
    bitsMeet (word &&& 0x0f ||| if zero then 0x10 else 0) .zero = zero := by
  rw [← toBits_withZero, ← meet_ofBits, ofBits_toBits]
  rfl

private theorem bitsMeet_notZero : bitsMeet word .notZero = !bitsMeet word .zero := by
  rw [← meet_ofBits, ← meet_ofBits]
  rfl

/-- The bits below are those of the last comparison and of the halt. -/
private theorem withZero_and :
    (word &&& 0x0f ||| if zero then 0x10 else 0) &&& 0x0f = word &&& 0x0f := by
  rw [← toBits_withZero, and_eq_toBits_and word rfl]
  rcases ofBits word with ⟨_ | _, _ | _, _ | _, _ | _, _ | _⟩ <;> cases zero <;> rfl

end Flags

namespace View

variable {view : View} {command : Command} {rd : Register} {result : Word}

/-- A register keeps what it has room for. -/
private theorem reg_assign_self (h : rd ≠ .flgs) (value : Word) :
    (view.assign rd value).reg rd = value &&& rd.width.mask := by
  cases rd with
  | flgs => exact absurd rfl h
  | inp => exact reg_setReg_self
  | _ => exact reg_setReg_self.trans UInt16.and_neg_one.symm

/-- Arithmetic and logic differ in the result alone. -/
private theorem perform_of_result? (hresult : Executed.result? ⟨command, view⟩ = some result)
    (hdest : command.destination? = some rd) : view.perform command = view.compute rd result := by
  cases command <;> cases hresult <;> cases hdest <;> rfl

private theorem reg_computed (hflgs : rd ≠ .flgs) (hip : rd ≠ .ip) :
    ((view.withZero result).assign rd result).next.reg rd = result &&& rd.width.mask :=
  (reg_setReg_of_ne hip).trans (reg_assign_self hflgs result)

private theorem flgs_computed : ((view.withZero result).assign rd result).next.reg .flgs =
    view.reg .flgs &&& 0x0f ||| if result == 0 then 0x10 else 0 := by
  simp only [beq_iff_eq]
  exact flgs_assign

end View

/-- The button register alone keeps less than a word of a result. -/
private theorem and_mask_eq_zero {rd : Register} (hflgs : rd ≠ .flgs) (result : Word) :
    (result = 0 ↔ result &&& rd.width.mask = 0) ↔
      (rd = .inp → result &&& 0xff = 0 → result = 0) := by
  have hword : result = 0 ↔ result &&& 0xffff = 0 := by
    rw [show (0xffff : Word) = -1 from rfl, UInt16.and_neg_one]
  cases rd with
  | flgs => exact absurd rfl hflgs
  | inp =>
    constructor
    · exact fun hiff _ hkept => hiff.mpr hkept
    · intro hkept
      refine ⟨fun hzero => ?_, hkept rfl⟩
      rw [hzero]
      exact UInt16.zero_and
  | _ => exact iff_of_true hword nofun

namespace State

variable {state : State} {command : Command} {rd : Register} {result : Word}

/-- Arithmetic and logic leave the result in its register, as far as there is room, and the bit of
zero tells whether the result is zero. The register then tells the same, unless it is that of the
buttons and only the bits that it has no room for are set. -/
theorem zero_of_result (hstatus : state.status = .running)
    (hcommand : state.command? = some command)
    (hresult : Executed.result? ⟨command, state.takeInput.core.view⟩ = some result)
    (hdest : command.destination? = some rd) (hflgs : rd ≠ .flgs) (hip : rd ≠ .ip) :
    ∃ after, state.step = .ok .normal after ∧
      let value := after.core.registers.get rd
      let flgs := after.core.registers.get .flgs
      value = result &&& rd.width.mask ∧
        flgs &&& 0x0f = state.core.registers.get .flgs &&& 0x0f ∧
        (Flags.bitsMeet flgs .zero ↔ result = 0) ∧ (Flags.bitsMeet flgs .notZero ↔ result ≠ 0) ∧
        ((Flags.bitsMeet flgs .zero ↔ value = 0) ↔
          (rd = .inp → result &&& 0xff = 0 → result = 0)) := by
  have hundergoes := undergoes_perform hstatus hcommand
  rw [View.perform_of_result? hresult hdest] at hundergoes
  obtain ⟨after, hstep, hview⟩ := exists_of_passes hundergoes
  have hvalue : after.core.registers.get rd = result &&& rd.width.mask := by
    change after.core.view.reg rd = _
    rw [hview]
    exact View.reg_computed hflgs hip
  have hbits : after.core.registers.get .flgs =
      state.core.registers.get .flgs &&& 0x0f ||| if result == 0 then 0x10 else 0 := by
    have hinput : state.takeInput.core.view.reg .flgs = state.core.registers.get .flgs :=
      get_takeInput state (by decide)
    rw [← hinput]
    change after.core.view.reg .flgs = _
    rw [hview]
    exact View.flgs_computed
  refine ⟨after, hstep, ?_⟩
  dsimp only
  rw [hvalue, hbits, Flags.bitsMeet_notZero, Flags.bitsMeet_withZero, Flags.withZero_and,
    beq_iff_eq, Bool.not_eq_true', beq_eq_false_iff_ne]
  exact ⟨rfl, rfl, Iff.rfl, Iff.rfl, and_mask_eq_zero hflgs result⟩

/-- The sum has no bit that the button register has room for: the register is cleared, and the bit
of zero is not set. -/
theorem zero_of_result_button :
    let state : State :=
      { core := .initial 1, rom := ⟨.rom, #[0x1000d0b]⟩, config := { ramSize := 1, romSize := 1 } }
    state.status = .running ∧ state.command? = some (.add .inp (.value 0x100)) ∧
      ∃ after, state.step = .ok .normal after ∧ after.core.registers.get .inp = 0 ∧
        Flags.bitsMeet (after.core.registers.get .flgs) .notZero := by
  intro state
  have hcommand : state.command? = some (.add .inp (.value 0x100)) := by decide +kernel
  have hresult : Executed.result? ⟨.add .inp (.value 0x100), state.takeInput.core.view⟩ =
      some 0x100 := by decide +kernel
  obtain ⟨after, hstep, hvalue, -, -, hnotZero, -⟩ :=
    zero_of_result rfl hcommand hresult rfl (by decide) (by decide)
  exact ⟨rfl, hcommand, after, hstep, hvalue, hnotZero.mpr (by decide)⟩

/-- The bit of zero does not always tell whether the register is zero. -/
theorem not_zero_of_destination :
    ¬ ∀ (state : State) (command : Command) (result : Word) (rd : Register),
      state.status = .running → state.command? = some command →
        Executed.result? ⟨command, state.takeInput.core.view⟩ = some result →
          command.destination? = some rd → rd ≠ .flgs → rd ≠ .ip →
            (Flags.bitsMeet ((behind state.step).core.registers.get .flgs) .zero ↔
              (behind state.step).core.registers.get rd = 0) := by
  intro htells
  let state : State :=
    { core := .initial 1, rom := ⟨.rom, #[0x1000d0b]⟩, config := { ramSize := 1, romSize := 1 } }
  have hiff := htells state (.add .inp (.value 0x100)) 0x100 .inp rfl (by decide +kernel)
    (by decide +kernel) rfl (by decide) (by decide)
  have hset := hiff.mpr (by decide +kernel)
  exact absurd hset (by decide +kernel)

end State

end WordMachine.Machine
