import WordMachine.Machine.Step

/-! Taking input is a matter of the button register, the channel and the journal alone. -/
namespace WordMachine.Machine.State

open Isa (Register)

def SameButButtons (before after : State) : Prop :=
  ∃ registers display journal,
    after = { before with core := { before.core with registers }, display, journal } ∧
      ∀ register ≠ .inp, registers.get register = before.core.registers.get register

private theorem SameButButtons.refl (state : State) : state.SameButButtons state :=
  ⟨_, _, _, rfl, fun _ _ => rfl⟩

private theorem SameButButtons.trans {first second third : State} (h : first.SameButButtons second)
    (h' : second.SameButButtons third) : first.SameButButtons third := by
  obtain ⟨registers, display, journal, rfl, hregisters⟩ := h
  obtain ⟨registers', display', journal', rfl, hregisters'⟩ := h'
  exact ⟨registers', display', journal', rfl, fun register hne =>
    (hregisters' register hne).trans (hregisters register hne)⟩

variable (state : State)

private theorem sameButButtons_press (press : Display.Press) :
    state.SameButButtons (state.press press) := by
  unfold State.press
  cases press with
  | down button | up button =>
    dsimp only
    split
    · exact ⟨_, _, _, rfl, fun _ _ => rfl⟩
    · exact ⟨_, _, _, rfl, fun register hne => RegisterFile.get_set_of_ne _ (Ne.symm hne) _⟩

private theorem display_press (press : Display.Press) :
    (state.press press).display = state.display := by
  unfold State.press
  cases press with
  | down button | up button =>
    dsimp only
    split <;> rfl

theorem sameButButtons_takeInput : state.SameButButtons state.takeInput := by
  have hfold (presses : List Display.Press) (state : State) :
      state.SameButButtons (presses.foldl press state) := by
    induction presses generalizing state with
    | nil => exact .refl state
    | cons first rest ih => exact (sameButButtons_press state first).trans (ih _)
  have hpoll : state.SameButButtons (onDisplay Display.Channel.poll state).2 :=
    ⟨_, _, _, rfl, fun _ _ => rfl⟩
  unfold takeInput
  split
  · exact hpoll.trans (hfold _ _)
  · exact .refl state

/-- Input changes no register but that of the buttons. -/
theorem get_takeInput {register : Register} (h : register ≠ .inp) :
    state.takeInput.core.registers.get register = state.core.registers.get register := by
  obtain ⟨registers, display, journal, heq, hregisters⟩ := state.sameButButtons_takeInput
  rw [heq]
  exact hregisters register h

theorem ram_takeInput : state.takeInput.core.ram = state.core.ram := by
  obtain ⟨registers, display, journal, heq, -⟩ := state.sameButButtons_takeInput
  rw [heq]

theorem port_takeInput : state.takeInput.core.port = state.core.port := by
  obtain ⟨registers, display, journal, heq, -⟩ := state.sameButButtons_takeInput
  rw [heq]
  rfl

theorem rom_takeInput : state.takeInput.rom = state.rom := by
  obtain ⟨registers, display, journal, heq, -⟩ := state.sameButButtons_takeInput
  rw [heq]

/-- Input is taken out of the channel, if there is a link to take it from. -/
theorem display_takeInput : state.takeInput.display =
    if state.display.hasLink then { state.display with presses := #[] } else state.display := by
  have hfold (presses : List Display.Press) (state : State) :
      (presses.foldl press state).display = state.display := by
    induction presses generalizing state with
    | nil => rfl
    | cons first rest ih => exact (ih _).trans (display_press state first)
  unfold takeInput
  by_cases hlink : state.display.hasLink = true
  · rw [if_pos (show state.isAttached = true from hlink), if_pos hlink]
    exact hfold _ _
  · rw [if_neg (show ¬ state.isAttached = true from hlink), if_neg hlink]

end WordMachine.Machine.State
