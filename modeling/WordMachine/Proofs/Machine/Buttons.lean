import Mathlib.Data.List.Induction
import Mathlib.Data.Nat.Bitwise
import WordMachine.Proofs.Machine.Arising
import WordMachine.Proofs.Machine.Faults

/-! The button register: one bit for each of eight buttons, which is set while the button is held,
and nothing above them, whatever programs write. -/
namespace WordMachine

open Display (Press)
open Isa (Command)

namespace Display.Press

def button : Press → UInt8
  | down button | up button => button

def isDown : Press → Bool
  | down _ => true
  | up _ => false

end Display.Press

namespace Machine

private theorem and_byte_le (value : Word) : value &&& 0xff ≤ 0xff := by
  rw [UInt16.le_iff_toNat_le, UInt16.toNat_and]
  exact Nat.and_le_right

private theorem testBit_mask (button : Nat) :
    (Isa.Register.inp.width.mask).toNat.testBit button = decide (button < 8) :=
  Nat.testBit_two_pow_sub_one 8 button

private theorem toNat_bit {pressed : UInt8} (h : ¬ 7 < pressed) :
    ((1 : Word) <<< pressed.toUInt16).toNat = 2 ^ pressed.toNat := by
  have hlt : pressed.toNat < 16 := by
    have hle : pressed.toNat ≤ 7 := Nat.not_lt.mp h
    omega
  have hpow : 2 ^ pressed.toNat < 2 ^ 16 := Nat.pow_lt_pow_right (by decide) hlt
  rw [UInt16.toNat_shiftLeft, UInt8.toNat_toUInt16, Nat.mod_eq_of_lt hlt, UInt16.toNat_one,
    Nat.shiftLeft_eq, Nat.one_mul, Nat.mod_eq_of_lt hpow]

private theorem testBit_not (value : Word) (button : Nat) :
    (~~~value).toNat.testBit button = (decide (button < 16) && !value.toNat.testBit button) := by
  rw [← Nat.testBit_two_pow_sub_succ value.toNat_lt, UInt16.toNat_not, Nat.add_comm,
    Nat.sub_add_eq]

namespace Core

def receive (core : Core) (press : Press) : Core :=
  if 7 < press.button then core else core.press press.button press.isDown

def holds (core : Core) (button : Nat) : Bool :=
  (core.registers.get .inp).toNat.testBit button

/-- What presses do to a core: the bit of each button is that of its last press, and nothing else
changes. -/
structure Takes (core : Core) (presses : List Press) (after : Core) : Prop where
  button : ∀ button < 8, after.holds button =
    ((presses.filter (·.button.toNat = button)).getLast?.map Press.isDown).getD (core.holds button)
  register : ∀ register ≠ .inp, after.registers.get register = core.registers.get register
  ram : after.ram = core.ram
  ports : after.ports = core.ports

variable {core : Core} {press : Press} {presses : List Press} {button : Nat}

/-- A press decides the bit of its button, and there are no bits but those of the eight buttons. -/
private theorem holds_press {pressed : UInt8} (h : ¬ 7 < pressed) (down : Bool) :
    (core.press pressed down).holds button =
      (decide (button < 8) && if pressed.toNat = button then down else core.holds button) := by
  unfold holds press
  rw [RegisterFile.get_set_self, UInt16.toNat_and, Nat.testBit_and, testBit_mask, Bool.and_comm]
  by_cases hbutton : button < 8
  · have hword : button < 16 := by omega
    cases down with
    | true =>
      rw [if_pos rfl, UInt16.toNat_or, Nat.testBit_or, toNat_bit h, Nat.testBit_two_pow]
      by_cases hpressed : pressed.toNat = button <;> simp [hpressed]
    | false =>
      rw [if_neg Bool.false_ne_true, UInt16.toNat_and, Nat.testBit_and, testBit_not, toNat_bit h,
        Nat.testBit_two_pow]
      by_cases hpressed : pressed.toNat = button <;> simp [hword, hpressed]
  · simp [hbutton]

/-- Presses of a button leave its bit as the last of them says. -/
private theorem holds_foldl_receive (hbutton : button < 8) :
    (presses.foldl receive core).holds button =
    ((presses.filter (·.button.toNat = button)).getLast?.map Press.isDown).getD
      (core.holds button) := by
  induction presses using List.reverseRecOn with
  | nil => rfl
  | append_singleton presses last ih =>
    rw [List.foldl_append, List.filter_append]
    simp only [List.foldl_cons, List.foldl_nil, receive]
    by_cases hknown : 7 < last.button
    · have hne : last.button.toNat ≠ button := by
        have hlt : 7 < last.button.toNat := hknown
        omega
      simp [hknown, hne, ih]
    · rw [if_neg hknown, holds_press hknown]
      by_cases hlast : last.button.toNat = button <;> simp [hlast, hbutton, ih]

/-- Above the eight buttons a press clears everything. -/
private theorem holds_foldl_receive_of_le (hbutton : 8 ≤ button) :
    (presses.foldl receive core).holds button =
      (core.holds button && presses.all (7 < ·.button)) := by
  induction presses using List.reverseRecOn with
  | nil => simp
  | append_singleton presses last ih =>
    rw [List.foldl_append, List.all_append, ← Bool.and_assoc, ← ih]
    by_cases hknown : 7 < last.button
    · simp [receive, hknown]
    · simp [receive, hknown, holds_press hknown, hbutton]

theorem takes_foldl_receive (core : Core) (presses : List Press) :
    core.Takes presses (presses.foldl receive core) := by
  have hframe : (presses.foldl receive core).ram = core.ram ∧
      (presses.foldl receive core).ports = core.ports ∧
      ∀ register ≠ .inp, (presses.foldl receive core).registers.get register =
        core.registers.get register := by
    induction presses using List.reverseRecOn with
    | nil => exact ⟨rfl, rfl, fun _ _ => rfl⟩
    | append_singleton presses last ih =>
      rw [List.foldl_append, List.foldl_cons, List.foldl_nil, receive]
      split
      · exact ih
      · exact ⟨ih.1, ih.2.1, fun register hne =>
          (RegisterFile.get_set_of_ne _ hne.symm _).trans (ih.2.2 register hne)⟩
  exact ⟨fun _ => holds_foldl_receive, hframe.2.2, hframe.1, hframe.2.1⟩

private theorem all_unknown_iff : presses.all (7 < ·.button) = true ↔
    ∀ button < 8, presses.filter (·.button.toNat = button) = [] := by
  have hknown (press : Press) : 7 < press.button ↔ 7 < press.button.toNat := Iff.rfl
  simp only [List.all_eq_true, decide_eq_true_eq, List.filter_eq_nil_iff, hknown]
  constructor
  · intro h button hbutton press hmem heq
    have hlt := h press hmem
    omega
  · intro h press hmem
    by_contra hle
    exact h press.button.toNat (by omega) press hmem rfl

/-- Presses of different buttons may overtake each other. -/
theorem foldl_receive_congr {others : List Press}
    (h : ∀ button < 8, presses.filter (·.button.toNat = button) =
      others.filter (·.button.toNat = button)) :
    presses.foldl receive core = others.foldl receive core := by
  obtain ⟨hbuttons, hregisters, hram, hports⟩ := core.takes_foldl_receive presses
  obtain ⟨hbuttons', hregisters', hram', hports'⟩ := core.takes_foldl_receive others
  -- A press of any button clears what lies above the eight, so one list does if the other does.
  have hall : presses.all (7 < ·.button) = others.all (7 < ·.button) := by
    rw [Bool.eq_iff_iff, all_unknown_iff, all_unknown_iff]
    exact forall₂_congr fun button hbutton => by rw [h button hbutton]
  have hinp : (presses.foldl receive core).registers.get .inp =
      (others.foldl receive core).registers.get .inp := by
    apply UInt16.toNat.inj
    apply Nat.eq_of_testBit_eq
    intro button
    by_cases hbutton : button < 8
    · exact (hbuttons button hbutton).trans (h button hbutton ▸ (hbuttons' button hbutton).symm)
    · have hle : 8 ≤ button := Nat.not_lt.mp hbutton
      exact (holds_foldl_receive_of_le hle).trans (hall ▸ (holds_foldl_receive_of_le hle).symm)
  apply Core.view_injective
  refine View.ext ?_ (hram.trans hram'.symm) ?_
  · funext register
    by_cases hregister : register = .inp
    · rw [hregister]
      exact hinp
    · exact (hregisters register hregister).trans (hregisters' register hregister).symm
  · funext port
    simp only [view, Core.port, hports, hports']

private theorem inp_foldl_receive_le (h : core.registers.get .inp ≤ 0xff) :
    (presses.foldl receive core).registers.get .inp ≤ 0xff := by
  induction presses using List.reverseRecOn with
  | nil => exact h
  | append_singleton presses last ih =>
    rw [List.foldl_append, List.foldl_cons, List.foldl_nil, receive]
    split
    · exact ih
    · rw [press, RegisterFile.get_set_self]
      exact and_byte_le _

end Core

namespace View

variable {view : View}

private theorem inp_assign_next (after : View) (value : Word) :
    (after.assign .inp value).next.reg .inp ≤ 0xff := by
  rw [next, goTo, reg_setReg_of_ne (by decide), assign, reg_setReg_self]
  exact and_byte_le value

/-- A command that names the button register puts no more than eight bits into it, and no other
command touches it. -/
private theorem inp_perform (h : view.reg .inp ≤ 0xff) (command : Command) :
    (view.perform command).view.reg .inp ≤ 0xff := by
  by_cases hdest : command.destination? = some .inp
  · cases command
    case loadRam rd offset =>
      cases hdest
      rw [perform, reading]
      split
      · exact inp_assign_next view _
      · exact h
    case pop rd =>
      cases hdest
      rw [perform, popping, reading]
      split
      · exact h
      · split
        · exact inp_assign_next _ _
        · exact h
    case move | loadImmediate | input | add | subtract =>
      cases hdest
      exact inp_assign_next _ _
    case and | or | xor | shiftLeft | shiftRight =>
      cases hdest
      exact inp_assign_next _ _
    all_goals cases hdest
  · rw [reg_perform (show ¬ command.Writes .inp from hdest)]
    exact h

end View

namespace State

variable {state : State}

private theorem core_press (sent : Press) (state : State) :
    (state.press sent).core = state.core.receive sent := by
  cases sent with
  | down button | up button => exact apply_ite State.core (7 < button) _ _

private theorem core_foldl_press (presses : List Press) (state : State) :
    (presses.foldl press state).core = presses.foldl Core.receive state.core := by
  induction presses generalizing state with
  | nil => rfl
  | cons first rest ih => rw [List.foldl_cons, List.foldl_cons, ih, core_press]

def batch (state : State) : List Press :=
  if state.status = .running ∧ state.display.hasLink then state.display.presses.toList else []

theorem core_takeInput (hstatus : state.status = .running) :
    state.takeInput.core = state.batch.foldl Core.receive state.core := by
  unfold takeInput batch
  by_cases hlink : state.display.hasLink = true
  · rw [if_pos (show state.isAttached = true from hlink), if_pos ⟨hstatus, hlink⟩]
    exact core_foldl_press _ _
  · rw [if_neg (show ¬ state.isAttached = true from hlink), if_neg fun h => hlink h.2]
    rfl

private theorem inp_step_le (h : state.core.registers.get .inp ≤ 0xff) :
    (behind state.step).core.registers.get .inp ≤ 0xff := by
  by_cases hstatus : state.status = .running
  · have hinput : state.takeInput.core.view.reg .inp ≤ 0xff := by
      rw [core_takeInput hstatus]
      exact Core.inp_foldl_receive_le h
    change (behind state.step).core.view.reg .inp ≤ 0xff
    rw [view_of_undergoes (undergoes_due state hstatus)]
    cases hcommand : state.takeInput.command? with
    | some command =>
      rw [due_of_command? hcommand]
      exact View.inp_perform hinput command
    | none =>
      obtain ⟨fault, hdue⟩ | hdue := due_of_command?_eq_none hcommand <;> rw [hdue] <;> exact hinput
  · rw [core_step_of_not_running hstatus]
    exact h

end State

variable {config : Config} {words : List CodeWord} {state : State}

/-- In a machine that a program brings about no more than eight buttons are held. -/
theorem inp_le_of_arises (h : Arises config words state) :
    state.core.registers.get .inp ≤ 0xff := by
  induction h with
  | load h =>
    rw [registers_of_load h, RegisterFile.initial, RegisterFile.get_set_of_ne _ (by decide)]
    decide
  | meanwhile h hundisturbed ih =>
    rw [hundisturbed.1]
    exact ih
  | step h ih => exact State.inp_step_le ih

end Machine

end WordMachine
