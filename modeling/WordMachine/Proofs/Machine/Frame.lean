import WordMachine.Proofs.Machine.Effect

/-! What a command can change: the registers, the word of data memory and the port that it writes,
as its form tells. All else stays as it was. -/
namespace WordMachine

namespace Isa.Command

def destination? : Command → Option Register
  | move rd _ | loadImmediate rd _ | loadRam rd _ | pop rd => some rd
  | add rd _ | subtract rd _ | and rd _ | or rd _ | xor rd _ => some rd
  | shiftLeft rt | shiftRight rt => some rt
  | input rd _ => some rd
  | _ => none

def offset? : Command → Option Word
  | loadRam _ offset | storeRam offset _ | pushRam offset | popRam offset => some offset
  | outputRam _ offset | inputRam offset _ => some offset
  | _ => none

def pushes : Command → Bool
  | push _ | pushImmediate _ | pushRam _ | call _ => true
  | _ => false

def pops : Command → Bool
  | pop _ | popRam _ | ret => true
  | _ => false

/-- No command does both. -/
theorem not_pops_of_pushes {command : Command} (h : command.pushes) : ¬ command.pops := by
  cases command <;> first | exact Bool.false_ne_true | cases h

def setsFlags : Command → Bool
  | add _ _ | subtract _ _ | and _ _ | or _ _ | xor _ _ => true
  | shiftLeft _ | shiftRight _ | compare _ _ | halt => true
  | _ => false

def writtenPort? : Command → Option UInt8
  | output port _ | outputImmediate port _ | outputRam port _ => some port
  | _ => none

/-- Whether a command writes a register. Control always moves on, and the flags are never a
destination. -/
def Writes (command : Command) : Register → Prop
  | .ip => True
  | .flgs => command.setsFlags
  | .sp => command.pushes ∨ command.pops ∨ command.destination? = some .sp
  | register => command.destination? = some register

end Isa.Command

namespace Machine

open Isa (Register Command)

def Effect.view : Effect → View
  | .passes view _ => view
  | .halts view => view
  | .faults _ view => view

namespace View

def store (view : View) (address : Nat) (value : Word) (h : address < view.ram.cells.size) : View :=
  { view with ram := { view.ram with cells := view.ram.cells.set address value } }

def written? (view : View) : Command → Option Nat
  | .storeRam offset _ | .popRam offset | .inputRam offset _ => some (view.address offset)
  | .push _ | .pushImmediate _ | .pushRam _ | .call _ => some (view.reg .sp - 1).toNat
  | _ => none

section

/-! Whatever the rest of an effect leaves as it was, the effect does. -/

variable {α : Type} (part : View → α) {view : View} {address : Nat} {value : Word}

private theorem frame_reading {rest : Word → Effect}
    (hrest : ∀ value, part (rest value).view = part view) :
    part (view.reading address rest).view = part view := by
  unfold reading
  split
  · exact hrest _
  · rfl

private theorem frame_writing {rest : View → Effect}
    (hrest : ∀ h, part (rest (view.store address value h)).view = part view) :
    part (view.writing address value rest).view = part view := by
  unfold writing
  split
  · exact hrest _
  · rfl

private theorem frame_pushing {rest : View → Effect}
    (hrest : ∀ h, part (rest ((view.store (view.reg .sp - 1).toNat value h).setReg .sp
      (view.reg .sp - 1))).view = part view) :
    part (view.pushing value rest).view = part view := by
  unfold pushing
  split
  · rfl
  · exact frame_writing part hrest

private theorem frame_popping {rest : Word → View → Effect}
    (hrest : ∀ value, part (rest value (view.setReg .sp (view.reg .sp + 1))).view = part view) :
    part (view.popping rest).view = part view := by
  unfold popping
  split
  · rfl
  · exact frame_reading part hrest

end

section Registers

variable {view : View} {register other : Register} {value : Word}

theorem reg_setReg_self : (view.setReg register value).reg register = value := by
  simp only [setReg, Function.update_self]

theorem reg_setReg_of_ne (h : register ≠ other) :
    (view.setReg other value).reg register = view.reg register :=
  Function.update_of_ne h _ _

theorem reg_assign_of_ne (h : register ≠ other) :
    (view.assign other value).reg register = view.reg register := by
  cases other with
  | flgs => rfl
  | _ => exact reg_setReg_of_ne h

theorem flgs_assign : (view.assign register value).reg .flgs = view.reg .flgs := by
  cases register <;> rfl

end Registers

variable {view : View} {command : Command} {register : Register} {address : Nat}

private theorem reg_assign_next (h : ¬ command.Writes register) {rd : Register}
    (hdest : command.destination? = some rd) (after : View) (value : Word) :
    (after.assign rd value).next.reg register = after.reg register := by
  cases register with
  | ip => exact absurd trivial h
  | flgs => exact flgs_assign
  | sp =>
    apply reg_assign_of_ne
    rintro rfl
    exact h (.inr (.inr hdest))
  | _ =>
    apply reg_assign_of_ne
    rintro rfl
    exact h hdest

/-- A command leaves every register that it does not write. -/
theorem reg_perform (h : ¬ command.Writes register) :
    (view.perform command).view.reg register = view.reg register := by
  have hip : register ≠ .ip := by
    rintro rfl
    exact h trivial
  have hsp (hstack : command.pushes ∨ command.pops) : register ≠ .sp := by
    rintro rfl
    exact h (hstack.imp_right .inl)
  have hflgs (hsets : command.setsFlags) : register ≠ .flgs := by
    rintro rfl
    exact h hsets
  have hnext (after : View) : after.next.reg register = after.reg register := reg_setReg_of_ne hip
  have hassign := @reg_assign_next command register h
  have hstored (hstack : command.pushes ∨ command.pops) (after : View) (sp : Word) :
      (after.setReg .sp sp).reg register = after.reg register := reg_setReg_of_ne (hsp hstack)
  -- Whatever a command writes, it writes by one of the ways above, and none of them is `register`.
  cases command <;> rw [perform]
  case nop => exact hnext view
  case halt => exact reg_setReg_of_ne (hflgs rfl)
  case compare rd rs => exact (hnext _).trans (reg_setReg_of_ne (hflgs rfl))
  case add rd operand | subtract rd operand =>
    exact (hassign rfl _ _).trans (reg_setReg_of_ne (hflgs rfl))
  case and rd rs | or rd rs | xor rd rs =>
    exact (hassign rfl _ _).trans (reg_setReg_of_ne (hflgs rfl))
  case shiftLeft rt | shiftRight rt =>
    exact (hassign rfl _ _).trans (reg_setReg_of_ne (hflgs rfl))
  case move rd rs => exact hassign rfl view _
  case loadImmediate rd value => exact hassign rfl view _
  case input rd port => exact hassign rfl view _
  case loadRam rd offset =>
    exact frame_reading (·.reg register) fun value => hassign rfl view value
  case storeRam offset rs => exact frame_writing (·.reg register) fun _ => hnext _
  case inputRam offset port => exact frame_writing (·.reg register) fun _ => hnext _
  case push rs | pushImmediate value =>
    exact frame_pushing (·.reg register) fun _ => (hnext _).trans (hstored (.inl rfl) _ _)
  case pushRam offset =>
    exact frame_reading (·.reg register) fun value =>
      frame_pushing (·.reg register) fun _ => (hnext _).trans (hstored (.inl rfl) _ _)
  case call target =>
    exact frame_pushing (·.reg register) fun _ =>
      (reg_setReg_of_ne hip).trans (hstored (.inl rfl) _ _)
  case ret =>
    exact frame_popping (·.reg register) fun _ =>
      (reg_setReg_of_ne hip).trans (hstored (.inr rfl) _ _)
  case pop rd =>
    exact frame_popping (·.reg register) fun value =>
      (hassign rfl _ value).trans (hstored (.inr rfl) _ _)
  case popRam offset =>
    apply frame_popping (·.reg register)
    intro value
    refine Eq.trans ?_ (hstored (.inr rfl) view (view.reg .sp + 1))
    exact frame_writing (·.reg register) fun _ => hnext _
  case branch condition target =>
    split
    · exact reg_setReg_of_ne hip
    · exact hnext view
  case output port rs => exact hnext _
  case outputImmediate port value => exact hnext _
  case outputRam port offset => exact frame_reading (·.reg register) fun _ => hnext _
  case drawPixel rd rs color => exact hnext view

section Parts

/-! A part of the machine that registers have no part in. -/

variable {α : Type} (part : View → α)
  (hreg : ∀ after register value, part (View.setReg after register value) = part after)

include hreg

private theorem part_assign (after : View) (rd : Register) (value : Word) :
    part (after.assign rd value) = part after := by
  cases rd with
  | flgs => rfl
  | _ => exact hreg _ _ _

/-- A command changes such a part by the one word of data memory that it writes, or by the port. -/
theorem part_perform
    (hstore : ∀ target, view.written? command = some target → ∀ after value h,
      part (View.store after target value h) = part after)
    (hport : command.writtenPort? = none ∨
      ∀ after port value, part (View.portOut after port value).view = part after) :
    part (view.perform command).view = part view := by
  have hnext (after : View) : part after.next = part after := hreg _ _ _
  have hassign (after : View) (rd : Register) (value : Word) :
      part (after.assign rd value).next = part after :=
    (hnext _).trans (part_assign part hreg after rd value)
  have hstored (target : Nat) (htarget : view.written? command = some target) (after : View)
      (value : Word) (h : target < after.ram.cells.size) :
      part (after.store target value h).next = part after :=
    (hnext _).trans (hstore target htarget after value h)
  have hpushed (htarget : view.written? command = some (view.reg .sp - 1).toNat) (value : Word)
      (h : (view.reg .sp - 1).toNat < view.ram.cells.size) :
      part ((view.store _ value h).setReg .sp (view.reg .sp - 1)) = part view :=
    (hreg _ _ _).trans (hstore _ htarget view value h)
  cases command <;> rw [perform]
  case nop | drawPixel => exact hnext view
  case halt => exact hreg _ _ _
  case compare => exact (hnext _).trans (hreg _ _ _)
  case add rd operand | subtract rd operand => exact (hassign _ rd _).trans (hreg _ _ _)
  case and rd rs | or rd rs | xor rd rs => exact (hassign _ rd _).trans (hreg _ _ _)
  case shiftLeft rt | shiftRight rt => exact (hassign _ rt _).trans (hreg _ _ _)
  case move rd rs => exact hassign view rd _
  case loadImmediate rd value => exact hassign view rd _
  case input rd port => exact hassign view rd _
  case loadRam rd offset => exact frame_reading part fun value => hassign view rd value
  case storeRam offset rs => exact frame_writing part (hstored _ rfl view _)
  case inputRam offset port => exact frame_writing part (hstored _ rfl view _)
  case push rs | pushImmediate value =>
    exact frame_pushing part fun h => (hnext _).trans (hpushed rfl _ h)
  case pushRam offset =>
    exact frame_reading part fun value =>
      frame_pushing part fun h => (hnext _).trans (hpushed rfl value h)
  case call target => exact frame_pushing part fun h => (hreg _ _ _).trans (hpushed rfl _ h)
  case ret => exact frame_popping part fun _ => (hreg _ _ _).trans (hreg _ _ _)
  case pop rd => exact frame_popping part fun value => (hassign _ rd value).trans (hreg _ _ _)
  case popRam offset =>
    apply frame_popping part
    intro value
    refine Eq.trans ?_ (hreg view .sp (view.reg .sp + 1))
    exact frame_writing part (hstored _ rfl _ value)
  case branch condition target =>
    split
    · exact hreg _ _ _
    · exact hnext view
  case output | outputImmediate => exact hport.resolve_left nofun _ _ _
  case outputRam port offset =>
    exact frame_reading part fun value => hport.resolve_left nofun view port value

end Parts

/-- A command leaves every word of data memory that it does not write. -/
theorem getElem?_perform (h : view.written? command ≠ some address) :
    (view.perform command).view.ram.cells[address]? = view.ram.cells[address]? := by
  refine part_perform (·.ram.cells[address]?) (fun _ _ _ => rfl) ?_ (.inr fun _ _ _ => rfl)
  intro target htarget after value hlt
  have hne : target ≠ address := fun heq => h (heq ▸ htarget)
  exact Array.getElem?_set_ne hlt hne

/-- Data memory keeps its name and its size. -/
theorem size_perform : (view.perform command).view.ram.name = view.ram.name ∧
    (view.perform command).view.ram.size = view.ram.size :=
  ⟨part_perform (·.ram.name) (fun _ _ _ => rfl) (fun _ _ _ _ _ => rfl) (.inr fun _ _ _ => rfl),
    part_perform (·.ram.size) (fun _ _ _ => rfl) (fun _ _ _ _ hlt => Array.size_set hlt)
      (.inr fun _ _ _ => rfl)⟩

end View

end Machine

end WordMachine
