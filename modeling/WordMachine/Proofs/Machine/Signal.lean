import WordMachine.Proofs.Display.Framebuffer
import WordMachine.Proofs.Isa.Codec
import WordMachine.Proofs.Machine.Reached

/-! What commands ask of the surroundings of the core: only the halt asks for a halt, and only a
drawing and an output at the display port ask for a pixel. -/
namespace WordMachine

open Display (Pixel)

namespace Isa.Entry

/-- Only one opcode is that of the halt. -/
private theorem opcode_of_command_halt {entry : Entry} (hmem : entry ∈ all) {rd rs : Register}
    {immediate : Word} {packed : UInt8}
    (h : entry.operation.command rd rs immediate packed = .halt) : entry.opcode = 0xff := by
  have hopcode : ∀ entry ∈ all, entry.operation = .halt → entry.opcode = 0xff := by decide +kernel
  apply hopcode entry hmem
  cases hoperation : entry.operation <;> rw [hoperation] at h <;> cases h

end Isa.Entry

theorem Isa.Instruction.opcode_of_halt {instruction : Isa.Instruction}
    (h : instruction.command? = some .halt) : instruction.opcode = 0xff := by
  simp only [Isa.Instruction.command?, Option.bind_eq_bind, Option.bind_eq_some_iff] at h
  obtain ⟨entry, hentry, rd, -, rs, -, hcommand⟩ := h
  obtain ⟨hmem, hopcode⟩ := Isa.Entry.ofOpcode?_eq_some.mp hentry
  rw [← hopcode]
  exact Isa.Entry.opcode_of_command_halt hmem (Option.some.inj hcommand)

namespace Machine

open Isa (Command)

def Executed.pixel? : Executed → Option Pixel
  | ⟨.drawPixel rd rs color, view⟩ =>
    some (.reduced (view.reg rd).toNat (view.reg rs).toNat color.toNat)
  | ⟨.output port rs, view⟩ => if port = 1 then some (.ofPacked (view.reg rs)) else none
  | ⟨.outputImmediate port value, _⟩ => if port = 1 then some (.ofPacked value) else none
  | ⟨.outputRam port offset, view⟩ =>
    if port = 1 then view.ram.cells[view.address offset]?.map .ofPacked else none
  | _ => none

/-- What is drawn can be seen. -/
theorem Executed.visible_of_pixel? {executed : Executed} {pixel : Pixel}
    (h : executed.pixel? = some pixel) : pixel.Visible := by
  obtain ⟨command, view⟩ := executed
  cases command <;> try cases h
  case drawPixel rd rs color => exact Pixel.visible_reduced _ _ _
  case output port rs | outputImmediate port value =>
    obtain ⟨-, ⟨⟩⟩ := Option.ite_none_right_eq_some.mp h
    exact Pixel.visible_reduced _ _ _
  case outputRam port offset =>
    obtain ⟨-, hword⟩ := Option.ite_none_right_eq_some.mp h
    obtain ⟨word, -, rfl⟩ := Option.map_eq_some_iff.mp hword
    exact Pixel.visible_reduced _ _ _

def Effect.signal : Effect → Signal
  | .passes _ none => .quiet
  | .passes _ (some pixel) => .pixel pixel
  | .halts _ => .halt
  | .faults _ _ => .quiet

def Signal.ofPixel? : Option Pixel → Signal
  | none => .quiet
  | some drawn => .pixel drawn

namespace View

variable {view : View}

private theorem pixel_eq_reduced (x y color : Word) :
    View.pixel x y color = .reduced x.toNat y.toNat color.toNat :=
  (pixel_of x y color).symm

private theorem pixel_eq_ofPacked (value : Word) :
    View.pixel value (value >>> 4) (value >>> 8) = .ofPacked value := by
  rw [pixel_eq_reduced, UInt16.toNat_shiftRight, UInt16.toNat_shiftRight,
    Nat.shiftRight_eq_div_pow, Nat.shiftRight_eq_div_pow]
  rfl

section

/-! An access that fails asks for nothing, so it is enough that the rest does not either. -/

variable {address : Nat} {value : Word}

private theorem signal_reading {rest : Word → Effect}
    (hrest : ∀ value, (rest value).signal = .quiet) :
    (view.reading address rest).signal = .quiet := by
  unfold reading
  split
  · exact hrest _
  · rfl

private theorem signal_writing {rest : View → Effect}
    (hrest : ∀ after, (rest after).signal = .quiet) :
    (view.writing address value rest).signal = .quiet := by
  unfold writing
  split
  · exact hrest _
  · rfl

private theorem signal_pushing {rest : View → Effect}
    (hrest : ∀ after, (rest after).signal = .quiet) :
    (view.pushing value rest).signal = .quiet := by
  unfold pushing
  split
  · rfl
  · exact signal_writing fun after => hrest _

private theorem signal_popping {rest : Word → View → Effect}
    (hrest : ∀ value after, (rest value after).signal = .quiet) :
    (view.popping rest).signal = .quiet := by
  unfold popping
  split
  · rfl
  · exact signal_reading fun value => hrest value _

end

private theorem signal_portOut (port : UInt8) (value : Word) : (view.portOut port value).signal =
    .ofPixel? (if port = 1 then some (.ofPacked value) else none) := by
  rw [portOut, pixel_eq_ofPacked]
  split <;> rfl

/-- A command asks for the pixel that it draws, or for the halt, or for nothing. -/
private theorem signal_perform (view : View) (command : Command) : (view.perform command).signal =
    if command = .halt then .halt else .ofPixel? (Executed.pixel? ⟨command, view⟩) := by
  cases command <;> rw [perform]
  case nop | halt | move | loadImmediate | compare | input => rfl
  case add | subtract | and | or | xor | shiftLeft | shiftRight => rfl
  case branch condition target =>
    split <;> rfl
  case loadRam rd offset => exact signal_reading fun value => rfl
  case storeRam | inputRam => exact signal_writing fun after => rfl
  case push | pushImmediate | call => exact signal_pushing fun after => rfl
  case pushRam offset => exact signal_reading fun value => signal_pushing fun after => rfl
  case pop | ret => exact signal_popping fun value after => rfl
  case popRam offset => exact signal_popping fun value after => signal_writing fun after => rfl
  case output port rs | outputImmediate port value => exact signal_portOut port _
  case outputRam port offset =>
    -- The one command that draws only if its access succeeds.
    have hhalt : Command.outputRam port offset ≠ .halt := by simp
    rw [if_neg hhalt, Executed.pixel?, reading]
    cases view.ram.cells[view.address offset]? with
    | none =>
      rw [Option.map_none, ite_self]
      rfl
    | some value => exact signal_portOut port value
  case drawPixel rd rs color =>
    rw [pixel_eq_reduced]
    rfl

end View

namespace State

variable {state : State} {view : View}

/-- What is due asks for no more than the command at the instruction pointer does. -/
theorem signal_due (state : State) : state.due.signal =
    state.command?.elim .quiet fun command =>
      if command = .halt then .halt
      else .ofPixel? (Executed.pixel? ⟨command, state.core.view⟩) := by
  cases hcommand : state.command? with
  | some command =>
    rw [due_of_command? hcommand]
    exact state.core.view.signal_perform command
  | none =>
    obtain ⟨fault, hdue⟩ | hdue := due_of_command?_eq_none hcommand <;> rw [hdue] <;> rfl

/-- A halt that is due is that of the halt command. -/
theorem command?_of_due_halts (h : state.due = .halts view) : state.command? = some .halt := by
  have hsignal := signal_due state
  rw [h] at hsignal
  cases hcommand : state.command? with
  | none =>
    rw [hcommand] at hsignal
    cases hsignal
  | some command =>
    rw [hcommand, Option.elim_some] at hsignal
    by_cases hhalt : command = .halt
    · rw [hhalt]
    · rw [if_neg hhalt] at hsignal
      cases hpixel : Executed.pixel? ⟨command, state.core.view⟩ <;> rw [hpixel] at hsignal <;>
        cases hsignal

end State

end Machine

end WordMachine
