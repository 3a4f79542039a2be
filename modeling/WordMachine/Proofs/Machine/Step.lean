import WordMachine.Machine.Step
import WordMachine.Proofs.Isa.Codec
import WordMachine.Proofs.Machine.Conduct

/-! One step of a running machine has the effect of the command at the instruction pointer, and
everything around the core keeps in line with it. -/
namespace WordMachine.Machine

open Isa (Register Command Instruction Entry)
open Display (Pixel Channel)

namespace State

/-- The channel after a pixel was shown, if there is one to show. A display that is gone is
detached. -/
def shown (channel : Channel) : Option Pixel → Channel
  | none => channel
  | some pixel =>
    if channel.hasLink then
      if channel.hasEndpoint then
        { channel with messages := channel.messages.push (.pixel pixel) }
      else
        channel.dropLink
    else
      channel

/-- What no instruction changes. -/
def SameSetting (before after : State) : Prop :=
  after.rom = before.rom ∧ after.config = before.config ∧ after.aborted = before.aborted

/-- Whether a step has ended with an effect. The journal is left out. -/
def Undergoes (before : State) : Effect → EStateM.Result FaultReport State Outcome → Prop
  | .passes view pixel, .ok .normal after =>
    after.core.view = view ∧ after.display = shown before.display pixel ∧
      after.status = before.status ∧ after.cycles = before.cycles + 1 ∧ before.SameSetting after
  | .halts view, .ok .halting after =>
    after.core.view = view ∧ after.display = before.display ∧
      after.status = .halting ∧ after.cycles = before.cycles + 1 ∧ before.SameSetting after
  | .faults fault view, .error report after =>
    report = ⟨fault, after.dump⟩ ∧ after.core.view = view ∧ after.display = before.display ∧
      after.status = .halted ∧ after.cycles = before.cycles ∧ before.SameSetting after
  | _, _ => False

/-- A step with an effect ends in one of three ways, and keeps everything that is not named here. -/
theorem undergoes_cases {before : State} {effect : Effect}
    {result : EStateM.Result FaultReport State Outcome} (h : before.Undergoes effect result) :
    (∃ core pixel journal, effect = .passes core.view pixel ∧ result = .ok .normal
      { before with core, display := shown before.display pixel, cycles := before.cycles + 1,
                    journal }) ∨
    (∃ core journal, effect = .halts core.view ∧ result = .ok .halting
      { before with core, status := .halting, cycles := before.cycles + 1, journal }) ∨
    ∃ fault core journal, effect = .faults fault core.view ∧
      let after := { before with core, status := .halted, journal }
      result = .error ⟨fault, after.dump⟩ after := by
  cases result with
  | ok outcome after =>
    obtain ⟨core, rom, config, cycles, status, aborted, display, journal⟩ := after
    cases effect with
    | passes view pixel =>
      cases outcome with
      | normal =>
        obtain ⟨rfl, rfl, rfl, rfl, rfl, rfl, rfl⟩ := h
        exact .inl ⟨core, pixel, journal, rfl, rfl⟩
      | halting | halted => exact h.elim
    | halts view =>
      cases outcome with
      | halting =>
        obtain ⟨rfl, rfl, rfl, rfl, rfl, rfl, rfl⟩ := h
        exact .inr (.inl ⟨core, journal, rfl, rfl⟩)
      | normal | halted => exact h.elim
    | faults fault view => exact h.elim
  | error report after =>
    obtain ⟨core, rom, config, cycles, status, aborted, display, journal⟩ := after
    cases effect with
    | faults fault view =>
      obtain ⟨rfl, rfl, rfl, rfl, rfl, rfl, rfl, rfl⟩ := h
      exact .inr (.inr ⟨fault, core, journal, rfl, rfl⟩)
    | passes | halts => exact h.elim

variable (state : State)

theorem view_advance : state.advance.core.view = state.core.view.next :=
  Core.view_set_word state.core rfl _

/-- Showing a pixel is a matter of the channel and the journal alone. -/
private theorem draw_eq (pixel : Pixel) : ∃ journal, state.draw pixel =
    { state with display := shown state.display (some pixel), journal } := by
  unfold draw shown
  by_cases hlink : state.display.hasLink = true
  · rw [if_pos (show state.isAttached = true from hlink)]
    simp only [onDisplay, Channel.send, hlink, if_true]
    by_cases hendpoint : state.display.hasEndpoint = true
    · simp only [hendpoint, if_true]
      exact ⟨_, rfl⟩
    · simp only [hendpoint]
      exact ⟨_, rfl⟩
  · rw [if_neg (show ¬ state.isAttached = true from hlink)]
    simp only [hlink]
    exact ⟨_, rfl⟩

private theorem undergoes_advance (pixel : Option Pixel) {before : State}
    (hdisplay : state.display = shown before.display pixel) (hstatus : state.status = before.status)
    (hcycles : state.cycles = before.cycles) (hsetting : before.SameSetting state) :
    before.Undergoes (.passes state.core.view.next pixel) (.ok .normal state.advance) :=
  ⟨view_advance state, hdisplay, hstatus, congrArg (· + 1) hcycles, hsetting⟩

/-- Carrying out what was signalled ends the step with the effect of the execution. -/
private theorem undergoes_obey (ip : Word) (instruction : Instruction) :
    state.Undergoes (.of (execute instruction state.core)) (obey ip instruction state) := by
  cases hwork : execute instruction state.core with
  | ok signal core =>
    have hon : onCore (execute instruction) state = .ok signal { state with core } := by
      simp only [onCore, hwork]
    simp only [obey, hon]
    cases signal with
    | quiet => exact undergoes_advance { state with core } none rfl rfl rfl ⟨rfl, rfl, rfl⟩
    | halt => exact ⟨rfl, rfl, rfl, rfl, rfl, rfl, rfl⟩
    | pixel pixel =>
      obtain ⟨journal, hdraw⟩ := draw_eq { state with core } pixel
      simp only [conclude, hdraw]
      exact undergoes_advance { state with core, display := _, journal } (some pixel) rfl rfl rfl
        ⟨rfl, rfl, rfl⟩
    | unrecognized opcode =>
      exact undergoes_advance (State.note _ { state with core }) none rfl rfl rfl ⟨rfl, rfl, rfl⟩
    | flagsProtected value =>
      exact undergoes_advance (State.note _ { state with core }) none rfl rfl rfl ⟨rfl, rfl, rfl⟩
  | error fault core =>
    have hon : onCore (execute instruction) state = .error fault { state with core } := by
      simp only [onCore, hwork]
    simp only [obey, hon]
    exact ⟨rfl, rfl, rfl, rfl, rfl, rfl, rfl, rfl⟩

/-- The effect of the instruction at the instruction pointer. -/
def due (state : State) : Effect :=
  let ip := (state.core.registers.get .ip).toNat
  match state.rom.cells[ip]? with
  | none => .faults (.memoryViolation (state.rom.violation ip)) state.core.view
  | some word =>
    match (Instruction.decode word).command? with
    | none => .passes state.core.view.next none
    | some command => state.core.view.perform command

private theorem of_execute_decode (core : Core) (word : CodeWord) :
    Effect.of (execute (.decode word) core) =
      match (Instruction.decode word).command? with
      | none => .passes core.view.next none
      | some command => core.view.perform command := by
  cases h : (Instruction.decode word).command? with
  | some command => exact of_execute core h
  | none =>
    apply of_execute_unknown core
    by_contra hknown
    obtain ⟨entry, hentry⟩ := Option.ne_none_iff_exists'.mp hknown
    obtain ⟨hdest, hsrc⟩ := Instruction.decode_encodable word
    obtain ⟨rd, rs, -, -, hcommand⟩ := Instruction.exists_command hentry hdest hsrc
    rw [h] at hcommand
    cases hcommand

/-- A cycle has the effect that is due. -/
theorem undergoes_cycle : state.Undergoes state.due (cycle state) := by
  unfold due cycle
  generalize state.core.registers.get .ip = ip
  cases hword : state.rom.cells[ip.toNat]? with
  | none =>
    simp only [hword, Bank.read_of_le _ (Array.getElem?_eq_none_iff.mp hword)]
    exact ⟨rfl, rfl, rfl, rfl, rfl, rfl, rfl, rfl⟩
  | some word =>
    obtain ⟨hlt, rfl⟩ := Array.getElem?_eq_some_iff.mp hword
    obtain ⟨journal, htraced⟩ : ∃ journal, state.traced ip (.decode state.rom.cells[ip.toNat]) =
        { state with journal } := by
      unfold traced
      split <;> exact ⟨_, rfl⟩
    simp only [hword, Bank.read_of_lt _ hlt, htraced]
    rw [← of_execute_decode]
    exact undergoes_obey { state with journal } ip _

private theorem takeInput_of_presses (h : state.display.presses = #[]) :
    state.takeInput = state := by
  obtain ⟨core, rom, config, cycles, status, aborted, ⟨messages, presses, link, endpoint⟩,
    journal⟩ := state
  subst h
  unfold takeInput
  split <;> rfl

/-- A running machine takes its input and then does what is due. -/
theorem undergoes_due (hstatus : state.status = .running) :
    state.takeInput.Undergoes state.takeInput.due state.step := by
  unfold step
  rw [hstatus]
  exact undergoes_cycle state.takeInput

/-- A running machine without input does what is due. -/
theorem undergoes_step (hstatus : state.status = .running)
    (hpresses : state.display.presses = #[]) :
    state.Undergoes state.due (step state) := by
  have hdue := undergoes_due state hstatus
  rwa [takeInput_of_presses state hpresses] at hdue

end State

end WordMachine.Machine
