import WordMachine.Proofs.Machine.Reached

/-! Why a command cannot be carried out, and what it has changed by then. -/
namespace WordMachine.Machine

open Isa (Command Register)

def Effect.fault? : Effect → Option Fault
  | .faults fault _ => some fault
  | _ => none

/-- Whether an effect is the given fault and leaves the given core, or is no fault if none is
given. -/
def Effect.Ends (effect : Effect) (left : View) : Option Fault → Prop
  | some fault => effect = .faults fault left
  | none => effect.fault? = none

theorem Effect.Ends.fault?_eq {effect : Effect} {left : View} {fault? : Option Fault}
    (h : effect.Ends left fault?) : effect.fault? = fault? := by
  cases fault? with
  | none => exact h
  | some fault => exact congrArg Effect.fault? h

private theorem Effect.Ends.view_eq {fault : Fault} {view left : View} {fault? : Option Fault}
    (h : (Effect.faults fault view).Ends left fault?) : view = left := by
  cases fault? with
  | none => cases h
  | some other => exact (Effect.faults.inj h).2

namespace View

def missing? (view : View) (address : Nat) : Option Fault :=
  if view.ram.size ≤ address then some (.memoryViolation (view.ram.violation address)) else none

def empty? (view : View) : Option Fault :=
  if view.ram.size ≤ (view.reg .sp).toNat then some .stackUnderflow else none

def full? (view : View) : Option Fault :=
  if view.reg .sp = 0 then some .stackOverflow else view.missing? (view.reg .sp - 1).toNat

/-- Why a command cannot be carried out, if it cannot. An empty stack comes before an operand that
does not exist, and that before a stack without room. -/
def fault? (view : View) (command : Command) : Option Fault :=
  (if command.pops then view.empty? else none).or <|
    (command.offset?.bind fun offset => view.missing? (view.address offset)).or
      (if command.pushes then view.full? else none)

/-- The core that a fault finds. A word that is meant for data memory has been taken off the stack
by then, and nothing else has been done. -/
def stopped (view : View) : Command → View
  | .popRam _ =>
    if view.ram.size ≤ (view.reg .sp).toNat then view else view.setReg .sp (view.reg .sp + 1)
  | _ => view

/-- Faults come from the two pointers and data memory. -/
private theorem fault?_congr {view other : View} {command : Command}
    (hsp : other.reg .sp = view.reg .sp)
    (hdp : other.reg .dp = view.reg .dp) (hram : other.ram = view.ram) :
    other.fault? command = view.fault? command := by
  unfold fault? empty? full? missing? address
  rw [hsp, hdp, hram]

variable {view left : View} {address : Nat} {value : Word} {later : Option Fault}

theorem missing?_eq_none :
    view.missing? address = none ↔ address < view.ram.size := by
  simp only [missing?, ite_eq_right_iff, reduceCtorEq, imp_false, Nat.not_le]

theorem empty?_eq_none : view.empty? = none ↔ (view.reg .sp).toNat < view.ram.size := by
  simp only [empty?, ite_eq_right_iff, reduceCtorEq, imp_false, Nat.not_le]

/-- A stack that has not used up the addresses has one in front of it. -/
theorem toNat_before (h : view.reg .sp ≠ 0) :
    (view.reg .sp - 1).toNat + 1 = (view.reg .sp).toNat := by
  have hpos : 1 ≤ (view.reg .sp).toNat :=
    Nat.one_le_iff_ne_zero.mpr fun hzero => h (UInt16.toNat.inj hzero)
  have hsub : (view.reg .sp - 1).toNat = (view.reg .sp).toNat - 1 :=
    UInt16.toNat_sub_of_le _ _ (UInt16.le_iff_toNat_le.mpr hpos)
  rw [hsub]
  exact Nat.sub_add_cancel hpos

private theorem missing?_of_le (h : view.ram.size ≤ address) :
    view.missing? address = some (.memoryViolation (view.ram.violation address)) := if_pos h

private theorem empty?_of_le (h : view.ram.size ≤ (view.reg .sp).toNat) :
    view.empty? = some .stackUnderflow := if_pos h

private theorem ends_reading {rest : Word → Effect}
    (hrest : ∀ value, (rest value).Ends view later) :
    (view.reading address rest).Ends view ((view.missing? address).or later) := by
  unfold reading
  cases h : view.ram.cells[address]? with
  | none =>
    rw [missing?_of_le (Array.getElem?_eq_none_iff.mp h)]
    rfl
  | some value =>
    rw [missing?_eq_none.mpr (Array.getElem?_eq_some_iff.mp h).1]
    exact hrest value

private theorem ends_writing {rest : View → Effect} (hrest : ∀ after, (rest after).fault? = none) :
    (view.writing address value rest).Ends view (view.missing? address) := by
  unfold writing
  by_cases h : address < view.ram.cells.size
  · rw [dif_pos h, missing?_eq_none.mpr h]
    exact hrest _
  · rw [dif_neg h, missing?_of_le (Nat.not_lt.mp h)]
    rfl

private theorem ends_writing_operand {rest : View → Effect}
    (hrest : ∀ after, (rest after).fault? = none) :
    (view.writing address value rest).Ends view ((view.missing? address).or none) := by
  rw [Option.or_none]
  exact ends_writing hrest

private theorem ends_pushing {rest : View → Effect} (hrest : ∀ after, (rest after).fault? = none) :
    (view.pushing value rest).Ends view view.full? := by
  unfold pushing full?
  by_cases h : view.reg .sp = 0
  · rw [if_pos h, if_pos h]
    rfl
  · rw [if_neg h, if_neg h]
    exact ends_writing fun after => hrest _

/-- If the stack is not empty, what remains to be done has its own end. -/
private theorem ends_popping {rest : Word → View → Effect}
    (hrest : (view.reg .sp).toNat < view.ram.size → ∀ value,
      (rest value (view.setReg .sp (view.reg .sp + 1))).Ends left later)
    (hleft : view.ram.size ≤ (view.reg .sp).toNat → left = view) :
    (view.popping rest).Ends left (view.empty?.or later) := by
  unfold popping
  by_cases h : view.ram.cells.size ≤ (view.reg .sp).toNat
  · rw [if_pos h, empty?_of_le h, hleft h]
    rfl
  · rw [if_neg h, empty?_eq_none.mpr (Nat.not_le.mp h), reading,
      Array.getElem?_eq_getElem (Nat.not_le.mp h)]
    exact hrest (Nat.not_le.mp h) _

/-- A command ends in the fault that is due and has done no more than that by then. -/
theorem ends_perform (view : View) (command : Command) :
    (view.perform command).Ends (view.stopped command) (view.fault? command) := by
  cases command <;> rw [perform]
  case nop | halt | move | loadImmediate | compare | output | outputImmediate | input | drawPixel =>
    rfl
  case add | subtract | and | or | xor | shiftLeft | shiftRight => rfl
  case branch condition target =>
    split <;> rfl
  case loadRam rd offset => exact ends_reading fun value => rfl
  case outputRam port offset => exact ends_reading fun value => rfl
  case storeRam | inputRam => exact ends_writing_operand fun after => rfl
  case push | pushImmediate | call => exact ends_pushing fun after => rfl
  case pushRam offset => exact ends_reading fun value => ends_pushing fun after => rfl
  case pop | ret => exact ends_popping (fun _ value => rfl) fun _ => rfl
  case popRam offset =>
    apply ends_popping
    · intro hlt value
      rw [stopped, if_neg (Nat.not_le.mpr hlt)]
      exact ends_writing_operand fun after => rfl
    · intro hle
      exact if_pos hle

end View

private theorem exists_address (index : Fin 16) : ∃ register, Register.address register = index :=
  ⟨Register.all.get index, by revert index; decide⟩

/-- From outside all of a core is seen. -/
theorem Core.view_injective : Function.Injective Core.view := by
  rintro ⟨⟨words⟩, ram, ports⟩ ⟨⟨words'⟩, ram', ports'⟩ h
  obtain rfl : words = words' := by
    apply Vector.ext
    intro index hindex
    obtain ⟨register, hregister⟩ := exists_address ⟨index, hindex⟩
    have hget := congrFun (congrArg View.reg h) register
    simp only [Core.view, RegisterFile.get, hregister] at hget
    exact hget
  obtain rfl : ram = ram' := congrArg View.ram h
  obtain rfl : ports = ports' := by
    apply Vector.ext
    intro index hindex
    have hport := congrFun (congrArg View.port h) (.ofNat index)
    have hindex : (UInt8.ofNat index).toNat = index := UInt8.toNat_ofNat_of_lt' hindex
    simpa only [Core.view, Core.port, hindex] using hport
  rfl

namespace State

def faultIn : EStateM.Result FaultReport State Outcome → Option Fault
  | .ok _ _ => none
  | .error report _ => some report.fault

/-- Why the next instruction cannot be executed, if it cannot. -/
def fault? (state : State) : Option Fault :=
  let ip := (state.core.registers.get .ip).toNat
  if state.rom.size ≤ ip then
    some (.memoryViolation (state.rom.violation ip))
  else
    state.command?.bind state.core.view.fault?

def stopped (state : State) : View :=
  state.command?.elim state.core.view state.core.view.stopped

private theorem ends_due (state : State) : state.due.Ends state.stopped state.fault? := by
  unfold due stopped fault? command?
  dsimp only
  generalize (state.core.registers.get .ip).toNat = ip
  by_cases h : state.rom.cells.size ≤ ip
  · rw [if_pos (show state.rom.size ≤ ip from h), Array.getElem?_eq_none h]
    rfl
  · rw [if_neg (show ¬ state.rom.size ≤ ip from h), Array.getElem?_eq_getElem (Nat.not_le.mp h)]
    dsimp only [Option.bind_some]
    cases (Isa.Instruction.decode state.rom.cells[ip]).command? with
    | none => rfl
    | some command => exact state.core.view.ends_perform command

variable {state : State} {result : EStateM.Result FaultReport State Outcome}

theorem faultIn_eq_none : faultIn result = none ↔ ∃ outcome after, result = .ok outcome after := by
  cases result with
  | ok outcome after =>
    constructor
    · intro _
      exact ⟨outcome, after, rfl⟩
    · intro _
      rfl
  | error report after =>
    constructor
    · intro h
      cases h
    · rintro ⟨_, _, ⟨⟩⟩

theorem faultIn_of_undergoes {effect : Effect} (h : state.Undergoes effect result) :
    faultIn result = effect.fault? := by
  obtain ⟨core, pixel, journal, rfl, rfl⟩ | ⟨core, journal, rfl, rfl⟩ |
    ⟨fault, core, journal, rfl, rfl⟩ := undergoes_cases h
  all_goals rfl

/-- What is fetched does not depend on input. -/
private theorem command?_takeInput (state : State) : state.takeInput.command? = state.command? := by
  rw [command?, command?, rom_takeInput, get_takeInput state (by decide)]

/-- A step has the effect of the command at the instruction pointer, on the core with the input. -/
theorem undergoes_perform {command : Command} (hstatus : state.status = .running)
    (hcommand : state.command? = some command) :
    state.takeInput.Undergoes (state.takeInput.core.view.perform command) state.step := by
  rw [← due_of_command? ((command?_takeInput state).trans hcommand)]
  exact undergoes_due state hstatus

/-- The fault of a step is the one that is due. -/
theorem faultIn_step (hstatus : state.status = .running) : faultIn state.step = state.fault? := by
  rw [faultIn_of_undergoes (undergoes_due state hstatus), (ends_due state.takeInput).fault?_eq,
    fault?, fault?, command?_takeInput]
  have hview (command : Command) :
      state.takeInput.core.view.fault? command = state.core.view.fault? command :=
    View.fault?_congr (get_takeInput state (by decide)) (get_takeInput state (by decide))
      state.ram_takeInput
  rw [funext hview, rom_takeInput, get_takeInput state (by decide)]

/-- Whether the next instruction takes a word off the stack that is meant for data memory. -/
def DropsWord (state : State) : Prop :=
  (∃ offset, state.command? = some (.popRam offset)) ∧
    (state.core.registers.get .sp).toNat < state.core.ram.size

private theorem stopped_of_not_dropsWord (h : ¬ state.DropsWord) :
    state.stopped = state.core.view := by
  unfold stopped
  cases hcommand : state.command? with
  | none => rfl
  | some command =>
    cases command with
    | popRam offset => exact if_pos (Nat.not_lt.mp fun hlt => h ⟨⟨offset, hcommand⟩, hlt⟩)
    | _ => rfl

private theorem stopped_of_dropsWord (h : state.DropsWord) :
    state.stopped = state.core.view.setReg .sp (state.core.registers.get .sp + 1) := by
  obtain ⟨⟨offset, hcommand⟩, hlt⟩ := h
  rw [stopped, hcommand]
  exact if_neg (Nat.not_le.mpr hlt)

private theorem dropsWord_takeInput (state : State) :
    state.takeInput.DropsWord ↔ state.DropsWord := by
  unfold DropsWord
  rw [command?_takeInput, get_takeInput state (by decide), ram_takeInput]

/-- A fault halts the machine. Around the core only the journal tells of the step. -/
theorem exists_of_error (hstatus : state.status = .running) {report : FaultReport} {after : State}
    (h : state.step = .error report after) :
    ∃ core journal, core.view = state.takeInput.stopped ∧ report.dump = after.dump ∧
      after = { state.takeInput with core, status := .halted, journal } := by
  obtain ⟨_, _, _, -, hstep⟩ | ⟨_, _, -, hstep⟩ | ⟨fault, core, journal, hdue, hstep⟩ :=
    undergoes_cases (undergoes_due state hstatus)
  · rw [h] at hstep
    cases hstep
  · rw [h] at hstep
    cases hstep
  · rw [h] at hstep
    obtain ⟨hreport, rfl⟩ := EStateM.Result.error.inj hstep
    have hends := ends_due state.takeInput
    rw [hdue] at hends
    exact ⟨core, journal, hends.view_eq, congrArg FaultReport.dump hreport, rfl⟩

/-- An instruction that faults has done nothing but to take the input that had arrived, unless it
has taken a word off the stack for which data memory has no place: then that word is gone. -/
theorem unchanged_of_fault (hstatus : state.status = .running) {report : FaultReport}
    {after : State} (h : state.step = .error report after) :
    report.dump = after.dump ∧
      (¬ state.DropsWord →
        ∃ journal, after = { state.takeInput with status := .halted, journal }) ∧
      (state.DropsWord → ∃ journal, after = { state.takeInput with
        core.registers := state.takeInput.core.registers.set .sp
          (state.takeInput.core.registers.get .sp + 1)
        status := .halted
        journal }) := by
  obtain ⟨core, journal, hcore, hdump, rfl⟩ := exists_of_error hstatus h
  refine ⟨hdump, fun hkeeps => ⟨journal, ?_⟩, fun hdrops => ⟨journal, ?_⟩⟩
  · rw [stopped_of_not_dropsWord (mt (dropsWord_takeInput state).mp hkeeps)] at hcore
    rw [Core.view_injective hcore]
  · rw [stopped_of_dropsWord ((dropsWord_takeInput state).mpr hdrops),
      ← Core.view_set_word _ rfl] at hcore
    rw [Core.view_injective hcore]

/-- A button is pressed, and a word for data memory is taken off an empty stack: only the button
is seen behind the fault. -/
theorem unchanged_of_fault_empty :
    let state : State :=
      { core := .initial 1, rom := ⟨.rom, #[9]⟩, config := { ramSize := 1, romSize := 1 },
        display := { presses := #[.down 0] } }
    ∃ dump after journal, state.step = .error ⟨.stackUnderflow, dump⟩ after ∧ dump = after.dump ∧
      after = { state.takeInput with status := .halted, journal } ∧
      after.core.registers.get .inp = 1 := by
  intro state
  obtain ⟨dump, after, hstep⟩ :
      ∃ dump after, state.step = .error ⟨.stackUnderflow, dump⟩ after := ⟨_, _, rfl⟩
  have hkeeps : ¬ state.DropsWord := fun hdrops => absurd hdrops.2 (by decide)
  obtain ⟨hdump, hunchanged, -⟩ := unchanged_of_fault rfl hstep
  obtain ⟨journal, hafter⟩ := hunchanged hkeeps
  refine ⟨dump, after, journal, hstep, hdump, hafter, ?_⟩
  rw [hafter]
  rfl

/-- Not every fault leaves the stack pointer: a pushed word is popped to where there is no data
memory. -/
theorem popRam_fault_drops_word :
    ¬ ∀ (state : State) (report : FaultReport) (after : State), state.status = .running →
      state.step = .error report after →
        after.core.registers.get .sp = state.takeInput.core.registers.get .sp := by
  intro hunchanged
  let start : State :=
    { core := .initial 1, rom := ⟨.rom, #[0x10a02, 0x70006, 9]⟩,
      config := { ramSize := 1, romSize := 3 } }
  let pushed := behind (behind start.step).step
  have hfault : faultIn pushed.step ≠ none := by decide +kernel
  cases hstep : pushed.step with
  | ok outcome after => exact hfault (congrArg faultIn hstep)
  | error report after =>
    have hsp := hunchanged pushed report after (by decide +kernel) hstep
    rw [← show behind pushed.step = after from congrArg behind hstep] at hsp
    exact absurd hsp (by decide +kernel)

end State

end WordMachine.Machine
