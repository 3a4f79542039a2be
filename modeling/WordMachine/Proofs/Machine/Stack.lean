import WordMachine.Proofs.Machine.Arising
import WordMachine.Proofs.Machine.Faults

/-! Well-nested use of the stack unwinds: the stack pointer and the words behind it come back, and
what is taken off the stack is what was put there. -/
namespace WordMachine.Machine

open Isa (Command Register)

namespace View

def pushed? (view : View) : Command → Option Word
  | .push rs => some (view.reg rs)
  | .pushImmediate value => some value
  | .pushRam offset => view.ram.cells[view.address offset]?
  | .call _ => some (view.reg .ip + 1)
  | _ => none

/-- Whether the stack pointer is the same, and so is data memory from there on. -/
structure Keeps (before after : View) : Prop where
  sp : after.reg .sp = before.reg .sp
  ram : ∀ address, (before.reg .sp).toNat ≤ address →
    after.ram.cells[address]? = before.ram.cells[address]?

private theorem Keeps.refl (view : View) : view.Keeps view := ⟨rfl, fun _ _ => rfl⟩

private theorem Keeps.trans {first second third : View} (h : first.Keeps second)
    (h' : second.Keeps third) : first.Keeps third where
  sp := h'.sp.trans h.sp
  ram address hle := (h'.ram address (h.sp ▸ hle)).trans (h.ram address hle)

variable {view : View} {command : Command} {value : Word} {address : Nat}

private theorem reading_of_getElem? (h : view.ram.cells[address]? = some value)
    (rest : Word → Effect) :
    view.reading address rest = rest value := by
  rw [reading, h]

private theorem exists_of_pushing (h : view.full? = none) (value : Word) (rest : View → Effect) :
    view.reg .sp ≠ 0 ∧ ∃ hlt, view.pushing value rest =
      rest ((view.store (view.reg .sp - 1).toNat value hlt).setReg .sp (view.reg .sp - 1)) := by
  unfold full? at h
  by_cases hsp : view.reg .sp = 0
  · rw [if_pos hsp] at h
    cases h
  · rw [if_neg hsp] at h
    have hlt : (view.reg .sp - 1).toNat < view.ram.cells.size := missing?_eq_none.mp h
    refine ⟨hsp, hlt, ?_⟩
    rw [pushing, if_neg hsp, writing, dif_pos hlt]
    rfl

private theorem exists_of_popping (h : view.empty? = none) (rest : Word → View → Effect) :
    ∃ value, view.ram.cells[(view.reg .sp).toNat]? = some value ∧
      view.popping rest = rest value (view.setReg .sp (view.reg .sp + 1)) := by
  have hlt : (view.reg .sp).toNat < view.ram.cells.size := empty?_eq_none.mp h
  have htop := Array.getElem?_eq_getElem hlt
  refine ⟨_, htop, ?_⟩
  rw [popping, if_neg (Nat.not_le.mpr hlt), reading_of_getElem? htop]

/-- A word that is put on the stack without a fault is the operand, and comes in front of the
others. -/
private theorem exists_pushed (hfault : view.fault? command = none) (hpushes : command.pushes) :
    view.reg .sp ≠ 0 ∧ ∃ value hlt target, view.pushed? command = some value ∧
      (view.perform command).view = ((view.store (view.reg .sp - 1).toNat value hlt).setReg .sp
        (view.reg .sp - 1)).goTo target := by
  obtain ⟨-, hrest⟩ := Option.or_eq_none_iff.mp hfault
  obtain ⟨hoperand, hfull⟩ := Option.or_eq_none_iff.mp hrest
  rw [if_pos hpushes] at hfull
  cases command <;> try cases hpushes
  case push rs =>
    obtain ⟨hsp, hlt, hpushing⟩ := exists_of_pushing hfull (view.reg rs) fun after =>
      .passes after.next none
    exact ⟨hsp, _, hlt, _, rfl, congrArg Effect.view hpushing⟩
  case pushImmediate value =>
    obtain ⟨hsp, hlt, hpushing⟩ := exists_of_pushing hfull value fun after =>
      .passes after.next none
    exact ⟨hsp, _, hlt, _, rfl, congrArg Effect.view hpushing⟩
  case pushRam offset =>
    have hoffset : view.address offset < view.ram.cells.size := missing?_eq_none.mp hoperand
    have hvalue := Array.getElem?_eq_getElem hoffset
    obtain ⟨hsp, hlt, hpushing⟩ := exists_of_pushing hfull view.ram.cells[view.address offset]
      fun after => .passes after.next none
    refine ⟨hsp, _, hlt, view.reg .ip + 1, hvalue, ?_⟩
    rw [perform, reading_of_getElem? hvalue, hpushing]
    rfl
  case call target =>
    obtain ⟨hsp, hlt, hpushing⟩ := exists_of_pushing hfull (view.reg .ip + 1) fun after =>
      .passes (after.goTo (view.source target)) none
    exact ⟨hsp, _, hlt, _, rfl, congrArg Effect.view hpushing⟩

/-- Whether a command has taken a word off the stack and has passed it on to where it is meant to
go. -/
def Delivers (view : View) (value : Word) (after : View) : Command → Prop
  | .pop rd => after = ((view.setReg .sp (view.reg .sp + 1)).assign rd value).next
  | .popRam offset => ∃ hlt, after =
      ((view.setReg .sp (view.reg .sp + 1)).store (view.address offset) value hlt).next
  | .ret => after = (view.setReg .sp (view.reg .sp + 1)).goTo value
  | _ => False

/-- What is taken off the stack without a fault is the word at the stack pointer. -/
private theorem exists_delivered (hfault : view.fault? command = none) (hpops : command.pops) :
    ∃ value, view.ram.cells[(view.reg .sp).toNat]? = some value ∧
      view.Delivers value (view.perform command).view command := by
  obtain ⟨hempty, hrest⟩ := Option.or_eq_none_iff.mp hfault
  obtain ⟨hoperand, -⟩ := Option.or_eq_none_iff.mp hrest
  rw [if_pos hpops] at hempty
  cases command <;> try cases hpops
  case pop rd =>
    obtain ⟨value, htop, hpopping⟩ := exists_of_popping hempty fun value after =>
      .passes (after.assign rd value).next none
    exact ⟨value, htop, congrArg Effect.view hpopping⟩
  case popRam offset =>
    have hoffset : view.address offset < view.ram.cells.size := missing?_eq_none.mp hoperand
    obtain ⟨value, htop, hpopping⟩ := exists_of_popping hempty fun value after =>
      after.writing (after.address offset) value fun after => .passes after.next none
    refine ⟨value, htop, hoffset, ?_⟩
    rw [perform, hpopping, writing]
    exact congrArg Effect.view (dif_pos hoffset)
  case ret =>
    obtain ⟨value, htop, hpopping⟩ := exists_of_popping hempty fun value after =>
      .passes (after.goTo value) none
    exact ⟨value, htop, congrArg Effect.view hpopping⟩

/-- A command keeps the stack pointer if it has nothing to do with it. -/
private theorem keeps_of_not_stack (hpushes : ¬ command.pushes) (hpops : ¬ command.pops)
    (hdest : command.destination? ≠ some .sp)
    (hbelow : ∀ address, view.written? command = some address → address < (view.reg .sp).toNat) :
    view.Keeps (view.perform command).view where
  sp := by
    apply reg_perform
    rintro (h | h | h)
    · exact hpushes h
    · exact hpops h
    · exact hdest h
  ram address hle := by
    apply getElem?_perform
    intro hwritten
    exact Nat.not_lt.mpr hle (hbelow address hwritten)

private theorem sp_goTo (target : Word) : (view.goTo target).reg .sp = view.reg .sp :=
  reg_setReg_of_ne (by decide)

private theorem sp_of_delivers {after : View} (h : view.Delivers value after command)
    (hdest : command.destination? ≠ some .sp) : after.reg .sp = view.reg .sp + 1 := by
  cases command <;> try exact h.elim
  case pop rd =>
    obtain rfl := h
    have hne : Register.sp ≠ rd := by
      rintro rfl
      exact hdest rfl
    rw [next, sp_goTo, reg_assign_of_ne hne, reg_setReg_self]
  case popRam offset =>
    obtain ⟨hlt, rfl⟩ := h
    rw [next, sp_goTo]
    change (view.setReg .sp (view.reg .sp + 1)).reg .sp = _
    exact reg_setReg_self
  case ret =>
    rw [show after = _ from h, sp_goTo, reg_setReg_self]

end View

/-- A command that was executed, with the core behind it. -/
structure Passage extends Executed where
  after : View

namespace Passage

structure Sound (passage : Passage) : Prop where
  fault : passage.view.fault? passage.command = none
  after : passage.after = (passage.view.perform passage.command).view

/-- Whether a word that is taken off the stack is meant for what the other passage has put there: a
return for a call, and all else for a value. -/
structure Pairs (opening closing : Passage) : Prop where
  pushes : opening.command.pushes
  pops : closing.command.pops
  kind : (∃ target, opening.command = .call target) ↔ closing.command = .ret

/-- Whether a passage respects the stack: it moves the stack pointer in no other way than to put a
word on the stack or to take one off, and other words it writes in front of the stack only. -/
structure Respects (passage : Passage) : Prop where
  sp : passage.command.destination? ≠ some .sp
  ram : ¬ passage.command.pushes → ∀ address,
    passage.view.written? passage.command = some address → address < (passage.view.reg .sp).toNat

/-- Passages that are nested like brackets. -/
inductive Nested : List Passage → Prop
  | nil : Nested []
  | plain {passage : Passage} {rest : List Passage} (hpushes : ¬ passage.command.pushes)
      (hpops : ¬ passage.command.pops) (hrest : Nested rest) : Nested (passage :: rest)
  | paired {opening closing : Passage} {inner rest : List Passage} (hpairs : opening.Pairs closing)
      (hinner : Nested inner) (hrest : Nested rest) :
      Nested (opening :: (inner ++ closing :: rest))

/-- Passages that lead from one core to another. In between the stack is kept. -/
def Leads (start : View) : List Passage → View → Prop
  | [], finish => start.Keeps finish
  | passage :: rest, finish =>
    start.Keeps passage.view ∧ passage.Sound ∧ Leads passage.after rest finish

variable {start middle finish : View} {opening closing : Passage} {run inner rest : List Passage}

private theorem leads_of_keeps (hkeeps : start.Keeps middle) (h : Leads middle run finish) :
    Leads start run finish := by
  cases run with
  | nil => exact hkeeps.trans h
  | cons passage rest => exact ⟨hkeeps.trans h.1, h.2⟩

private theorem leads_append (h : Leads start (inner ++ rest) finish) :
    ∃ middle, Leads start inner middle ∧ Leads middle rest finish := by
  induction inner generalizing start with
  | nil => exact ⟨start, .refl start, h⟩
  | cons passage inner ih =>
    obtain ⟨hkeeps, hsound, hinner⟩ := h
    obtain ⟨middle, hinner, hrest⟩ := ih hinner
    exact ⟨middle, ⟨hkeeps, hsound, hinner⟩, hrest⟩

/-- What is put on the stack comes to lie where the stack pointer then is, in front of all else. -/
private theorem exists_of_pushes (hsound : opening.Sound) (hpushes : opening.command.pushes) :
    ∃ value, opening.view.pushed? opening.command = some value ∧
      opening.after.reg .sp + 1 = opening.view.reg .sp ∧
      (opening.after.reg .sp).toNat < (opening.view.reg .sp).toNat ∧
      opening.after.ram.cells[(opening.after.reg .sp).toNat]? = some value ∧
      ∀ address, (opening.view.reg .sp).toNat ≤ address →
        opening.after.ram.cells[address]? = opening.view.ram.cells[address]? := by
  obtain ⟨hsp, value, hlt, target, hpushed, hafter⟩ := View.exists_pushed hsound.fault hpushes
  rw [← hsound.after] at hafter
  have hmoved : opening.after.reg .sp = opening.view.reg .sp - 1 := by
    rw [hafter, View.sp_goTo, View.reg_setReg_self]
  have hless : (opening.view.reg .sp - 1).toNat < (opening.view.reg .sp).toNat :=
    Nat.lt_of_succ_le (Nat.le_of_eq (View.toNat_before hsp))
  rw [hmoved]
  refine ⟨value, hpushed, UInt16.sub_add_cancel _ _, hless, ?_, fun address hle => ?_⟩
  · rw [hafter]
    exact Array.getElem?_set_self hlt
  · rw [hafter]
    exact Array.getElem?_set_ne hlt (Nat.ne_of_lt (Nat.lt_of_lt_of_le hless hle))

/-- What has been put on the stack is taken off again, if the stack was kept in between. -/
private theorem undone_of_pairs (hpairs : opening.Pairs closing) (hopening : opening.Sound)
    (hclosing : closing.Sound) (hinner : opening.after.Keeps closing.view)
    (hrespects : closing.Respects) :
    opening.view.Keeps closing.after ∧ ∃ value, opening.view.pushed? opening.command = some value ∧
      closing.view.Delivers value closing.after closing.command := by
  obtain ⟨value, hpushed, hmoved, hless, hvalue, hothers⟩ :=
    exists_of_pushes hopening hpairs.pushes
  obtain ⟨top, htop, hdelivers⟩ := View.exists_delivered hclosing.fault hpairs.pops
  rw [← hclosing.after] at hdelivers
  -- The word at the stack pointer is still the one that was put there.
  have hsame : some top = some value := by
    rw [← htop, ← hvalue, hinner.sp]
    exact hinner.ram _ (Nat.le_refl _)
  obtain rfl := Option.some.inj hsame
  refine ⟨⟨?_, fun address hle => ?_⟩, top, hpushed, hdelivers⟩
  · rw [View.sp_of_delivers hdelivers hrespects.sp, hinner.sp, hmoved]
  · have hpushes : ¬ closing.command.pushes := fun h => Command.not_pops_of_pushes h hpairs.pops
    have hbehind : (opening.after.reg .sp).toNat ≤ address := Nat.le_trans (Nat.le_of_lt hless) hle
    have hkept : closing.after.ram.cells[address]? = closing.view.ram.cells[address]? := by
      rw [hclosing.after]
      apply View.getElem?_perform
      intro hwritten
      have hbelow := hrespects.ram hpushes address hwritten
      rw [hinner.sp] at hbelow
      exact Nat.not_lt.mpr hbehind hbelow
    rw [hkept, hinner.ram address hbehind, hothers address hle]

/-- Passages that are nested and respect the stack keep it. -/
private theorem keeps_of_nested (hnested : Nested run)
    (hrespects : ∀ passage ∈ run, passage.Respects)
    (h : Leads start run finish) : start.Keeps finish := by
  -- Along the nesting: a pair keeps the stack if what is between its halves does.
  induction hnested generalizing start finish with
  | nil => exact h
  | @plain passage rest hpushes hpops hrest ih =>
    obtain ⟨hkeeps, hsound, h⟩ := h
    have hpassage := hrespects passage List.mem_cons_self
    have hkept : passage.view.Keeps passage.after := by
      rw [hsound.after]
      exact View.keeps_of_not_stack hpushes hpops hpassage.sp (hpassage.ram hpushes)
    exact (hkeeps.trans hkept).trans (ih (fun other hmem =>
      hrespects other (List.mem_cons_of_mem _ hmem)) h)
  | @paired opening closing inner rest hpairs hinner hrest ihinner ihrest =>
    obtain ⟨hkeeps, hopening, h⟩ := h
    obtain ⟨middle, hinside, hkept, hclosing, hbehind⟩ := leads_append h
    have hinside := (ihinner (fun passage hmem => hrespects passage (by simp [hmem])) hinside).trans
      hkept
    obtain ⟨hundone, -⟩ :=
      undone_of_pairs hpairs hopening hclosing hinside (hrespects closing (by simp))
    exact (hkeeps.trans hundone).trans
      (ihrest (fun passage hmem => hrespects passage (by simp [hmem])) hbehind)

/-- Whoever takes a word off the stack has a counterpart that has put it there, with nested passages
in between. -/
private theorem exists_opening (hnested : Nested run) {outer : List Passage}
    (hrun : run = outer ++ closing :: rest) (hpops : closing.command.pops) :
    ∃ before opening inner, outer = before ++ opening :: inner ∧ opening.Pairs closing ∧
      Nested inner := by
  induction hnested generalizing outer rest with
  | nil => simp at hrun
  | @plain passage others _ hplain _ ih =>
    cases outer with
    | nil =>
      obtain ⟨rfl, -⟩ := List.cons.inj hrun
      exact absurd hpops hplain
    | cons first outer =>
      obtain ⟨rfl, hothers⟩ := List.cons.inj hrun
      obtain ⟨before, opening, inner, rfl, hpairs, hinner⟩ := ih hothers
      exact ⟨passage :: before, opening, inner, rfl, hpairs, hinner⟩
  | @paired opening partner inside others hpairs hinside _ ihinside ihothers =>
    cases outer with
    | nil =>
      obtain ⟨rfl, -⟩ := List.cons.inj hrun
      exact absurd hpops (Command.not_pops_of_pushes hpairs.pushes)
    | cons first outer =>
      obtain ⟨rfl, htail⟩ := List.cons.inj hrun
      -- The word is taken off by the partner, behind it or before it.
      obtain ⟨between, rfl, hcut⟩ | ⟨between, hbetween, hcut⟩ := List.append_eq_append_iff.mp htail
      · cases between with
        | nil =>
          obtain ⟨rfl, -⟩ := List.cons.inj hcut
          exact ⟨[], opening, inside, by simp, hpairs, hinside⟩
        | cons second between =>
          obtain ⟨rfl, hothers⟩ := List.cons.inj hcut
          obtain ⟨before, opening', inner, rfl, hpairs', hinner⟩ := ihothers hothers
          exact ⟨opening :: (inside ++ partner :: before), opening', inner, by simp, hpairs',
            hinner⟩
      · cases between with
        | nil =>
          obtain ⟨rfl, -⟩ := List.cons.inj hcut
          exact ⟨[], opening, inside, by simp [hbetween], hpairs, hinside⟩
        | cons second between =>
          obtain ⟨rfl, -⟩ := List.cons.inj hcut
          obtain ⟨before, opening', inner, rfl, hpairs', hinner⟩ := ihinside hbetween
          exact ⟨opening :: before, opening', inner, rfl, hpairs', hinner⟩

/-- What is put on the stack is what its counterpart delivers. -/
private theorem delivers_of_pairs (h : Leads start run finish)
    (hrespects : ∀ passage ∈ run, passage.Respects)
    {before : List Passage} (hrun : run = before ++ opening :: (inner ++ closing :: rest))
    (hpairs : opening.Pairs closing) (hinner : Nested inner) :
    ∃ value, opening.view.pushed? opening.command = some value ∧
      closing.view.Delivers value closing.after closing.command := by
  subst hrun
  obtain ⟨_, -, -, hopening, h⟩ := leads_append h
  obtain ⟨_, hinside, hkept, hclosing, -⟩ := leads_append h
  have hinside := (keeps_of_nested hinner (fun passage hmem => hrespects passage (by simp [hmem]))
    hinside).trans hkept
  exact (undone_of_pairs hpairs hopening hclosing hinside (hrespects closing (by simp))).2

end Passage

namespace State

/-- A stretch of a run without a fault, with what is executed on it. Anything that leaves the
machine itself alone may happen in between. -/
inductive Runs : State → List Passage → State → Prop
  | nil {state : State} : Runs state [] state
  | meanwhile {state after finish : State} {run : List Passage}
      (hundisturbed : state.Undisturbed after) (h : Runs after run finish) : Runs state run finish
  | step {state after finish : State} {outcome : Outcome} {run : List Passage}
      (hstep : state.step = .ok outcome after) (h : Runs after run finish) :
      Runs state (state.executing.map (⟨·, after.core.view⟩) ++ run) finish

open Passage

variable {start after finish : State} {outcome : Outcome} {run : List Passage}

private theorem runs_cons (hstatus : start.status = .running) {command : Command}
    (hcommand : start.takeInput.command? = some command) (hfault : faultIn start.step = none)
    (h : Runs (behind start.step) run finish) :
    Runs start (⟨⟨command, start.takeInput.core.view⟩, (behind start.step).core.view⟩ :: run)
      finish := by
  obtain ⟨outcome, after, hstep⟩ := faultIn_eq_none.mp hfault
  have hbehind : behind start.step = after := congrArg behind hstep
  rw [hbehind] at h ⊢
  have hruns := Runs.step hstep h
  rw [executing, if_pos hstatus, hcommand] at hruns
  exact hruns

/-- Input does not touch the stack. -/
private theorem keeps_takeInput (state : State) :
    state.core.view.Keeps state.takeInput.core.view where
  sp := get_takeInput state (by decide)
  ram address _ := congrArg (·.cells[address]?) state.ram_takeInput

/-- Where there is no command nothing is done to the stack either. -/
private theorem keeps_due {state : State} (hcommand : state.command? = none) :
    state.core.view.Keeps state.due.view := by
  obtain ⟨fault, hdue⟩ | hdue := due_of_command?_eq_none hcommand <;> rw [hdue]
  · exact .refl _
  · exact ⟨View.sp_goTo _, fun _ _ => rfl⟩

private theorem sound_of_step (hstatus : start.status = .running)
    (hstep : start.step = .ok outcome after)
    {command : Command} (hcommand : start.takeInput.command? = some command) :
    Sound ⟨⟨command, start.takeInput.core.view⟩, after.core.view⟩ := by
  have hundergoes := undergoes_due start hstatus
  rw [due_of_command? hcommand, hstep] at hundergoes
  have hends := View.ends_perform start.takeInput.core.view command
  exact ⟨hends.fault?_eq.symm.trans (faultIn_of_undergoes hundergoes).symm,
    view_of_undergoes hundergoes⟩

private theorem leads_step (hstep : start.step = .ok outcome after)
    (h : Leads after.core.view run finish.core.view) :
    Leads start.core.view (start.executing.map (⟨·, after.core.view⟩) ++ run) finish.core.view := by
  have hbehind : after = behind start.step := (congrArg behind hstep).symm
  by_cases hstatus : start.status = .running
  · rw [executing, if_pos hstatus]
    cases hcommand : start.takeInput.command? with
    | some command => exact ⟨keeps_takeInput start, sound_of_step hstatus hstep hcommand, h⟩
    | none =>
      have hkeeps := keeps_due hcommand
      rw [← view_of_undergoes (undergoes_due start hstatus), ← hbehind] at hkeeps
      exact leads_of_keeps ((keeps_takeInput start).trans hkeeps) h
  · rw [executing, if_neg hstatus]
    rw [hbehind, core_step_of_not_running hstatus] at h
    exact h

/-- A run leads from the core at its start to that at its end. -/
private theorem leads_of_runs (h : Runs start run finish) :
    Leads start.core.view run finish.core.view := by
  induction h with
  | nil => exact .refl _
  | meanwhile hundisturbed h ih =>
    rw [← hundisturbed.1]
    exact ih
  | step hstep h ih => exact leads_step hstep ih

/-- Well-nested use of the stack unwinds: the stack is as it was, and each word that is taken off it
is the one that the counterpart has put there. So a return goes behind its call. -/
theorem unwinds_of_nested (h : Runs start run finish) (hnested : Nested run)
    (hrespects : ∀ passage ∈ run, passage.Respects) :
    start.core.view.Keeps finish.core.view ∧
      (∀ outer closing rest, run = outer ++ closing :: rest → closing.command.pops →
        ∃ before opening inner, outer = before ++ opening :: inner ∧
          opening.Pairs closing ∧ Nested inner) ∧
      ∀ before opening inner closing rest, run = before ++ opening :: (inner ++ closing :: rest) →
        opening.Pairs closing → Nested inner →
          ∃ value, opening.view.pushed? opening.command = some value ∧
            closing.view.Delivers value closing.after closing.command :=
  ⟨keeps_of_nested hnested hrespects (leads_of_runs h),
    fun _ _ _ hrun hpops => exists_opening hnested hrun hpops,
    fun _ _ _ _ _ hrun hpairs hinner =>
      delivers_of_pairs (leads_of_runs h) hrespects hrun hpairs hinner⟩

/-- The stack pointer is put on the stack and taken off again during a call. -/
theorem unwinds_of_nested_call :
    let start : State :=
      { core := .initial 2, rom := ⟨.rom, #[0x20023, 0xff, 0xb005, 0x8, 0x24]⟩,
        config := { ramSize := 2, romSize := 5 } }
    let called := behind start.step
    let pushed := behind called.step
    let popped := behind pushed.step
    let returned := behind popped.step
    let call : Passage := ⟨⟨.call (.value 2), start.takeInput.core.view⟩, called.core.view⟩
    let push : Passage := ⟨⟨.push .sp, called.takeInput.core.view⟩, pushed.core.view⟩
    let pop : Passage := ⟨⟨.pop .a, pushed.takeInput.core.view⟩, popped.core.view⟩
    let ret : Passage := ⟨⟨.ret, popped.takeInput.core.view⟩, returned.core.view⟩
    let run := [call, push, pop, ret]
    Runs start run returned ∧ Nested run ∧ (∀ passage ∈ run, passage.Respects) ∧
      start.core.view.Keeps returned.core.view ∧ returned.core.view.reg .ip = 1 := by
  intro start called pushed popped returned call push pop ret run
  have hcall : start.takeInput.command? = some (.call (.value 2)) := by decide +kernel
  have hpush : called.takeInput.command? = some (.push .sp) := by decide +kernel
  have hpop : pushed.takeInput.command? = some (.pop .a) := by decide +kernel
  have hret : popped.takeInput.command? = some .ret := by decide +kernel
  have hruns : Runs start run returned :=
    runs_cons (by decide +kernel) hcall (by decide +kernel) <|
      runs_cons (by decide +kernel) hpush (by decide +kernel) <|
        runs_cons (by decide +kernel) hpop (by decide +kernel) <|
          runs_cons (by decide +kernel) hret (by decide +kernel) .nil
  have hinner : push.Pairs pop := ⟨rfl, rfl, by simp [push, pop]⟩
  have houter : call.Pairs ret := ⟨rfl, rfl, by simp [call, ret]⟩
  have hnested : Nested [push, pop] := @Nested.paired push pop [] [] hinner .nil .nil
  have hrun : Nested run := @Nested.paired call ret [push, pop] [] houter hnested .nil
  have hrespects : ∀ passage ∈ run, passage.Respects := by
    intro passage hmem
    simp only [run, List.mem_cons, List.not_mem_nil, or_false] at hmem
    obtain rfl | rfl | rfl | rfl := hmem
    · exact ⟨nofun, fun h => absurd rfl h⟩
    · exact ⟨nofun, fun h => absurd rfl h⟩
    · exact ⟨nofun, fun _ => nofun⟩
    · exact ⟨nofun, fun _ => nofun⟩
  obtain ⟨hkeeps, -, hdelivers⟩ := unwinds_of_nested hruns hrun hrespects
  obtain ⟨value, hpushed, hreturned⟩ := hdelivers [] call [push, pop] ret [] rfl houter hnested
  have hvalue : value = 1 := (Option.some.inj hpushed).symm.trans (by decide +kernel)
  refine ⟨hruns, hrun, hrespects, hkeeps, ?_⟩
  rw [show returned.core.view = _ from hreturned, ← hvalue]
  exact View.reg_setReg_self

end State

end WordMachine.Machine
