import WordMachine.Proofs.Machine.Runs
import WordMachine.Proofs.Machine.Turns

/-! Neither the display nor tracing has any influence on the machine. Two machines that differ in
them alone are told the same, go through the same states and fault in the same way, whatever
displays come and go around either of them. -/
namespace WordMachine.Machine

open Display (Channel)

/-- Whether an incident is a matter of the display alone. A button is an input, and the end of the
run can be asked for without a display. -/
def Incident.isSilent : Incident → Bool
  | attach | detach | dismiss | receive | leave => true
  | abort | press _ => false

namespace State

def afterIncidents (state : State) (happenings : List Incident) : State :=
  happenings.foldl Incident.apply state

/-- The loop of `runWithin` with incidents in front of each step and behind the last. They are given
by the number of steps that are left. -/
def runAmid (meanwhile : Nat → List Incident) : (steps : Nat) → Running (Option Ending)
  | 0 => fun state => .ok none (state.afterIncidents (meanwhile 0))
  | steps + 1 => fun state =>
    let state := state.afterIncidents (meanwhile (steps + 1))
    match state.ending? with
    | some ending => .ok (some ending) state
    | none => match state.step with
      | .ok _ after => runAmid meanwhile steps after
      | .error report after => .error report after

def runCyclesAmid (meanwhile : Nat → List Incident) (limit : Nat) : Running Ending := fun state =>
  limited (runAmid meanwhile (state.granted limit) state)

end State

inductive Order
  | step
  | run (limit : Nat)
  | runAmid (limit : Nat) (meanwhile : Nat → List Incident)

inductive Answer
  | stepped (outcome : Outcome)
  | ran (ending : Ending)

namespace Order

def carryOut : Order → Running Answer
  | step => Answer.stepped <$> State.step
  | run limit => Answer.ran <$> State.runCycles limit
  | runAmid limit meanwhile => Answer.ran <$> State.runCyclesAmid meanwhile limit

def plain : Order → Order
  | step => step
  | run limit | runAmid limit _ => run limit

end Order

inductive Act
  | order (order : Order)
  | incident (incident : Incident)

namespace Act

def order? : Act → Option Order
  | order given => some given.plain
  | incident _ => none

def Silent : Act → Prop
  | order (.runAmid _ meanwhile) => ∀ steps, ∀ happening ∈ meanwhile steps, happening.isSilent
  | order _ => True
  | incident happening => happening.isSilent

end Act

namespace State

variable {α β : Type}

/-- A machine without all that is around it: no display, no tracing and an empty journal. -/
def bare (state : State) : State :=
  { state with config := { state.config with trace := false }, display := .dropped, journal := {} }

def left : EStateM.Result FaultReport State α → State
  | .ok _ after => after
  | .error _ after => after

/-- What is seen of a machine in the course of a schedule: behind each order what the caller is told
and the machine without what is around it. -/
def sights (state : State) : List Act → List (Except FaultReport Answer × State)
  | [] => []
  | .incident happening :: rest => (happening.apply state).sights rest
  | .order given :: rest =>
    let result := given.carryOut state
    (told result, (left result).bare) :: (left result).sights rest

/-- Whether two machines differ in no more than what is around them, and no input waits for either
of them. -/
structure Alike (first second : State) : Prop where
  bare : first.bare = second.bare
  silent : first.display.presses = #[]
  silent' : second.display.presses = #[]

def Agree : EStateM.Result FaultReport State α → EStateM.Result FaultReport State α → Prop
  | .ok value after, .ok value' after' => value = value' ∧ after.Alike after'
  | .error report after, .error report' after' => report = report' ∧ after.Alike after'
  | _, _ => False

variable {first second : State}

private theorem told_eq_of_agree {result result' : EStateM.Result FaultReport State α}
    (h : Agree result result') :
    told result = told result' ∧ (left result).Alike (left result') := by
  cases result <;> cases result' <;> try exact h.elim
  · exact ⟨congrArg Except.ok h.1, h.2⟩
  · exact ⟨congrArg Except.error h.1, h.2⟩

private theorem agree_map (f : α → β) {work work' : Running α}
    (h : Agree (work first) (work' second)) :
    Agree ((f <$> work) first) ((f <$> work') second) := by
  change Agree (EStateM.map f work first) (EStateM.map f work' second)
  unfold EStateM.map
  cases hresult : work first <;> cases hresult' : work' second <;> rw [hresult, hresult'] at h <;>
    try exact h.elim
  · exact ⟨congrArg f h.1, h.2⟩
  · exact h

section Incidents

variable {state : State} {happening : Incident}

/-- What is a matter of the display is seen on no bare machine and brings no input. -/
private theorem bare_apply (hsilent : happening.isSilent) :
    (happening.apply state).bare = state.bare := by
  cases happening with
  | press | abort => cases hsilent
  | dismiss =>
    rw [Incident.apply, dismissDisplay_eq]
    rfl
  | _ => rfl

private theorem presses_apply (hsilent : happening.isSilent) (h : state.display.presses = #[]) :
    (happening.apply state).display.presses = #[] := by
  cases happening with
  | press | abort => cases hsilent
  | attach | detach => rfl
  | leave => exact h
  | receive =>
    change (Channel.receive state.display).2.presses = #[]
    unfold Channel.receive
    split <;> exact h
  | dismiss =>
    rw [Incident.apply, dismissDisplay_eq]
    exact presses_dismissed h

end Incidents

namespace Alike

private theorem symm (h : first.Alike second) :
    second.Alike first := ⟨h.bare.symm, h.silent', h.silent⟩

private theorem apply (h : first.Alike second) {happening : Incident}
    (hsilent : happening.isSilent) :
    (happening.apply first).Alike second :=
  ⟨(bare_apply hsilent).trans h.bare, presses_apply hsilent h.silent, h.silent'⟩

private theorem afterIncidents (h : first.Alike second) {happenings : List Incident}
    (hsilent : ∀ happening ∈ happenings, happening.isSilent) :
    (first.afterIncidents happenings).Alike second := by
  induction happenings generalizing first with
  | nil => exact h
  | cons happening rest ih =>
    exact ih (h.apply (hsilent happening List.mem_cons_self))
      fun other hmem => hsilent other (List.mem_cons_of_mem _ hmem)

private theorem status (h : first.Alike second) : first.status = second.status :=
  show first.bare.status = second.bare.status from congrArg State.status h.bare

private theorem cycles (h : first.Alike second) : first.cycles = second.cycles :=
  show first.bare.cycles = second.bare.cycles from congrArg State.cycles h.bare

private theorem ending? (h : first.Alike second) : first.ending? = second.ending? := by
  change first.bare.ending? = second.bare.ending?
  rw [h.bare]

private theorem due (h : first.Alike second) : first.due = second.due := by
  change first.bare.due = second.bare.due
  rw [h.bare]

end Alike

/-- An effect is carried out alike. The core is seen in it, and the rest of a bare machine moves on
by itself. -/
private theorem agree_of_undergoes (halike : first.Alike second) {effect : Effect}
    {result result' : EStateM.Result FaultReport State Outcome} (h : first.Undergoes effect result)
    (h' : second.Undergoes effect result') : Agree result result' := by
  have hbare := halike.bare
  obtain ⟨core, pixel, journal, rfl, rfl⟩ | ⟨core, journal, rfl, rfl⟩ |
    ⟨fault, core, journal, rfl, rfl⟩ := undergoes_cases h
  · obtain ⟨core', pixel', journal', heffect, rfl⟩ | ⟨_, _, ⟨⟩, -⟩ | ⟨_, _, _, ⟨⟩, -⟩ :=
      undergoes_cases h'
    obtain ⟨hview, rfl⟩ := Effect.passes.inj heffect
    obtain rfl := Core.view_injective hview
    exact ⟨rfl,
      congrArg (fun state : State => { state with core, cycles := state.cycles + 1 }) hbare,
      presses_shown halike.silent pixel, presses_shown halike.silent' pixel⟩
  · obtain ⟨_, _, _, ⟨⟩, -⟩ | ⟨core', journal', heffect, rfl⟩ | ⟨_, _, _, ⟨⟩, -⟩ :=
      undergoes_cases h'
    obtain rfl := Core.view_injective (Effect.halts.inj heffect)
    exact ⟨rfl, congrArg (fun state : State =>
      { state with core, status := .halting, cycles := state.cycles + 1 }) hbare,
      halike.silent, halike.silent'⟩
  · obtain ⟨_, _, _, ⟨⟩, -⟩ | ⟨_, _, ⟨⟩, -⟩ | ⟨fault', core', journal', heffect, rfl⟩ :=
      undergoes_cases h'
    obtain ⟨rfl, hview⟩ := Effect.faults.inj heffect
    obtain rfl := Core.view_injective hview
    refine ⟨?_, congrArg (fun state : State => { state with core, status := .halted }) hbare,
      halike.silent, halike.silent'⟩
    simp only [dump, halike.cycles]

private theorem agree_step (h : first.Alike second) : Agree first.step second.step := by
  cases hstatus : first.status with
  | running =>
    have hdue := undergoes_step first hstatus h.silent
    rw [h.due] at hdue
    exact agree_of_undergoes h hdue
      (undergoes_step second (h.status.symm.trans hstatus) h.silent')
  | halting =>
    rw [step_of_halting hstatus, step_of_halting (h.status.symm.trans hstatus)]
    exact ⟨rfl, congrArg (fun state : State => { state with status := .halted }) h.bare,
      presses_dismissed h.silent, presses_dismissed h.silent'⟩
  | halted =>
    rw [step_of_halted hstatus, step_of_halted (h.status.symm.trans hstatus)]
    exact ⟨rfl, h⟩

variable {meanwhile meanwhile' : Nat → List Incident}

private theorem agree_runAmid (h : first.Alike second)
    (hsilent : ∀ steps, ∀ happening ∈ meanwhile steps, happening.isSilent)
    (hsilent' : ∀ steps, ∀ happening ∈ meanwhile' steps, happening.isSilent) (steps : Nat) :
    Agree (runAmid meanwhile steps first) (runAmid meanwhile' steps second) := by
  have hamid {first second : State} (h : first.Alike second) (steps : Nat) :
      (first.afterIncidents (meanwhile steps)).Alike (second.afterIncidents (meanwhile' steps)) :=
    ((h.afterIncidents (hsilent steps)).symm.afterIncidents (hsilent' steps)).symm
  induction steps generalizing first second with
  | zero => exact ⟨rfl, hamid h 0⟩
  | succ steps ih =>
    have hstart := hamid h (steps + 1)
    rw [runAmid, runAmid]
    dsimp only
    rw [hstart.ending?]
    cases (second.afterIncidents (meanwhile' (steps + 1))).ending? with
    | some ending => exact ⟨rfl, hstart⟩
    | none =>
      have hstep := agree_step hstart
      dsimp only
      cases hresult : (first.afterIncidents (meanwhile (steps + 1))).step <;>
        cases hresult' : (second.afterIncidents (meanwhile' (steps + 1))).step <;>
          rw [hresult, hresult'] at hstep <;> try exact hstep.elim
      · exact ih hstep.2
      · exact hstep

private theorem agree_settled (h : first.Alike second) : Agree first.settled second.settled := by
  unfold settled
  by_cases hstatus : first.status = .halting
  · have hstatus' := h.status.symm.trans hstatus
    have hstep := agree_step h
    rw [step_of_halting hstatus, step_of_halting hstatus'] at hstep
    rw [if_pos hstatus, if_pos hstatus', step_of_halting hstatus, step_of_halting hstatus']
    exact ⟨rfl, hstep.2⟩
  · rw [if_neg hstatus, if_neg (h.status ▸ hstatus)]
    exact ⟨congrArg (·.getD .outOfCycles) h.ending?, h⟩

private theorem agree_runCyclesAmid (h : first.Alike second)
    (hsilent : ∀ steps, ∀ happening ∈ meanwhile steps, happening.isSilent)
    (hsilent' : ∀ steps, ∀ happening ∈ meanwhile' steps, happening.isSilent) (limit : Nat) :
    Agree (runCyclesAmid meanwhile limit first) (runCyclesAmid meanwhile' limit second) := by
  have hrun := agree_runAmid h hsilent hsilent' (first.granted limit)
  rw [runCyclesAmid, runCyclesAmid]
  rw [show second.granted limit = first.granted limit by rw [granted, granted, h.cycles]]
  cases hresult : runAmid meanwhile (first.granted limit) first <;>
    cases hresult' : runAmid meanwhile' (first.granted limit) second <;>
      rw [hresult, hresult'] at hrun <;> try exact hrun.elim
  · obtain ⟨rfl, hafter⟩ := hrun
    rename_i ending? _ _
    cases ending? with
    | none => exact agree_settled hafter
    | some ending => exact ⟨rfl, hafter⟩
  · exact hrun

private theorem runAmid_nothing (steps : Nat) (state : State) :
    runAmid (fun _ => []) steps state = runWithin steps state := by
  induction steps generalizing state with
  | zero => rfl
  | succ steps ih =>
    rw [runWithin_succ, runAmid]
    simp only [ih]
    rfl

/-- A run in the course of which nothing happens is the plain one. -/
private theorem runCyclesAmid_nothing (limit : Nat) (state : State) :
    runCyclesAmid (fun _ => []) limit state = runCycles limit state := by
  rw [runCyclesAmid, runCycles_eq, runAmid_nothing]

/-- An order is carried out alike, whatever happens around the one machine and with nothing around
the other. -/
private theorem agree_carryOut (h : first.Alike second) {given : Order}
    (hsilent : (Act.order given).Silent) :
    Agree (given.carryOut first) (given.plain.carryOut second) := by
  have hnothing (_ : Nat) (happening : Incident) (hmem : happening ∈ []) :
      happening.isSilent = true := nomatch hmem
  cases given with
  | step => exact agree_map Answer.stepped (agree_step h)
  | run limit =>
    apply agree_map Answer.ran
    rw [← runCyclesAmid_nothing, ← runCyclesAmid_nothing]
    exact agree_runCyclesAmid h hnothing hnothing limit
  | runAmid limit meanwhile =>
    apply agree_map Answer.ran
    rw [← runCyclesAmid_nothing]
    exact agree_runCyclesAmid h hsilent hnothing limit

/-- What is seen of a machine follows from the orders that it is given, and is what is seen of one
with nothing around it. -/
private theorem sights_eq_plain (h : first.Alike second) {acts : List Act}
    (hsilent : ∀ act ∈ acts, act.Silent) :
    first.sights acts = second.sights ((acts.filterMap Act.order?).map .order) := by
  induction acts generalizing first second with
  | nil => rfl
  | cons act rest ih =>
    have hrest : ∀ other ∈ rest, other.Silent := fun other hmem =>
      hsilent other (List.mem_cons_of_mem _ hmem)
    have hact := hsilent act List.mem_cons_self
    cases act with
    | incident happening => exact ih (h.apply hact) hrest
    | order given =>
      obtain ⟨htold, hleft⟩ := told_eq_of_agree (agree_carryOut h hact)
      have horder : (Act.order given).order? = some given.plain := rfl
      rw [List.filterMap_cons_some horder, List.map_cons, sights, sights, ih hleft hrest, htold,
        hleft.bare]

/-- Two machines that differ in the display and in tracing alone, and for which no input waits, are
seen alike in two schedules with the same orders. Displays may come and go in each of the schedules
as they like, in the course of a run with a limit too. -/
theorem sights_eq_of_bare_eq (hbare : first.bare = second.bare)
    (hpresses : first.display.presses = #[]) (hpresses' : second.display.presses = #[])
    {acts others : List Act} (hsilent : ∀ act ∈ acts, act.Silent)
    (hsilent' : ∀ act ∈ others, act.Silent)
    (horders : acts.filterMap Act.order? = others.filterMap Act.order?) :
    first.sights acts = second.sights others := by
  have hfirst : first.Alike first.bare := ⟨rfl, hpresses, rfl⟩
  have hsecond : second.Alike first.bare := ⟨hbare.symm, hpresses', rfl⟩
  rw [sights_eq_plain hfirst hsilent, sights_eq_plain hsecond hsilent', horders]

/-- A pixel is drawn before the machine halts. On one side the machine is traced, and a display is
there at first and goes away in the course of the run; on the other there is none. -/
theorem sights_eq_of_bare_eq_trace :
    let traced : State :=
      { core := .initial 1, rom := ⟨.rom, #[0x2e, 0x2e, 0xff]⟩,
        config := { ramSize := 1, romSize := 3, trace := true }, display := {},
        journal := { threshold := some .trace } }
    let plain : State :=
      { core := .initial 1, rom := ⟨.rom, #[0x2e, 0x2e, 0xff]⟩,
        config := { ramSize := 1, romSize := 3 } }
    let leaving : Nat → List Incident := fun steps => if steps = 3 then [.leave] else []
    let acts : List Act := [.order .step, .order (.runAmid 4 leaving), .incident .attach]
    let others : List Act := [.order .step, .incident .detach, .order (.run 4)]
    traced.bare = plain.bare ∧ acts.filterMap Act.order? = others.filterMap Act.order? ∧
      traced.sights acts = plain.sights others := by
  intro traced plain leaving acts others
  have hbare : traced.bare = plain.bare := rfl
  have horders : acts.filterMap Act.order? = others.filterMap Act.order? := rfl
  have hsilent : ∀ act ∈ acts, act.Silent := by
    intro act hmem
    simp only [acts, List.mem_cons, List.not_mem_nil, or_false] at hmem
    obtain rfl | rfl | rfl := hmem
    · trivial
    · intro steps happening hmem
      unfold leaving at hmem
      split at hmem
      · rw [List.mem_singleton.mp hmem]
        rfl
      · cases hmem
    · rfl
  have hsilent' : ∀ act ∈ others, act.Silent := by
    intro act hmem
    simp only [others, List.mem_cons, List.not_mem_nil, or_false] at hmem
    obtain rfl | rfl | rfl := hmem
    · trivial
    · rfl
    · trivial
  exact ⟨hbare, horders, sights_eq_of_bare_eq hbare rfl rfl hsilent hsilent' horders⟩

end State

end WordMachine.Machine
