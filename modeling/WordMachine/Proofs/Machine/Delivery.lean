import WordMachine.Proofs.Machine.Buttons
import WordMachine.Proofs.Machine.Turns

/-! The way of the presses. What a display sends is applied once, in the order of sending, by the
first step that a running machine takes behind it. -/
namespace WordMachine.Machine

open Display (Channel Pixel Press)

/-- The presses that a display sends, until it goes away. -/
def sent : List Turn → List Press
  | [] | .incident .leave :: _ => []
  | .incident (.press press) :: rest => press :: sent rest
  | _ :: rest => sent rest

namespace State

def applied (stepped : List State) : List Press :=
  stepped.flatMap batch

/-- Whether a machine has a link for as long as it runs and the display is there, and no input is
left without one. -/
structure Linked (state : State) : Prop where
  link : state.status = .running → state.display.hasEndpoint = true → state.display.hasLink = true
  queue : state.display.hasLink = false → state.display.presses = #[]

/-- The presses that wait and, behind them, those that the display sends in the course of some
turns. -/
def ahead (state : State) (turns : List Turn) : List Press :=
  state.display.presses.toList ++ if state.display.hasEndpoint then sent turns else []

variable {state : State} {turns : List Turn}

private theorem endpoint_shown (channel : Channel) (pixel : Option Pixel) :
    (shown channel pixel).hasEndpoint = channel.hasEndpoint := by
  cases pixel with
  | none => rfl
  | some pixel =>
    cases hlink : channel.hasLink <;> cases hendpoint : channel.hasEndpoint <;>
      simp [shown, Channel.dropLink, hlink, hendpoint]

private theorem link_shown {channel : Channel} (h : channel.hasEndpoint = true)
    (pixel : Option Pixel) :
    (shown channel pixel).hasLink = channel.hasLink := by
  cases pixel with
  | none => rfl
  | some pixel => cases hlink : channel.hasLink <;> simp [shown, h, hlink]

private theorem running_of_afterTurns (h : (state.afterTurns turns).status = .running) :
    state.status = .running := by
  by_contra hstatus
  refine absurd h (afterTurns_induct (·.status ≠ .running) hstatus ?_)
  intro state turn hmem hstatus
  cases turn with
  | incident happening => rwa [Turn.apply, (undisturbed_apply state happening).2.2.2.2]
  | step =>
    obtain ⟨final, hstep, hhalted, -⟩ := exists_of_not_running hstatus
    rw [Turn.apply, hstep, behind, hhalted]
    decide

namespace Linked

private theorem batch_eq (h : state.Linked) (hstatus : state.status = .running) :
    state.batch = state.display.presses.toList := by
  rw [batch]
  by_cases hlink : state.display.hasLink = true
  · rw [if_pos ⟨hstatus, hlink⟩]
  · rw [if_neg fun hboth => hlink hboth.2, h.queue (Bool.eq_false_of_not_eq_true hlink)]

/-- A step takes all the input that waits, and only a display that has gone away can lose its
link. -/
private theorem step (h : state.Linked) (hstatus : state.status = .running) (rest : List Turn) :
    (behind state.step).Linked ∧ (behind state.step).display.presses = #[] ∧
      state.batch ++ (behind state.step).ahead rest = state.ahead (.step :: rest) := by
  have hinput : state.takeInput.display = { state.display with presses := #[] } := by
    rw [display_takeInput]
    split
    · rfl
    · rename_i hlink
      rw [← h.queue (Bool.eq_false_of_not_eq_true hlink)]
  have hpresses : (behind state.step).display.presses = #[] := by
    rw [display_step hstatus, hinput]
    exact presses_shown rfl _
  have hendpoint : (behind state.step).display.hasEndpoint = state.display.hasEndpoint := by
    rw [display_step hstatus, hinput]
    exact endpoint_shown _ _
  refine ⟨⟨fun _ hafter => ?_, fun _ => hpresses⟩, hpresses, ?_⟩
  · have hbefore := hendpoint.symm.trans hafter
    rw [display_step hstatus, link_shown (by rw [hinput]; exact hbefore), hinput]
    exact h.link hstatus hbefore
  · rw [ahead, hpresses, hendpoint, h.batch_eq hstatus]
    rfl

/-- What else happens puts every press that the display sends behind those that wait. -/
private theorem apply (h : state.Linked) (hstatus : state.status = .running) {happening : Incident}
    (hkeeps : happening.keepsLink) (rest : List Turn) : (happening.apply state).Linked ∧
      (happening.apply state).ahead rest = state.ahead (.incident happening :: rest) := by
  cases happening with
  | attach | detach | dismiss => cases hkeeps
  | abort => exact ⟨⟨h.link, h.queue⟩, rfl⟩
  | leave =>
    refine ⟨⟨fun _ hendpoint => absurd hendpoint Bool.false_ne_true, h.queue⟩, ?_⟩
    rw [ahead, ahead, sent, ite_self]
    rfl
  | receive =>
    change State.Linked { state with display := state.display.receive.2 } ∧
      State.ahead { state with display := state.display.receive.2 } rest = _
    unfold Channel.receive
    split <;> exact ⟨⟨h.link, h.queue⟩, rfl⟩
  | press press =>
    rw [Incident.apply, ahead, ahead, sent]
    by_cases hendpoint : state.display.hasEndpoint = true
    · have hlink := h.link hstatus hendpoint
      have hsent : State.onDisplay (Channel.press press) state = (true, { state with
          display := { state.display with presses := state.display.presses.push press } }) := by
        simp [State.onDisplay, Channel.press, hlink]
      rw [if_pos hendpoint, if_pos hendpoint, hsent]
      refine ⟨⟨fun _ _ => hlink, fun hnot => absurd (hlink.symm.trans hnot) (by decide)⟩, ?_⟩
      simp [hendpoint]
    · simp [hendpoint, h]

/-- No press is lost or applied twice, and none overtakes another. -/
private theorem applied_append_batch (h : state.Linked) (hturns : ∀ turn ∈ turns, turn.keepsLink)
    (hrunning : (state.afterTurns turns).status = .running) :
    (state.afterTurns turns).Linked ∧
      applied (state.stepping turns) ++ (state.afterTurns turns).batch = state.ahead turns := by
  -- The machine in front varies: each turn takes off what is ahead of it only what its step takes.
  induction turns generalizing state with
  | nil =>
    rw [ahead, sent, ite_self, List.append_nil]
    exact ⟨h, h.batch_eq hrunning⟩
  | cons turn rest ih =>
    have hstatus := running_of_afterTurns hrunning
    have hrest : ∀ other ∈ rest, other.keepsLink := fun other hmem =>
      hturns other (List.mem_cons_of_mem _ hmem)
    cases turn with
    | step =>
      obtain ⟨hafter, -, hahead⟩ := h.step hstatus rest
      obtain ⟨hlinked, hrest⟩ := ih hafter hrest hrunning
      rw [stepping_step, applied, List.flatMap_cons, List.append_assoc, ← hahead, ← hrest]
      exact ⟨hlinked, rfl⟩
    | incident happening =>
      obtain ⟨hafter, hahead⟩ := h.apply hstatus (hturns _ List.mem_cons_self) rest
      rw [stepping_incident, ← hahead]
      exact ih hafter hrest hrunning

end Linked

/-- In front of a step of a running machine everything that the display has sent was applied or is
applied by this step, in the order of sending and before the instruction. A machine that does not
run takes nothing: one that has halted stays as it is with all that waits, and one that halts only
closes its display, with whose link goes what nobody has taken. Of the presses that are taken the
last of each button counts, so that presses of different buttons may overtake each other, and those
of unknown buttons do nothing. No program holds more than the eight buttons. -/
theorem delivered_afterTurns (start : State) (hturns : ∀ turn ∈ turns, turn.keepsLink) :
    let state := start.attach.afterTurns turns
    (state.status = .running →
      applied (start.attach.stepping turns) ++ state.batch = sent turns ∧
        state.step = cycle state.takeInput ∧
        state.takeInput.core = state.batch.foldl Core.receive state.core ∧
        (behind state.step).display.presses = #[]) ∧
      (state.status ≠ .running → state.batch = [] ∧ (behind state.step).core = state.core) ∧
      (state.status = .halted → state.step = .ok .halted state) ∧
      (state.status = .halting → state.step =
        .ok .halted { state with status := .halted, display := dismissed state.display }) ∧
      (∀ core presses, core.Takes presses (presses.foldl Core.receive core) ∧
        ∀ others : List Press, (∀ button < 8, presses.filter (·.button.toNat = button) =
            others.filter (·.button.toNat = button)) →
          presses.foldl Core.receive core = others.foldl Core.receive core) ∧
      (∀ core press, 7 < press.button → Core.receive core press = core) ∧
      ∀ config words reached, Arises config words reached →
        reached.core.registers.get .inp ≤ 0xff := by
  intro state
  refine ⟨fun hrunning => ?_, fun hstopped => ?_, step_of_halted, step_of_halting,
    fun core presses => ?_, fun core press h => if_pos h, fun _ _ _ => inp_le_of_arises⟩
  · have hlinked : start.attach.Linked := ⟨fun _ _ => rfl, nofun⟩
    obtain ⟨hlinked', hsent⟩ := hlinked.applied_append_batch hturns hrunning
    obtain ⟨-, hpresses, -⟩ := hlinked'.step hrunning []
    have hstep : state.step = cycle state.takeInput := by rw [State.step, hrunning]
    exact ⟨hsent, hstep, core_takeInput hrunning, hpresses⟩
  · exact ⟨if_neg fun hboth => hstopped hboth.1, core_step_of_not_running hstopped⟩
  · exact ⟨core.takes_foldl_receive presses, fun _ => Core.foldl_receive_congr⟩

/-- One button is released and another one pressed behind the step that has seen the first one
held. -/
theorem delivered_afterTurns_step :
    let start : State :=
      { core := .initial 1, rom := ⟨.rom, #[0, 0xff]⟩, config := { ramSize := 1, romSize := 2 } }
    let turns : List Turn := [.incident (.press (.down 3)), .step, .incident (.press (.up 3)),
      .incident (.press (.down 0))]
    let state := start.attach.afterTurns turns
    (∀ turn ∈ turns, turn.keepsLink) ∧ state.status = .running ∧ state.core.holds 3 = true ∧
      state.batch = [.up 3, .down 0] ∧ state.takeInput.core.holds 3 = false ∧
      state.takeInput.core.holds 0 = true := by
  intro start turns state
  have hturns : ∀ turn ∈ turns, turn.keepsLink := by decide
  have hrunning : state.status = .running := by decide +kernel
  obtain ⟨hrun, -, -, -, htakes, -⟩ := delivered_afterTurns start hturns
  obtain ⟨hsent, -, hcore, -⟩ := hrun hrunning
  have hbatch : state.batch = [.up 3, .down 0] := List.append_cancel_left hsent
  have hbutton := (htakes state.core state.batch).1.button
  rw [← hcore, hbatch] at hbutton
  exact ⟨hturns, hrunning, by decide +kernel, hbatch, hbutton 3 (by decide), hbutton 0 (by decide)⟩

end State

end WordMachine.Machine
