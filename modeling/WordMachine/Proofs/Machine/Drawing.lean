import WordMachine.Proofs.Machine.Signal
import WordMachine.Proofs.Machine.Turns

/-! What a display is told in the course of a run: every pixel that is drawn, in the order of
execution, and behind them that the machine has halted. -/
namespace WordMachine.Machine

open Display (Channel Framebuffer Message Pixel)

/-- Whether a turn leaves the display where it is. Neither side is dropped from outside. -/
def Turn.keepsDisplay (turn : Turn) : Bool :=
  turn.keepsLink && turn ≠ .incident .leave

def Signal.pixel? : Signal → Option Pixel
  | .pixel drawn => some drawn
  | _ => none

private theorem Effect.pixel?_signal (effect : Effect) : effect.signal.pixel? = effect.pixel? := by
  cases effect with
  | passes view pixel => cases pixel <;> rfl
  | halts | faults => rfl

private theorem Signal.pixel?_ofPixel? (pixel : Option Pixel) :
    (ofPixel? pixel).pixel? = pixel := by
  cases pixel <;> rfl

namespace State

def drawing (state : State) : List Pixel :=
  state.executing.filterMap Executed.pixel?

def telling (state : State) : List Message :=
  state.drawing.map .pixel ++ if state.status = .halting then [.close] else []

def drawn (stepped : List State) : List Pixel :=
  stepped.flatMap drawing

def settles (stepped : List State) : Bool :=
  stepped.any (·.status = .halting)

def Faulted (stepped : List State) : Prop :=
  ∃ before ∈ stepped, ∃ report after, before.step = .error report after

def heard (state : State) : Incident → List Message
  | .receive => state.display.receive.1.toOption.toList
  | _ => []

/-- What the display has read in the course of some turns. -/
def received : State → List Turn → List Message :=
  collect fun state turn =>
    match turn with
    | .step => []
    | .incident happening => state.heard happening

/-- Whether a machine has a display that is there to listen, for as long as there is anything to
tell. -/
structure Watched (state : State) : Prop where
  endpoint : state.display.hasEndpoint = true
  link : state.status ≠ .halted → state.display.hasLink = true

variable {state : State} {stepped : List State} {turns : List Turn}

private theorem pixel?_due (state : State) : state.due.pixel? =
    state.command?.bind fun command => Executed.pixel? ⟨command, state.core.view⟩ := by
  rw [← Effect.pixel?_signal, signal_due]
  cases state.command? with
  | none => rfl
  | some command =>
    rw [Option.elim_some, Option.bind_some]
    by_cases hhalt : command = .halt
    · rw [if_pos hhalt, hhalt]
      rfl
    · rw [if_neg hhalt, Signal.pixel?_ofPixel?]

private theorem drawing_of_running (hstatus : state.status = .running) :
    state.drawing = state.takeInput.due.pixel?.toList := by
  rw [drawing, executing, if_pos hstatus, pixel?_due]
  cases state.takeInput.command? with
  | none => rfl
  | some command =>
    rw [Option.map_some, Option.toList_some, Option.bind_some, List.filterMap_cons,
      List.filterMap_nil]
    cases Executed.pixel? ⟨command, state.takeInput.core.view⟩ <;> rfl

private theorem drawing_of_not_running (hstatus : state.status ≠ .running) :
    state.drawing = [] := by
  rw [drawing, executing, if_neg hstatus]
  rfl

private theorem telling_of_running (hstatus : state.status = .running) :
    state.telling = state.drawing.map .pixel := by
  rw [telling, hstatus]
  exact List.append_nil _

private theorem telling_of_halting (hstatus : state.status = .halting) :
    state.telling = [.close] := by
  rw [telling, drawing_of_not_running (by rw [hstatus]; nofun), if_pos hstatus]
  rfl

private theorem telling_of_halted (hstatus : state.status = .halted) : state.telling = [] := by
  rw [telling, drawing_of_not_running (by rw [hstatus]; nofun), hstatus]
  rfl

private theorem visible_of_mem_drawn {pixel : Pixel} (hmem : pixel ∈ drawn stepped) :
    pixel.Visible := by
  obtain ⟨before, -, hdrawing⟩ := List.mem_flatMap.mp hmem
  obtain ⟨executed, -, hpixel⟩ := List.mem_filterMap.mp hdrawing
  exact Executed.visible_of_pixel? hpixel

/-- What the display reads is no longer in the queue. -/
private theorem receive_append (channel : Channel) :
    channel.receive.1.toOption.toList ++ channel.receive.2.messages.toList =
      channel.messages.toList := by
  obtain ⟨⟨messages⟩, presses, link, endpoint⟩ := channel
  unfold Channel.receive
  cases messages with
  | nil => cases link <;> rfl
  | cons first rest => simp [Except.toOption]

namespace Watched

/-- A step tells a display that listens what it has to tell, and does not lose it. -/
private theorem step (h : state.Watched) : (behind state.step).Watched ∧
    (behind state.step).display.messages.toList =
      state.display.messages.toList ++ state.telling := by
  cases hstatus : state.status with
  | running =>
    have hlink := h.link (by rw [hstatus]; nofun)
    have hinput := display_takeInput state
    rw [if_pos hlink] at hinput
    rw [telling_of_running hstatus, drawing_of_running hstatus]
    refine ⟨⟨?_, fun _ => ?_⟩, ?_⟩ <;> rw [display_step hstatus, hinput] <;>
      cases state.takeInput.due.pixel? <;> simp [shown, h.endpoint, hlink]
  | halting =>
    have hlink := h.link (by rw [hstatus]; nofun)
    rw [step_of_halting hstatus, telling_of_halting hstatus, dismissed, if_pos hlink,
      Channel.send, if_pos h.endpoint]
    exact ⟨⟨h.endpoint, fun hnot => absurd rfl hnot⟩, Array.toList_push⟩
  | halted =>
    rw [step_of_halted hstatus, telling_of_halted hstatus]
    exact ⟨h, (List.append_nil _).symm⟩

/-- What else happens takes no message away but one that the display reads. -/
private theorem apply (h : state.Watched) {happening : Incident}
    (hkeeps : (Turn.incident happening).keepsDisplay) : (happening.apply state).Watched ∧
      state.heard happening ++ (happening.apply state).display.messages.toList =
        state.display.messages.toList := by
  cases happening with
  | attach | detach | dismiss | leave => cases hkeeps
  | abort => exact ⟨⟨h.endpoint, h.link⟩, rfl⟩
  | press sent =>
    rw [Incident.apply, if_pos h.endpoint]
    change State.Watched { state with display := (state.display.press sent).2 } ∧
      (state.display.press sent).2.messages.toList = state.display.messages.toList
    unfold Channel.press
    split <;> exact ⟨⟨h.endpoint, h.link⟩, rfl⟩
  | receive =>
    refine ⟨?_, receive_append state.display⟩
    change State.Watched { state with display := state.display.receive.2 }
    unfold Channel.receive
    split <;> exact ⟨h.endpoint, h.link⟩

/-- No message is lost or told twice, and none overtakes another. -/
private theorem received_append_messages (h : state.Watched)
    (hturns : ∀ turn ∈ turns, turn.keepsDisplay) :
    state.received turns ++ (state.afterTurns turns).display.messages.toList =
      state.display.messages.toList ++ (state.stepping turns).flatMap telling := by
  induction turns generalizing state with
  | nil => exact (List.append_nil _).symm
  | cons turn rest ih =>
    have hrest : ∀ other ∈ rest, other.keepsDisplay := fun other hmem =>
      hturns other (List.mem_cons_of_mem _ hmem)
    cases turn with
    | step =>
      obtain ⟨hafter, hmessages⟩ := h.step
      rw [stepping_step, List.flatMap_cons, ← List.append_assoc, ← hmessages]
      exact ih hafter hrest
    | incident happening =>
      obtain ⟨hafter, hmessages⟩ := h.apply (hturns _ List.mem_cons_self)
      rw [stepping_incident, ← hmessages, List.append_assoc, ← ih hafter hrest,
        ← List.append_assoc]
      rfl

end Watched

/-- What holds of the machine behind some steps and of what they have told the display. -/
structure InOrder (stepped : List State) (state : State) : Prop where
  order : stepped.flatMap telling =
    (drawn stepped).map .pixel ++ if settles stepped then [.close] else []
  settled : settles stepped → state.status = .halted
  faulted : Faulted stepped → state.status = .halted ∧ settles stepped = false

private theorem settles_append (stepped : List State) (state : State) :
    settles (stepped ++ [state]) = (settles stepped || decide (state.status = .halting)) := by
  simp [settles]

/-- A step that faults is that of a machine that runs, and halts it. -/
private theorem of_step_eq_error {report : FaultReport} {after : State}
    (hstep : state.step = .error report after) :
    state.status = .running ∧ after.status = .halted := by
  by_cases hstatus : state.status = .running
  · obtain ⟨_, _, _, -, h⟩ | ⟨_, _, -, h⟩ | ⟨_, _, _, -, h⟩ := step_cases hstatus <;>
      rw [hstep] at h <;> cases h
    exact ⟨hstatus, rfl⟩
  · obtain ⟨final, hok, -⟩ := exists_of_not_running hstatus
    rw [hstep] at hok
    cases hok

private theorem inOrder_nil (state : State) : InOrder [] state where
  order := rfl
  settled hsettles := absurd hsettles Bool.false_ne_true
  faulted hfaulted := absurd hfaulted.choose_spec.1 List.not_mem_nil

/-- The close is the last thing that is told, since the machine has halted behind it. -/
private theorem InOrder.step (h : InOrder stepped state) :
    InOrder (stepped ++ [state]) (behind state.step) where
  order := by
    rw [settles_append, drawn, List.flatMap_append, List.flatMap_append, List.map_append, h.order]
    by_cases hsettles : settles stepped = true
    -- Nothing may be told behind a close, and nothing is: the machine has halted.
    · have hstatus := h.settled hsettles
      have hdrawing : state.drawing = [] := drawing_of_not_running (by rw [hstatus]; nofun)
      simp [telling_of_halted hstatus, hdrawing, hstatus, hsettles, drawn]
    · simp [hsettles, telling, drawn]
  settled hsettles := by
    rw [settles_append, Bool.or_eq_true, decide_eq_true_eq] at hsettles
    obtain hsettles | hstatus := hsettles
    · have hstatus := h.settled hsettles
      rw [step_of_halted hstatus]
      exact hstatus
    · rw [step_of_halting hstatus]
      rfl
  faulted := by
    rintro ⟨before, hmem, report, after, hstep⟩
    rw [settles_append]
    obtain hmem | hmem := List.mem_append.mp hmem
    · obtain ⟨hstatus, hsettles⟩ := h.faulted ⟨before, hmem, report, after, hstep⟩
      rw [step_of_halted hstatus, hsettles, hstatus]
      exact ⟨hstatus, rfl⟩
    · obtain rfl := List.mem_singleton.mp hmem
      obtain ⟨hstatus, hhalted⟩ := of_step_eq_error hstep
      rw [hstep, hstatus]
      refine ⟨hhalted, ?_⟩
      cases hsettles : settles stepped with
      | false => rfl
      | true => exact nomatch hstatus.symm.trans (h.settled hsettles)

private theorem InOrder.of_undisturbed {after : State} (h : InOrder stepped state)
    (hundisturbed : state.Undisturbed after) : InOrder stepped after := by
  have hstatus : after.status = state.status := hundisturbed.2.2.2.2
  exact ⟨h.order, fun hsettles => hstatus.trans (h.settled hsettles),
    fun hfaulted => (h.faulted hfaulted).imp_left hstatus.trans⟩

/-- A display that stays attached is told every pixel that is drawn, in the order of execution, and
that the machine has halted if a halt was carried out, but nothing of a fault. Every pixel can be
seen, so a framebuffer counts all of them and shows at each place the last one there. -/
theorem messages_afterTurns (start : State) (hturns : ∀ turn ∈ turns, turn.keepsDisplay) :
    let stepped := start.attach.stepping turns
    let messages :=
      start.attach.received turns ++ (start.attach.afterTurns turns).display.messages.toList
    let framebuffer := Framebuffer.ofMessages messages
    messages = (drawn stepped).map .pixel ++ (if settles stepped then [.close] else []) ∧
      (Faulted stepped → settles stepped = false) ∧
      (∀ pixel ∈ drawn stepped, pixel.Visible) ∧
      framebuffer.updates = (drawn stepped).length ∧
      ∀ x y, x < Display.width → y < Display.height →
        framebuffer.colors[Display.width * y + x]? =
          some ((((drawn stepped).filter (Pixel.isAt x y)).getLast?.map Pixel.color).getD 0) := by
  intro stepped messages framebuffer
  have hwatched : start.attach.Watched := ⟨rfl, fun _ => rfl⟩
  have horder : InOrder stepped (start.attach.afterTurns turns) :=
    stepping_induct InOrder (inOrder_nil _) (fun _ _ => InOrder.step)
      (fun _ _ _ => InOrder.of_undisturbed) turns
  have hmessages : messages =
      (drawn stepped).map .pixel ++ if settles stepped then [.close] else [] := by
    rw [← horder.order]
    exact hwatched.received_append_messages hturns
  have hvisible : ∀ pixel ∈ drawn stepped, pixel.Visible := fun _ => visible_of_mem_drawn
  have hframebuffer := Framebuffer.ofMessages_pixels hvisible (settles stepped)
  rw [← hmessages] at hframebuffer
  exact ⟨hmessages, fun hfaulted => (horder.faulted hfaulted).2, hvisible, hframebuffer⟩

/-- The stack pointer draws a pixel, which is read at once, and a port another one. Then the machine
halts. -/
theorem messages_afterTurns_halt :
    let start : State :=
      { core := .initial 1, rom := ⟨.rom, #[0x5bb2e, 0x4211026, 0xff]⟩,
        config := { ramSize := 1, romSize := 3 } }
    let turns : List Turn := [.step, .incident .receive, .step, .step, .step, .step]
    let messages :=
      start.attach.received turns ++ (start.attach.afterTurns turns).display.messages.toList
    (∀ turn ∈ turns, turn.keepsDisplay) ∧
      messages = [.pixel ⟨1, 1, 5⟩, .pixel ⟨1, 2, 4⟩, .close] ∧
      (Framebuffer.ofMessages messages).updates = 2 ∧
      (Framebuffer.ofMessages messages).colors[Display.width * 2 + 1]? = some 4 := by
  intro start turns messages
  have hturns : ∀ turn ∈ turns, turn.keepsDisplay := by decide
  obtain ⟨hmessages, -, -, hupdates, hcolors⟩ := messages_afterTurns start hturns
  have hdrawn : drawn (start.attach.stepping turns) = [⟨1, 1, 5⟩, ⟨1, 2, 4⟩] := by decide +kernel
  have hsettles : settles (start.attach.stepping turns) = true := by decide +kernel
  rw [hdrawn, hsettles] at hmessages
  rw [hdrawn] at hupdates hcolors
  exact ⟨hturns, hmessages, hupdates, hcolors 1 2 (by decide) (by decide)⟩

end State

end WordMachine.Machine
