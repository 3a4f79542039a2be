import WordMachine.Proofs.Assembly.Program

/-! Which errors the parts of assembly can end in: each blames the line it works on, and finds the
source at fault, never the encoding. -/
namespace WordMachine.Assembly

open Isa (Entry Instruction Operand)

def Cause.IsOfSource (cause : Cause) : Prop :=
  ∀ error, cause ≠ .unencodable error

/-- Whether a statement is wrong, by itself or behind those in front of it. That a label is never
declared cannot be told from a statement. -/
structure Cause.IsOfReading (cause : Cause) : Prop where
  source : cause.IsOfSource
  declared : ∀ name, cause ≠ .labelUndefined name

/-- Whether a label is never declared, or a number does not fit into an operand. -/
def Cause.IsOfPatching : Cause → Prop
  | .labelUndefined _ | .tooLarge _ _ | .outsideRam _ _ => True
  | _ => False

private theorem Cause.IsOfPatching.isOfSource {cause : Cause} (h : cause.IsOfPatching) :
    cause.IsOfSource := by
  rintro error rfl
  exact h

structure Error.IsOn (line : Nat) (error : Error) : Prop where
  line : error.line = line
  cause : error.cause.IsOfSource

structure Error.IsReadOn (line : Nat) (error : Error) : Prop where
  line : error.line = line
  cause : error.cause.IsOfReading

structure OpenOperand.Faults (labels : List Label) (opened : OpenOperand) (error : Error) :
    Prop where
  line : error.line = opened.line
  cause : error.cause.IsOfPatching
  undefined : ∀ name, error.cause = .labelUndefined name →
    opened.label = name ∧ index? labels name = none

private theorem isOfReading_of_fit {ramSize value : Nat} {operand : Operand} {cause : Cause}
    (h : fit ramSize operand value = .error cause) :
    cause.IsOfReading ∧ cause.IsOfPatching := by
  unfold fit at h
  split at h
  · cases h
    exact ⟨⟨nofun, nofun⟩, trivial⟩
  · split at h
    · cases h
    · split at h <;> cases h
      exact ⟨⟨nofun, nofun⟩, trivial⟩

private theorem isOfReading_of_evaluate {ramSize : Nat} {operand : Operand} {text : List Char}
    {cause : Cause} (h : evaluate ramSize operand text = .error cause) : cause.IsOfReading := by
  unfold evaluate at h
  split at h
  · split at h <;> cases h
    exact ⟨nofun, nofun⟩
  · split at h
    · exact (isOfReading_of_fit h).1
    · cases h
      exact ⟨nofun, nofun⟩

private theorem isOfReading_of_checkArity {entry : Entry} {texts : List (List Char)} {cause : Cause}
    (h : checkArity entry texts = .error cause) : cause.IsOfReading := by
  unfold checkArity at h
  dsimp only at h
  split at h
  · cases h
    exact ⟨nofun, nofun⟩
  · split at h <;> cases h
    exact ⟨nofun, nofun⟩

namespace Drafting

variable {α β : Type} {allowed : Error → Prop}

def Blames (allowed : Error → Prop) (work : Drafting α) : Prop :=
  ∀ draft error after, work draft = .error error after → allowed error

namespace Blames

/-- Work that always ends well blames nobody. -/
private theorem of_ok {work : Drafting α}
    (h : ∀ draft, ∃ value after, work draft = .ok value after) :
    Blames allowed work := by
  intro draft error after herror
  obtain ⟨value, other, hok⟩ := h draft
  rw [hok] at herror
  cases herror

private theorem pure (value : α) : Blames allowed (Pure.pure value) :=
  of_ok fun draft => ⟨value, draft, rfl⟩

private theorem get : Blames allowed MonadState.get :=
  of_ok fun draft => ⟨draft, draft, rfl⟩

private theorem modify (change : Draft → Draft) : Blames allowed (modify change) :=
  of_ok fun draft => ⟨(), change draft, rfl⟩

private theorem note (event : Event) : Blames allowed (note event) :=
  modify _

private theorem fail {line : Nat} {cause : Cause} (h : allowed ⟨line, cause⟩) :
    Blames allowed (fail line cause : Drafting α) := by
  rintro draft error after ⟨⟩
  exact h

private theorem bind {work : Drafting α} {rest : α → Drafting β} (h : Blames allowed work)
    (hrest : ∀ value, Blames allowed (rest value)) : Blames allowed (work >>= rest) := by
  intro draft error after herror
  rcases bind_eq_error.mp herror with hfirst | ⟨value, middle, -, hsecond⟩
  · exact h draft error after hfirst
  · exact hrest value middle error after hsecond

private theorem orFail {line : Nat} {result : Except Cause α}
    (h : ∀ cause, result = .error cause → allowed ⟨line, cause⟩) :
    Blames allowed (orFail line result) := by
  cases result with
  | ok value => exact pure value
  | error cause => exact fail (h cause rfl)

private theorem forM {work : α → Drafting Unit} {values : List α}
    (h : ∀ value ∈ values, Blames allowed (work value)) : Blames allowed (values.forM work) := by
  induction values with
  | nil => exact pure ()
  | cons value values ih =>
    obtain ⟨hhead, htail⟩ := List.forall_mem_cons.mp h
    exact bind hhead fun _ => ih htail

private theorem ite {condition : Prop} [Decidable condition] {work other : Drafting α}
    (h : Blames allowed work) (hother : Blames allowed other) :
    Blames allowed (if condition then work else other) := by
  split
  · exact h
  · exact hother

/-- A check that stops the work if a condition holds. -/
private theorem check {condition : Prop} [Decidable condition] {line : Nat} {cause : Cause}
    {rest : Unit → Drafting α} (h : allowed ⟨line, cause⟩) (hrest : Blames allowed (rest ())) :
    Blames allowed (if condition then Drafting.fail line cause >>= rest else rest ()) :=
  ite (bind (fail h) fun _ => hrest) hrest

end Blames

section Line

variable (line index : Nat)

private theorem blames_nextIndex : Blames (·.IsReadOn line) (nextIndex line) := by
  refine .bind .get fun draft => ?_
  exact .check ⟨rfl, nofun, nofun⟩ (.pure _)

private theorem blames_declare (name : List Char) :
    Blames (·.IsReadOn line) (declare line name) := by
  have hrest : Blames (·.IsReadOn line) (nextIndex line >>= fun index => do
      note (.declared name index)
      modify fun draft => { draft with labels := draft.labels.push ⟨name, index⟩ }) :=
    .bind (blames_nextIndex line) fun index => .bind (.note _) fun _ => .modify _
  unfold declare
  refine .check ⟨rfl, nofun, nofun⟩ (.bind .get fun draft => ?_)
  exact .check ⟨rfl, nofun, nofun⟩ hrest

private theorem blames_refer (operand : Operand) (name : List Char) :
    Blames (·.IsReadOn line) (refer line index operand name) := by
  refine .bind .get fun draft => ?_
  cases draft.labelIndex? name with
  | some target => exact .orFail fun cause hcause => ⟨rfl, (isOfReading_of_fit hcause).1⟩
  | none => exact .bind (.note _) fun _ => .bind (.modify _) fun _ => .pure _

private theorem blames_resolve (operand : Operand) (text : List Char) :
    Blames (·.IsReadOn line) (resolve line index operand text) := by
  have hevaluate : Blames (·.IsReadOn line) (get >>= fun draft : Draft =>
      orFail line (evaluate draft.ramSize operand text)) :=
    .bind .get fun draft => .orFail fun cause hcause => ⟨rfl, isOfReading_of_evaluate hcause⟩
  unfold resolve
  cases referredLabel? text with
  | none => exact hevaluate
  | some name => exact .ite hevaluate (blames_refer line index operand name)

private theorem blames_store (instruction : Instruction) (operands : List (Operand × List Char)) :
    Blames (·.IsReadOn line) (store line index instruction operands) := by
  induction operands generalizing instruction with
  | nil => exact .pure _
  | cons operand operands ih => exact .bind (blames_resolve line index _ _) fun value => ih _

end Line

private theorem blames_instruction (statement : Statement) :
    Blames (·.IsReadOn statement.line) (instruction statement) := by
  unfold instruction
  cases Entry.ofMnemonic? statement.mnemonic with
  | none => exact .fail ⟨rfl, nofun, nofun⟩
  | some entry =>
    refine .bind (.orFail fun cause hcause => ⟨rfl, isOfReading_of_checkArity hcause⟩) fun _ => ?_
    exact .bind (blames_nextIndex _) fun index => blames_store _ index _ _

/-- A statement that cannot be read is to blame for it. -/
theorem blames_read (statement : Statement) :
    Blames (·.IsReadOn statement.line) (read statement) := by
  refine .bind (.note _) fun _ => .bind (.forM fun name _ => blames_declare _ name) fun _ => ?_
  refine .ite (.bind (blames_instruction statement) fun instruction => ?_) (.pure _)
  exact .bind .get fun draft => .bind (.note _) fun _ => .modify _

theorem faults_of_patch {draft after : Draft} {opened : OpenOperand} {error : Error}
    (h : patch opened draft = .error error after) :
    opened.Faults draft.labels.toList error := by
  have hget : (get : Drafting Draft) draft = .ok draft draft := rfl
  rw [patch, bind_of_ok hget, Draft.labelIndex?_eq] at h
  cases hindex : index? draft.labels.toList opened.label with
  | none =>
    rw [hindex] at h
    cases h
    refine ⟨rfl, trivial, ?_⟩
    rintro name ⟨⟩
    exact ⟨rfl, hindex⟩
  | some target =>
    rw [hindex] at h
    have hfit (cause : Cause) (hcause : fit draft.ramSize opened.operand target = .error cause) :
        opened.Faults draft.labels.toList ⟨opened.line, cause⟩ := by
      obtain ⟨hreading, hpatching⟩ := isOfReading_of_fit hcause
      exact ⟨rfl, hpatching, fun name hname => absurd hname (hreading.declared name)⟩
    exact Blames.bind (.orFail hfit) (fun _ => .bind (.note _) fun _ => .modify _) _ _ _ h

/-- An operand that cannot be patched blames the line on which it refers to its label. -/
private theorem blames_patch (opened : OpenOperand) :
    Blames (·.IsOn opened.line) (patch opened) := by
  intro draft error after h
  have hfaults : opened.Faults draft.labels.toList error := faults_of_patch h
  exact ⟨hfaults.line, hfaults.cause.isOfSource⟩

end Drafting

section Program

variable {ramSize : Nat} {source : List Char} {error : Error}

/-- Assembly can fail while statements are read or while operands are patched. What is left then
can be encoded. -/
theorem cases_of_assemble_error (h : assemble ramSize source = .error error) :
    (∃ after, (statements source).forM Drafting.read (.blank ramSize) = .error error after) ∨
      ∃ draft after, (statements source).forM Drafting.read (.blank ramSize) = .ok () draft ∧
        draft.openOperands.toList.forM Drafting.patch draft = .error error after := by
  obtain ⟨after, hprogram⟩ := assemble_eq_error.mp h
  rw [Drafting.program, bind_eq_error] at hprogram
  rcases hprogram with hread | ⟨⟨⟩, draft, hread, hrest⟩
  · exact .inl ⟨after, hread⟩
  rcases bind_eq_error.mp hrest with hpatch | ⟨⟨⟩, mended, hpatch, hcomplete⟩
  · exact .inr ⟨draft, after, hread, hpatch⟩
  -- Behind a patch that ends well every instruction has its operands, and so has a word.
  have hgrows := Drafting.grows_of_forM_read (silent_blank ramSize) hread
  obtain ⟨hresolves, rfl⟩ :=
    (Drafting.patchAll_eq_ok hgrows.silent (kind_of_read hread)).mp hpatch
  rw [hgrows.ramSize, labels_of_read hread] at hresolves
  obtain ⟨words, hwords⟩ := exists_words_of_fulfils (fulfils_of_read hread hresolves)
  have hcomplete' : Drafting.complete (draft.mending draft.openOperands.toList) =
      .ok ⟨_, _, words⟩ (draft.mending draft.openOperands.toList) :=
    Drafting.complete_eq_ok.mpr ⟨⟨rfl, rfl, hwords⟩, rfl⟩
  rw [hcomplete'] at hcomplete
  cases hcomplete

/-- A source that does not assemble is at fault itself. -/
theorem isOfSource_of_assemble (h : assemble ramSize source = .error error) :
    error.cause.IsOfSource := by
  rcases cases_of_assemble_error h with ⟨after, hread⟩ | ⟨draft, after, -, hpatch⟩
  · have hblames : Drafting.Blames (·.cause.IsOfSource)
        ((statements source).forM Drafting.read) :=
      .forM fun statement _ _ _ _ herror =>
        (Drafting.blames_read statement _ _ _ herror).cause.source
    exact hblames _ _ _ hread
  · have hblames : Drafting.Blames (·.cause.IsOfSource)
        (draft.openOperands.toList.forM Drafting.patch) :=
      .forM fun opened _ _ _ _ herror => (Drafting.blames_patch opened _ _ _ herror).cause
    exact hblames _ _ _ hpatch

end Program

end WordMachine.Assembly
