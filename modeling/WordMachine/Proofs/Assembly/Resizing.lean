import WordMachine.Proofs.Assembly.Program

/-! What assembly makes of the size of data memory: with another size a source gives the same
program, unless one of its addresses lies between the two. -/
namespace WordMachine.Assembly

open Isa (Argument Entry Instruction Operand)

def Error.IsBetween (size other : Nat) (error : Error) : Prop :=
  ∃ address, error.cause = .outsideRam address other ∧ other ≤ address ∧ address < size

def Draft.resize (draft : Draft) (ramSize : Nat) : Draft :=
  { draft with ramSize }

variable {α β : Type} {size other : Nat}

/-- Whether an evaluation that succeeds for one size gives the same for another, or an address that
lies between them. -/
def Refits (size other : Nat) (result result' : Except Cause α) : Prop :=
  ∀ value, result = .ok value → result' = .ok value ∨
    ∃ address, result' = .error (.outsideRam address other) ∧ other ≤ address ∧ address < size

private theorem refits_self (result : Except Cause α) : Refits size other result result :=
  fun _ => .inl

private theorem refits_fit (operand : Operand) (value : Nat) :
    Refits size other (fit size operand value) (fit other operand value) := by
  intro word hfit
  unfold fit at hfit ⊢
  by_cases haddress : operand.kind = .address
  · simp only [haddress, true_and] at hfit ⊢
    have hlt : ¬ size ≤ value := fun hle => by
      rw [if_pos hle] at hfit
      cases hfit
    rw [if_neg hlt] at hfit
    by_cases hother : other ≤ value
    · rw [if_pos hother]
      exact .inr ⟨value, rfl, hother, Nat.not_le.mp hlt⟩
    · rw [if_neg hother]
      exact .inl hfit
  · simp only [haddress, false_and, if_false] at hfit ⊢
    exact .inl hfit

private theorem refits_evaluate (operand : Operand) (text : List Char) :
    Refits size other (evaluate size operand text) (evaluate other operand text) := by
  unfold evaluate
  by_cases hkind : operand.kind = .register
  · rw [if_pos hkind, if_pos hkind]
    exact refits_self _
  · rw [if_neg hkind, if_neg hkind]
    cases Literal.parse? text with
    | none => exact refits_self _
    | some value => exact refits_fit operand value

namespace Drafting

/-- Whether work that ends well for one size ends in the same for another, or in the error of an
address that lies between them. -/
def Resizes (size other : Nat) : EStateM.Result Error Draft α → EStateM.Result Error Draft α → Prop
  | .ok value draft, result => draft.ramSize = size ∧
    (result = .ok value (draft.resize other) ∨
      ∃ error after, result = .error error after ∧ error.IsBetween size other)
  | .error _ _, _ => True

/-- Whether work does not depend on the size of data memory but for addresses. -/
def Carries (size other : Nat) (work : Drafting α) : Prop :=
  ∀ draft, draft.ramSize = size → Resizes size other (work draft) (work (draft.resize other))

private theorem Resizes.bind {first first' : Drafting α} {rest : α → Drafting β}
    {draft draft' : Draft}
    (h : Resizes size other (first draft) (first' draft'))
    (hrest : ∀ value, Carries size other (rest value)) :
    Resizes size other ((first >>= rest) draft) ((first' >>= rest) draft') := by
  cases hfirst : first draft with
  | error error after =>
    rw [bind_of_error hfirst]
    trivial
  | ok value middle =>
    rw [hfirst] at h
    obtain ⟨hsize, hsame | ⟨error, after, herror, hbetween⟩⟩ := h
    · rw [bind_of_ok hfirst, bind_of_ok hsame]
      exact hrest value middle hsize
    · rw [bind_of_ok hfirst, bind_of_error herror]
      cases hdone : rest value middle with
      | error _ _ => trivial
      | ok result final =>
        have hfinal := hrest value middle hsize
        rw [hdone] at hfinal
        exact ⟨hfinal.1, .inr ⟨error, after, rfl, hbetween⟩⟩

private theorem Resizes.orFail {line : Nat} {result result' : Except Cause α} {draft : Draft}
    (h : Refits size other result result') (hsize : draft.ramSize = size) :
    Resizes size other (orFail line result draft) (orFail line result' (draft.resize other)) := by
  cases result with
  | error cause => trivial
  | ok value =>
    refine ⟨hsize, ?_⟩
    obtain rfl | ⟨address, rfl, hbetween⟩ := h value rfl
    · exact .inl rfl
    · exact .inr ⟨⟨line, .outsideRam address other⟩, _, rfl, address, rfl, hbetween⟩

namespace Carries

private theorem pure (value : α) : Carries size other (Pure.pure value) :=
  fun _ hsize => ⟨hsize, .inl rfl⟩

private theorem fail (line : Nat) (cause : Cause) :
    Carries size other (fail line cause : Drafting α) :=
  fun _ _ => trivial

/-- Changes of a draft that neither see nor change the size. -/
private theorem modify {change : Draft → Draft}
    (h : ∀ draft ramSize, change (draft.resize ramSize) = (change draft).resize ramSize) :
    Carries size other (modify change) := by
  intro draft hsize
  have hkept := congrArg Draft.ramSize (h draft draft.ramSize)
  refine ⟨hkept.trans hsize, .inl ?_⟩
  exact congrArg (EStateM.Result.ok ()) (h draft other)

private theorem note (event : Event) : Carries size other (note event) :=
  modify fun _ _ => rfl

private theorem bind {work : Drafting α} {rest : α → Drafting β} (h : Carries size other work)
    (hrest : ∀ value, Carries size other (rest value)) : Carries size other (work >>= rest) :=
  fun draft hsize => .bind (h draft hsize) hrest

/-- What goes on with the draft has to be looked at for both sizes. -/
private theorem get {rest : Draft → Drafting α}
    (h : ∀ draft, draft.ramSize = size →
      Resizes size other (rest draft draft) (rest (draft.resize other) (draft.resize other))) :
    Carries size other (MonadState.get >>= rest) := h

private theorem orFail (line : Nat) (result : Except Cause α) :
    Carries size other (orFail line result) :=
  fun _ hsize => .orFail (refits_self result) hsize

private theorem ite {condition : Prop} [Decidable condition] {work work' : Drafting α}
    (h : Carries size other work) (h' : Carries size other work') :
    Carries size other (if condition then work else work') := by
  split
  · exact h
  · exact h'

/-- A check that stops the work if a condition holds. -/
private theorem check {condition : Prop} [Decidable condition] {line : Nat} {cause : Cause}
    {rest : Unit → Drafting α} (h : Carries size other (rest ())) :
    Carries size other (if condition then Drafting.fail line cause >>= rest else rest ()) :=
  ite (bind (fail line cause) fun _ => h) h

private theorem forM {work : α → Drafting Unit} (h : ∀ value, Carries size other (work value))
    (values : List α) : Carries size other (values.forM work) := by
  induction values with
  | nil => exact pure ()
  | cons value values ih => exact bind (h value) fun _ => ih

private theorem mapM {work : α → Drafting β} (h : ∀ value, Carries size other (work value))
    (values : List α) : Carries size other (values.mapM work) := by
  induction values with
  | nil => exact pure []
  | cons value values ih =>
    rw [List.mapM_cons]
    exact bind (h value) fun _ => bind ih fun _ => pure _

end Carries

variable (line index : Nat)

private theorem carries_nextIndex : Carries size other (nextIndex line) :=
  .get fun draft => Carries.check (.pure draft.placed.size) draft

private theorem carries_declare (name : List Char) : Carries size other (declare line name) := by
  have hrest : Carries size other (nextIndex line >>= fun index => do
      note (.declared name index)
      modify fun draft => { draft with labels := draft.labels.push ⟨name, index⟩ }) :=
    .bind (carries_nextIndex line) fun index => .bind (.note _) fun _ => .modify fun _ _ => rfl
  unfold declare
  refine .check (.get fun draft => ?_)
  exact Carries.check hrest draft

private theorem carries_refer (operand : Operand) (name : List Char) :
    Carries size other (refer line index operand name) := by
  refine .get fun draft hsize => ?_
  have hlabel : (draft.resize other).labelIndex? name = draft.labelIndex? name := rfl
  rw [hlabel, hsize]
  cases draft.labelIndex? name with
  | some target => exact .orFail (refits_fit operand target) hsize
  | none =>
    exact Carries.bind (.note _) (fun _ => .bind (.modify fun _ _ => rfl) fun _ => .pure 0)
      draft hsize

private theorem carries_resolve (operand : Operand) (text : List Char) :
    Carries size other (resolve line index operand text) := by
  have hevaluate : Carries size other (MonadState.get >>= fun draft : Draft =>
      orFail line (evaluate draft.ramSize operand text)) := by
    refine .get fun draft hsize => ?_
    rw [hsize]
    exact .orFail (refits_evaluate operand text) hsize
  unfold resolve
  cases referredLabel? text with
  | none => exact hevaluate
  | some name => exact .ite hevaluate (carries_refer line index operand name)

private theorem carries_store (instruction : Instruction) (operands : List (Operand × List Char)) :
    Carries size other (store line index instruction operands) := by
  induction operands generalizing instruction with
  | nil => exact .pure _
  | cons operand operands ih => exact .bind (carries_resolve line index _ _) fun value => ih _

private theorem carries_instruction (statement : Statement) :
    Carries size other (instruction statement) := by
  unfold instruction
  cases Entry.ofMnemonic? statement.mnemonic with
  | none => exact .fail _ _
  | some entry =>
    refine .bind (.orFail _ _) fun _ => ?_
    exact .bind (carries_nextIndex _) fun index => carries_store _ index _ _

private theorem carries_read (statement : Statement) : Carries size other (read statement) := by
  refine .bind (.note _) fun _ => .bind (.forM (fun name => carries_declare _ name) _) fun _ => ?_
  refine .ite (.bind (carries_instruction statement) fun instruction => ?_) (.pure _)
  refine .get fun draft => ?_
  exact Carries.bind (.note _) (fun _ => .modify fun _ _ => rfl) draft

private theorem carries_patch (opened : OpenOperand) : Carries size other (patch opened) := by
  refine .get fun draft hsize => ?_
  have hlabel : (draft.resize other).labelIndex? opened.label = draft.labelIndex? opened.label :=
    rfl
  rw [hlabel, hsize]
  cases draft.labelIndex? opened.label with
  | none => exact Carries.fail opened.line (.labelUndefined opened.label) draft hsize
  | some target =>
    refine .bind (.orFail (refits_fit opened.operand target) hsize) fun value => ?_
    exact .bind (.note _) fun _ => .modify fun _ _ => rfl

private theorem carries_patchAll : Carries size other patchAll :=
  .get fun draft => Carries.forM carries_patch draft.openOperands.toList draft

private theorem carries_encode (placed : Placed) : Carries size other (encode placed) := by
  unfold encode
  cases placed.instruction.encode with
  | ok word => exact .pure word
  | error error => exact .fail _ _

private theorem carries_complete : Carries size other complete :=
  .get fun draft => (Carries.mapM carries_encode draft.placed.toList).bind (fun _ => .pure _) draft

/-- Assembly as a whole does not depend on the size of data memory but for addresses. -/
private theorem carries_program (source : List Char) : Carries size other (program source) :=
  .bind (.forM carries_read _) fun _ => .bind carries_patchAll fun _ => carries_complete

end Drafting

variable {source : List Char} {program : Program}

/-- What assembles for one size gives the same program for another, or an address of it lies between
the two. -/
theorem assemble_resize (other : Nat) (h : assemble size source = .ok program) :
    assemble other source = .ok program ∨
      ∃ error, assemble other source = .error error ∧ error.IsBetween size other := by
  obtain ⟨draft, hprogram⟩ := assemble_eq_ok.mp h
  have hresizes : Drafting.Resizes size other (Drafting.program source (.blank size))
      (Drafting.program source (.blank other)) :=
    Drafting.carries_program source (.blank size) rfl
  rw [hprogram] at hresizes
  obtain ⟨-, hsame | ⟨error, after, herror, hbetween⟩⟩ := hresizes
  · exact .inl (assemble_eq_ok.mpr ⟨_, hsame⟩)
  · exact .inr ⟨error, assemble_eq_error.mpr ⟨after, herror⟩, hbetween⟩

/-- More data memory is no harm. -/
theorem assemble_mono (hle : size ≤ other) (h : assemble size source = .ok program) :
    assemble other source = .ok program := by
  obtain hsame | ⟨_, -, _, -, hother, hlt⟩ := assemble_resize other h
  · exact hsame
  · omega

/-- Whether every address operand of a source, be it a number or a label, is below a size. -/
def AddressesBelow (size : Nat) (source : List Char) : Prop :=
  ∀ statement ∈ instructionStatements source, ∀ entry, statement.Selects entry →
    ∀ operand ∈ entry.operands.zip statement.operands, operand.1.kind = .address →
      ∀ value, argument? (labelTable source) operand.1 operand.2 = some (.number value) →
        value < size

theorem addressesBelow_of_assemble (h : assemble size source = .ok program) :
    AddressesBelow size source := by
  intro statement hstatement entry hselects operand hoperand haddress value hvalue
  obtain ⟨-, hreads⟩ := (exists_assemble_iff size source).mp ⟨program, h⟩
  obtain ⟨entry', arguments, hreads⟩ := hreads statement hstatement
  obtain rfl : entry = entry' := hselects.unique hreads.selects
  obtain ⟨argument, hargument, hsuits⟩ :=
    exists_forall₂_iff.mp ⟨arguments, hreads.means⟩ operand hoperand
  obtain rfl : .number value = argument := Option.some.inj (hvalue.symm.trans hargument)
  exact hsuits.2.1 haddress

/-- An argument suits an operand for another size too, if it is no address or a lower one. -/
private theorem suits_of_below {operand : Operand} {argument : Argument}
    (h : argument.Suits other operand)
    (hbelow : operand.kind = .address → ∀ value, argument = .number value → value < size) :
    argument.Suits size operand := by
  cases argument with
  | register rd => exact h
  | number value => exact ⟨h.1, fun haddress => hbelow haddress value rfl, h.2.2⟩

/-- Of a source that assembles for one size, another one has only to admit the addresses. -/
theorem assemble_iff_addressesBelow (h : assemble other source = .ok program) :
    assemble size source = .ok program ↔ AddressesBelow size source := by
  refine ⟨addressesBelow_of_assemble, fun hbelow => ?_⟩
  have hsucceeds : ∃ found, assemble size source = .ok found := by
    obtain ⟨hlabelled, hreads⟩ := (exists_assemble_iff other source).mp ⟨program, h⟩
    refine (exists_assemble_iff size source).mpr ⟨hlabelled, fun statement hstatement => ?_⟩
    obtain ⟨entry, arguments, hselects, hmeans⟩ := hreads statement hstatement
    have hall : ∀ operand ∈ entry.operands.zip statement.operands, ∃ argument,
        argument? (labelTable source) operand.1 operand.2 = some argument ∧
          argument.Suits size operand.1 := by
      intro operand hoperand
      obtain ⟨argument, hargument, hsuits⟩ :=
        exists_forall₂_iff.mp ⟨arguments, hmeans⟩ operand hoperand
      refine ⟨argument, hargument, suits_of_below hsuits fun haddress value hvalue => ?_⟩
      exact hbelow statement hstatement entry hselects operand hoperand haddress value
        (hvalue ▸ hargument)
    obtain ⟨arguments', hmeans'⟩ := exists_forall₂_iff.mpr hall
    exact ⟨entry, arguments', hselects, hmeans'⟩
  obtain ⟨found, hfound⟩ := hsucceeds
  obtain hsame | ⟨error, herror, -⟩ := assemble_resize size h
  · exact hsame
  · rw [hfound] at herror
    cases herror

end WordMachine.Assembly
