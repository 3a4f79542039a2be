import WordMachine.Proofs.Assembly.TwoPass
import WordMachine.Proofs.Sequencing

/-! Reading statements into a draft: when each part of it succeeds, and with what draft. -/
namespace WordMachine.Assembly

open Isa (Argument Entry Instruction Operand)

theorem index?_eq_none {labels : List Label} {name : List Char} :
    index? labels name = none ↔ name ∉ labels.map Label.name := by
  simp only [index?, Option.map_eq_none_iff, List.find?_eq_none, beq_iff_eq, List.mem_map,
    not_exists, not_and]

/-- Later labels do not change what an index is. -/
theorem index?_append_of_eq_some {labels : List Label} {name : List Char} {index : Nat}
    (h : index? labels name = some index) (later : List Label) :
    index? (labels ++ later) name = some index := by
  obtain ⟨label, hlabel, hindex⟩ := Option.map_eq_some_iff.mp h
  rw [index?, List.find?_append, hlabel]
  exact congrArg some hindex

theorem checkArity_eq_ok {entry : Entry} {texts : List (List Char)} :
    checkArity entry texts = .ok () ↔
      texts.length = entry.operands.length ∧ ∀ text ∈ texts, text ≠ [] := by
  have hle : texts.countP (!·.isEmpty) ≤ texts.length := List.countP_le_length
  have hall : texts.countP (!·.isEmpty) = texts.length ↔ ∀ text ∈ texts, text ≠ [] := by
    rw [List.countP_eq_length]
    simp
  rw [checkArity, ← hall]
  split
  · exact ⟨nofun, by omega⟩
  · split
    · exact ⟨nofun, by omega⟩
    · exact ⟨fun _ => by omega, fun _ => rfl⟩

/-- A limit lets through what lies below it. -/
private theorem limit_eq_ok {value limit : Nat} {word : Word} :
    (if limit < value then .error (.tooLarge value limit) else .ok (.ofNat value) :
      Except Cause Word) = .ok word ↔ value ≤ limit ∧ word = (Argument.number value).word := by
  by_cases h : limit < value
  · rw [if_pos h]
    exact ⟨nofun, fun ⟨hle, _⟩ => absurd h (Nat.not_lt.mpr hle)⟩
  · rw [if_neg h, Except.ok.injEq]
    exact ⟨fun hword => ⟨Nat.not_lt.mp h, hword.symm⟩, fun ⟨_, hword⟩ => hword.symm⟩

theorem fit_eq_ok {ramSize value : Nat} {operand : Operand} {word : Word}
    (hkind : operand.kind ≠ .register) :
    fit ramSize operand value = .ok word ↔
      (Argument.number value).Suits ramSize operand ∧ word = (Argument.number value).word := by
  obtain ⟨kind, role, name⟩ := operand
  simp only [fit, Argument.Suits]
  cases kind with
  | register => exact absurd rfl hkind
  | port => simpa [Operand.limit?] using limit_eq_ok
  | immediate => simpa [Operand.limit?] using limit_eq_ok
  | address =>
    by_cases hram : ramSize ≤ value
    · simp [hram, Nat.not_lt.mpr hram]
    · have hlt : value < ramSize := Nat.lt_of_not_le hram
      simpa [Operand.limit?, hram, hlt] using limit_eq_ok

/-- Without a label, an operand text is evaluated to what it means under any labels. -/
private theorem evaluate_eq_ok {ramSize : Nat} {operand : Operand} {text : List Char} {word : Word}
    (hlabel : operand.kind = .register ∨ referredLabel? text = none) (labels : List Label) :
    evaluate ramSize operand text = .ok word ↔
      ∃ argument, argument? labels operand text = some argument ∧
        argument.Suits ramSize operand ∧ word = argument.word := by
  unfold evaluate argument?
  by_cases hkind : operand.kind = .register
  · rw [if_pos hkind, if_pos hkind]
    cases Isa.Register.ofName? text with
    | none => exact ⟨nofun, nofun⟩
    | some register =>
      rw [Except.ok.injEq]
      constructor
      · rintro rfl
        exact ⟨_, rfl, hkind, rfl⟩
      · rintro ⟨_, ⟨⟩, -, rfl⟩
        rfl
  · rw [if_neg hkind, if_neg hkind, hlabel.resolve_left hkind]
    cases Literal.parse? text with
    | none => exact ⟨nofun, nofun⟩
    | some value =>
      rw [fit_eq_ok hkind]
      constructor
      · rintro ⟨hsuits, hword⟩
        exact ⟨_, rfl, hsuits, hword⟩
      · rintro ⟨_, ⟨⟩, hsuits, hword⟩
        exact ⟨hsuits, hword⟩

/-- The label that an operand text waits for, if it refers to one that is not known. -/
def pending? (labels : List Label) (operand : Operand) (text : List Char) : Option (List Char) :=
  if operand.kind = .register then
    none
  else
    (referredLabel? text).filter fun name => (index? labels name).isNone

namespace Draft

def Silent (draft : Draft) : Prop :=
  draft.journal.threshold = none

theorem labelIndex?_eq (draft : Draft) (name : List Char) :
    draft.labelIndex? name = index? draft.labels.toList name := by
  rw [labelIndex?, index?, Array.find?_toList]

/-- Whether nothing is wrong with an operand text as far as the labels are known. -/
def Admits (draft : Draft) (operand : Operand) (text : List Char) : Prop :=
  pending? draft.labels.toList operand text = none →
    ∃ argument, argument? draft.labels.toList operand text = some argument ∧
      argument.Suits draft.ramSize operand

/-- The word that is stored for an operand text at first, zero where its label is not known. -/
def provisional (draft : Draft) (operand : Operand) (text : List Char) : Word :=
  ((argument? draft.labels.toList operand text).map Argument.word).getD 0

def opens (draft : Draft) (line index : Nat) (operand : Operand) (text : List Char) :
    List OpenOperand :=
  ((pending? draft.labels.toList operand text).map (⟨index, operand, ·, line⟩)).toList

def opening (draft : Draft) (opened : List OpenOperand) : Draft :=
  { draft with openOperands := draft.openOperands ++ opened }

private theorem opening_opening (draft : Draft) (opened later : List OpenOperand) :
    (draft.opening opened).opening later = draft.opening (opened ++ later) := by
  have h : draft.openOperands ++ opened ++ later = draft.openOperands ++ (opened ++ later) :=
    Array.ext' (by simp)
  simp only [opening, h]

end Draft

namespace Drafting

variable {draft draft' : Draft} {line index : Nat}

theorem note_silent (h : draft.Silent) (event : Event) : note event draft = .ok () draft := by
  have hnote : note event draft =
      .ok () { draft with journal := draft.journal.note event.level event } := rfl
  rw [hnote, Journal.note, Journal.admits, h]
  rfl

theorem orFail_eq_ok {α : Type} {result : Except Cause α} {value : α} :
    orFail line result draft = .ok value draft' ↔ result = .ok value ∧ draft' = draft := by
  cases result with
  | ok found =>
    have hrun : orFail line (.ok found) draft = .ok found draft := rfl
    rw [hrun, EStateM.Result.ok.injEq, Except.ok.injEq]
    exact ⟨fun ⟨hvalue, hdraft⟩ => ⟨hvalue, hdraft.symm⟩,
      fun ⟨hvalue, hdraft⟩ => ⟨hvalue, hdraft.symm⟩⟩
  | error cause => exact ⟨nofun, nofun⟩

/-- A check that stops the work if a condition holds. -/
private theorem check_eq_ok {α : Type} {condition : Prop} [Decidable condition] {cause : Cause}
    {rest : Unit → Drafting α} {value : α} :
    (if condition then fail line cause >>= rest else rest ()) draft = .ok value draft' ↔
      ¬ condition ∧ rest () draft = .ok value draft' := by
  by_cases h : condition
  · rw [if_pos h]
    exact ⟨nofun, fun hnot => absurd h hnot.1⟩
  · rw [if_neg h]
    exact ⟨fun hrest => ⟨h, hrest⟩, fun hrest => hrest.2⟩

theorem nextIndex_eq_ok : nextIndex line draft = .ok index draft' ↔
    draft.placed.size < Isa.maxProgramLength ∧ index = draft.placed.size ∧ draft' = draft := by
  have hpure : (pure draft.placed.size : Drafting Nat) draft = .ok index draft' ↔
      index = draft.placed.size ∧ draft' = draft := by
    refine Iff.trans (b := EStateM.Result.ok draft.placed.size draft = .ok index draft') Iff.rfl ?_
    rw [EStateM.Result.ok.injEq, eq_comm, eq_comm (a := draft)]
  rw [nextIndex, bind_of_ok (show (get : Drafting Draft) draft = .ok draft draft from rfl),
    check_eq_ok, hpure, Nat.not_le]

theorem declare_eq_ok (h : draft.Silent) {name : List Char} :
    declare line name draft = .ok () draft' ↔
      (isLabelName name ∧ name ∉ draft.labels.toList.map Label.name) ∧
        draft.placed.size < Isa.maxProgramLength ∧
        draft' = { draft with labels := draft.labels.push ⟨name, draft.placed.size⟩ } := by
  have hget : (get : Drafting Draft) draft = .ok draft draft := rfl
  have hfresh : ¬ (draft.labelIndex? name).isSome = true ↔
      name ∉ draft.labels.toList.map Label.name := by
    rw [Bool.not_eq_true, Option.isSome_eq_false_iff, Option.isNone_iff_eq_none,
      Draft.labelIndex?_eq, index?_eq_none]
  have hpush (index : Nat) : (note (.declared name index) >>= fun _ => modify fun draft =>
      { draft with labels := draft.labels.push ⟨name, index⟩ }) draft =
        .ok () { draft with labels := draft.labels.push ⟨name, index⟩ } := by
    rw [bind_of_ok (note_silent h _)]
    rfl
  rw [declare, check_eq_ok]
  dsimp only
  rw [bind_of_ok hget, check_eq_ok, hfresh, bind_eq_ok, Bool.not_eq_true', Bool.not_eq_false,
    and_assoc]
  refine and_congr_right' (and_congr_right' ?_)
  constructor
  · rintro ⟨index, middle, hindex, hrest⟩
    obtain ⟨hroom, rfl, rfl⟩ := nextIndex_eq_ok.mp hindex
    rw [hpush] at hrest
    exact ⟨hroom, (EStateM.Result.ok.inj hrest).2.symm⟩
  · rintro ⟨hroom, rfl⟩
    exact ⟨_, draft, nextIndex_eq_ok.mpr ⟨hroom, rfl, rfl⟩, hpush _⟩

private theorem refer_eq_ok (h : draft.Silent) {operand : Operand} {name : List Char} {word : Word}
    (hkind : operand.kind ≠ .register) :
    refer line index operand name draft = .ok word draft' ↔
      match index? draft.labels.toList name with
      | some target => ((Argument.number target).Suits draft.ramSize operand ∧
          word = (Argument.number target).word) ∧ draft' = draft
      | none => word = 0 ∧ draft' = draft.opening [⟨index, operand, name, line⟩] := by
  have hget : (get : Drafting Draft) draft = .ok draft draft := rfl
  rw [refer, bind_of_ok hget, Draft.labelIndex?_eq]
  cases index? draft.labels.toList name with
  | some target => exact orFail_eq_ok.trans (and_congr_left' (fit_eq_ok hkind))
  | none =>
    have hrun (event : Event) (opened : OpenOperand) : (do
        note event
        modify fun draft => { draft with openOperands := draft.openOperands.push opened }
        return 0 : Drafting Word) draft = .ok 0 (draft.opening [opened]) := by
      rw [bind_of_ok (note_silent h event), Draft.opening, Array.appendList_cons,
        Array.appendList_nil]
      rfl
    simp only [hrun, EStateM.Result.ok.injEq]
    rw [eq_comm, eq_comm (a := draft')]

/-- Where no label is missing, the word is that of the argument. -/
private theorem settled_iff {operand : Operand} {text : List Char} {word : Word}
    (hpending : pending? draft.labels.toList operand text = none) :
    (draft.Admits operand text ∧ word = draft.provisional operand text ∧
      draft' = draft.opening (draft.opens line index operand text)) ↔
    (∃ argument, argument? draft.labels.toList operand text = some argument ∧
      argument.Suits draft.ramSize operand ∧ word = argument.word) ∧ draft' = draft := by
  have hopens : draft.opening (draft.opens line index operand text) = draft := by
    rw [Draft.opens, hpending, Draft.opening]
    simp
  rw [hopens, Draft.Admits, Draft.provisional]
  constructor
  · rintro ⟨hadmits, rfl, rfl⟩
    obtain ⟨argument, hargument, hsuits⟩ := hadmits hpending
    exact ⟨⟨argument, hargument, hsuits, by rw [hargument]; rfl⟩, rfl⟩
  · rintro ⟨⟨argument, hargument, hsuits, rfl⟩, rfl⟩
    exact ⟨fun _ => ⟨argument, hargument, hsuits⟩, by rw [hargument]; rfl, rfl⟩

private theorem resolve_eq_ok (h : draft.Silent) {operand : Operand} {text : List Char}
    {word : Word} :
    resolve line index operand text draft = .ok word draft' ↔
      draft.Admits operand text ∧ word = draft.provisional operand text ∧
        draft' = draft.opening (draft.opens line index operand text) := by
  have hget : (get : Drafting Draft) draft = .ok draft draft := rfl
  -- Two branches evaluate the text, and neither of them leaves anything open.
  have hevaluate (hlabel : operand.kind = .register ∨ referredLabel? text = none)
      (hpending : pending? draft.labels.toList operand text = none) :
      (get >>= fun draft => orFail line (evaluate draft.ramSize operand text)) draft =
        .ok word draft' ↔
      draft.Admits operand text ∧ word = draft.provisional operand text ∧
        draft' = draft.opening (draft.opens line index operand text) := by
    rw [bind_of_ok hget, orFail_eq_ok, evaluate_eq_ok hlabel draft.labels.toList]
    exact (settled_iff hpending).symm
  rw [resolve]
  cases hrefer : referredLabel? text with
  | none =>
    apply hevaluate (.inr hrefer)
    rw [pending?, hrefer]
    exact ite_self _
  | some name =>
    by_cases hkind : operand.kind = .register
    · simp only [hkind, if_true]
      exact hevaluate (.inl hkind) (if_pos hkind)
    · simp only [hkind, if_false, refer_eq_ok h hkind]
      have hargument : argument? draft.labels.toList operand text =
          (index? draft.labels.toList name).map .number := by
        rw [argument?, if_neg hkind, hrefer]
      have hpending : pending? draft.labels.toList operand text =
          if (index? draft.labels.toList name).isNone then some name else none := by
        rw [pending?, if_neg hkind, hrefer, Option.filter_some]
      cases hindex : index? draft.labels.toList name with
      | none =>
        rw [hindex] at hargument hpending
        rw [Draft.opens, hpending, Draft.provisional, hargument, Draft.Admits, hpending]
        exact ⟨fun hword => ⟨nofun, hword⟩, fun hword => hword.2⟩
      | some target =>
        rw [hindex] at hargument hpending
        rw [settled_iff hpending, hargument]
        refine and_congr_left' ⟨fun hsuits => ⟨_, rfl, hsuits⟩, ?_⟩
        rintro ⟨_, ⟨⟩, hsuits⟩
        exact hsuits

theorem store_eq_ok (h : draft.Silent) {initial result : Instruction}
    {operands : List (Operand × List Char)} :
    store line index initial operands draft = .ok result draft' ↔
      (∀ operand ∈ operands, draft.Admits operand.1 operand.2) ∧
        result = initial.fill (operands.map fun operand =>
          (operand.1, draft.provisional operand.1 operand.2)) ∧
        draft' = draft.opening (operands.flatMap fun operand =>
          draft.opens line index operand.1 operand.2) := by
  induction operands generalizing initial draft with
  | nil =>
    have hrun : store line index initial [] draft = .ok initial draft := rfl
    simp only [hrun, EStateM.Result.ok.injEq, List.map_nil, Instruction.fill_nil, List.flatMap_nil,
      Draft.opening, Array.appendList_nil]
    exact ⟨fun ⟨hresult, hdraft⟩ => ⟨nofun, hresult.symm, hdraft.symm⟩,
      fun ⟨_, hresult, hdraft⟩ => ⟨hresult.symm, hdraft.symm⟩⟩
  | cons operand operands ih =>
    obtain ⟨operand, text⟩ := operand
    have hopened : (draft.opening (draft.opens line index operand text)).Silent := h
    rw [store, bind_eq_ok, List.forall_mem_cons, List.map_cons, Instruction.fill_cons,
      List.flatMap_cons, ← Draft.opening_opening]
    constructor
    · rintro ⟨word, middle, hresolve, hrest⟩
      obtain ⟨hadmits, rfl, rfl⟩ := (resolve_eq_ok h).mp hresolve
      obtain ⟨hall, hresult, hdraft⟩ := (ih hopened).mp hrest
      exact ⟨⟨hadmits, hall⟩, hresult, hdraft⟩
    · rintro ⟨⟨hadmits, hall⟩, hresult, hdraft⟩
      exact ⟨_, _, (resolve_eq_ok h).mpr ⟨hadmits, rfl, rfl⟩,
        (ih hopened).mpr ⟨hall, hresult, hdraft⟩⟩

end Drafting

end WordMachine.Assembly
