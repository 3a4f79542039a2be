import Mathlib.Data.List.Forall2
import WordMachine.Proofs.Assembly.FirstPass

/-! Patching: an open operand that is patched later holds what it would have held if its label had
been known at once. -/
namespace WordMachine.Assembly

open Isa (Argument Entry Instruction Operand)

def labelsFrom (index : Nat) : List Statement → List Label
  | [] => []
  | statement :: rest =>
    statement.labels.map (Label.mk · index) ++
      labelsFrom (index + if statement.hasInstruction then 1 else 0) rest

theorem labelsFrom_append (index : Nat) (before after : List Statement) :
    labelsFrom index (before ++ after) = labelsFrom index before ++
      labelsFrom (index + before.countP Statement.hasInstruction) after := by
  induction before generalizing index with
  | nil => rfl
  | cons statement before ih =>
    rw [List.cons_append, labelsFrom, labelsFrom, ih, List.append_assoc, List.countP_cons,
      Nat.add_assoc, Nat.add_comm (List.countP ..)]

private theorem flatMap_zipIdx_eq_labelsFrom (before rest : List Statement) :
    (rest.zipIdx before.length).flatMap (fun (statement, position) =>
      statement.labels.map
        (Label.mk · (((before ++ rest).take position).countP Statement.hasInstruction))) =
    labelsFrom (before.countP Statement.hasInstruction) rest := by
  induction rest generalizing before with
  | nil => rfl
  | cons statement rest ih =>
    have ih := ih (before ++ [statement])
    rw [List.append_assoc, List.singleton_append, List.length_append, List.length_singleton] at ih
    rw [List.zipIdx_cons, List.flatMap_cons, labelsFrom, ih]
    dsimp only
    rw [List.take_left, List.countP_append, List.countP_singleton]

theorem labelTable_eq (source : List Char) :
    labelTable source = labelsFrom 0 (statements source) :=
  flatMap_zipIdx_eq_labelsFrom [] (statements source)

def Placeable (index : Nat) (statements : List Statement) : Prop :=
  index + statements.countP Statement.hasInstruction ≤ Isa.maxProgramLength ∧
    ∀ label ∈ labelsFrom index statements, label.index ≠ Isa.maxProgramLength

theorem placeable_cons {index : Nat} {statement : Statement} {rest : List Statement}
    (h : index ≤ Isa.maxProgramLength) :
    Placeable index (statement :: rest) ↔
      (statement.labels ≠ [] ∨ statement.hasInstruction → index < Isa.maxProgramLength) ∧
        Placeable (index + if statement.hasInstruction then 1 else 0) rest := by
  have hlabels : (∀ label ∈ statement.labels.map (Label.mk · index),
      label.index ≠ Isa.maxProgramLength) ↔
      (statement.labels ≠ [] → index ≠ Isa.maxProgramLength) := by
    rw [List.forall_mem_map]
    constructor
    · intro hall hne
      obtain ⟨name, hname⟩ := List.exists_mem_of_ne_nil _ hne
      exact hall name hname
    · intro hne name hname
      exact hne (List.ne_nil_of_mem hname)
  rw [Placeable, Placeable, labelsFrom, List.forall_mem_append, hlabels, List.countP_cons]
  by_cases hhas : statement.hasInstruction = true
  · simp only [hhas, if_true, or_true, forall_const]
    constructor
    · rintro ⟨hcount, -, hrest⟩
      exact ⟨by omega, by omega, hrest⟩
    · rintro ⟨hroom, hcount, hrest⟩
      exact ⟨by omega, fun _ => by omega, hrest⟩
  · simp only [hhas, Bool.false_eq_true, if_false, or_false]
    constructor
    · rintro ⟨hcount, hne, hrest⟩
      exact ⟨fun h => by have := hne h; omega, by omega, hrest⟩
    · rintro ⟨hroom, hcount, hrest⟩
      exact ⟨by omega, fun h => by have := hroom h; omega, hrest⟩

def OpenOperand.Resolves (ramSize : Nat) (labels : List Label) (opened : OpenOperand) : Prop :=
  ∃ target, index? labels opened.label = some target ∧
    (Argument.number target).Suits ramSize opened.operand

def OpenOperand.word (labels : List Label) (opened : OpenOperand) : Word :=
  .ofNat ((index? labels opened.label).getD 0)

def mend (labels : List Label) (instruction : Instruction) (opened : OpenOperand) : Instruction :=
  instruction.set opened.operand.field (opened.word labels)

def mendAt (labels : List Label) (placed : List Placed) (opened : OpenOperand) : List Placed :=
  placed.modify opened.index fun placed =>
    { placed with instruction := mend labels placed.instruction opened }

/-- Patches of one instruction leave all others alone. -/
theorem foldl_mendAt {labels : List Label} {front rest : List Placed} {placed : Placed}
    {opened : List OpenOperand} (h : ∀ one ∈ opened, one.index = front.length) :
    opened.foldl (mendAt labels) (front ++ placed :: rest) =
      front ++ { placed with
        instruction := opened.foldl (mend labels) placed.instruction } :: rest := by
  induction opened generalizing placed with
  | nil => rfl
  | cons one opened ih =>
    obtain ⟨hone, hrest⟩ := List.forall_mem_cons.mp h
    have hmend : mendAt labels (front ++ placed :: rest) one =
        front ++ { placed with instruction := mend labels placed.instruction one } :: rest := by
      rw [mendAt, hone, List.modify_eq_take_drop, List.take_left, List.drop_left]
      rfl
    rw [List.foldl_cons, hmend, ih hrest]
    rfl

/-- An operand text means the same with more labels, or it refers to a label that is missing. -/
private theorem pending?_cases (labels : List Label) (operand : Operand) (text : List Char) :
    (pending? labels operand text = none ∧
      ∀ later, argument? (labels ++ later) operand text = argument? labels operand text) ∨
    ∃ name, pending? labels operand text = some name ∧ operand.kind ≠ .register ∧
      index? labels name = none ∧
      ∀ labels, argument? labels operand text = (index? labels name).map .number := by
  by_cases hkind : operand.kind = .register
  · refine .inl ⟨if_pos hkind, fun later => ?_⟩
    rw [argument?, argument?, if_pos hkind, if_pos hkind]
  · cases hrefer : referredLabel? text with
    | none =>
      refine .inl ⟨?_, fun later => ?_⟩
      · rw [pending?, if_neg hkind, hrefer]
        rfl
      · rw [argument?, argument?, hrefer]
    | some name =>
      have hargument (labels : List Label) :
          argument? labels operand text = (index? labels name).map .number := by
        rw [argument?, if_neg hkind, hrefer]
      have hpending : pending? labels operand text =
          if (index? labels name).isNone then some name else none := by
        rw [pending?, if_neg hkind, hrefer, Option.filter_some]
      cases hindex : index? labels name with
      | none => exact .inr ⟨name, by rw [hpending, hindex]; rfl, hkind, hindex, hargument⟩
      | some target =>
        refine .inl ⟨by rw [hpending, hindex]; rfl, fun later => ?_⟩
        rw [hargument, hargument, hindex, index?_append_of_eq_some hindex]

namespace Draft

variable {draft : Draft} {labels later : List Label}

private theorem admits_iff (hlabels : labels = draft.labels.toList ++ later) (line index : Nat)
    {operand : Operand} {text : List Char} :
    (draft.Admits operand text ∧
      ∀ opened ∈ draft.opens line index operand text, opened.Resolves draft.ramSize labels) ↔
    ∃ argument, argument? labels operand text = some argument ∧
      argument.Suits draft.ramSize operand := by
  rw [Admits, opens]
  rcases pending?_cases draft.labels.toList operand text with
    ⟨hpending, hsame⟩ | ⟨name, hpending, hkind, -, hargument⟩
  · rw [hpending, hlabels, hsame]
    constructor
    · intro h
      exact h.1 rfl
    · intro h
      refine ⟨fun _ => h, ?_⟩
      intro opened hopened
      cases hopened
  · rw [hpending, hargument labels]
    simp only [Option.map_some, Option.toList_some, List.forall_mem_singleton,
      Option.map_eq_some_iff]
    constructor
    · rintro ⟨-, target, htarget, hsuits⟩
      exact ⟨_, ⟨target, htarget, rfl⟩, hsuits⟩
    · rintro ⟨_, ⟨target, htarget, rfl⟩, hsuits⟩
      refine ⟨?_, target, htarget, hsuits⟩
      intro hnone
      cases hnone

private theorem foldl_mend_opens (hlabels : labels = draft.labels.toList ++ later)
    (line index : Nat)
    {operand : Operand} {text : List Char} {argument : Argument}
    (hargument : argument? labels operand text = some argument) (instruction : Instruction) :
    (draft.opens line index operand text).foldl (mend labels)
      (instruction.set operand.field (draft.provisional operand text)) =
    instruction.set operand.field argument.word := by
  rw [opens, provisional]
  rcases pending?_cases draft.labels.toList operand text with
    ⟨hpending, hsame⟩ | ⟨name, hpending, -, -, hmeans⟩
  · rw [hlabels, hsame] at hargument
    rw [hpending, hargument]
    rfl
  · rw [hmeans, Option.map_eq_some_iff] at hargument
    obtain ⟨target, htarget, rfl⟩ := hargument
    have hword : OpenOperand.word labels ⟨index, operand, name, line⟩ =
        (Argument.number target).word := by
      rw [OpenOperand.word, htarget]
      rfl
    rw [hpending, Option.map_some, Option.toList_some, List.foldl_cons, List.foldl_nil, mend,
      Instruction.set_set, hword]

variable {statement : Statement} {entry : Entry}

theorem accepts_iff (hlabels : labels = draft.labels.toList ++ later) :
    (draft.Accepts statement entry ∧
      ∀ opened ∈ draft.opened statement entry, opened.Resolves draft.ramSize labels) ↔
    draft.placed.size < Isa.maxProgramLength ∧
      ∃ arguments, statement.Reads draft.ramSize labels entry arguments := by
  constructor
  · rintro ⟨⟨hselects, hroom, hadmits⟩, hresolves⟩
    refine ⟨hroom, ?_⟩
    obtain ⟨arguments, hmeans⟩ := exists_forall₂_iff.mpr fun operand hoperand =>
      (admits_iff hlabels statement.line draft.placed.size).mp ⟨hadmits operand hoperand,
        fun opened hopened => hresolves opened (List.mem_flatMap.mpr ⟨operand, hoperand, hopened⟩)⟩
    exact ⟨arguments, hselects, hmeans⟩
  · rintro ⟨hroom, arguments, hselects, hmeans⟩
    have hall (operand : Operand × List Char)
        (hoperand : operand ∈ entry.operands.zip statement.operands) :=
      (admits_iff hlabels statement.line draft.placed.size).mpr
        (exists_forall₂_iff.mp ⟨arguments, hmeans⟩ operand hoperand)
    refine ⟨⟨hselects, hroom, fun operand hoperand => (hall operand hoperand).1⟩, ?_⟩
    intro opened hopened
    obtain ⟨operand, hoperand, hmem⟩ := List.mem_flatMap.mp hopened
    exact (hall operand hoperand).2 opened hmem

/-- Once patched, the operands hold the words of their arguments. -/
private theorem foldl_mend_fill (hlabels : labels = draft.labels.toList ++ later) (line index : Nat)
    {operands : List (Operand × List Char)} {arguments : List Argument}
    (hmeans : List.Forall₂ (fun operand argument =>
      argument? labels operand.1 operand.2 = some argument) operands arguments)
    (hapart : operands.Pairwise fun a b => a.1.field.meets b.1.field = false)
    (instruction : Instruction) :
    (operands.flatMap fun operand => draft.opens line index operand.1 operand.2).foldl (mend labels)
      (instruction.fill (operands.map fun operand =>
        (operand.1, draft.provisional operand.1 operand.2))) =
    instruction.fill ((operands.map Prod.fst).zip (arguments.map Argument.word)) := by
  induction hmeans generalizing instruction with
  | nil => rfl
  | @cons operand argument operands arguments hmeans htail ih =>
    obtain ⟨operand, text⟩ := operand
    obtain ⟨hhead, htail⟩ := List.pairwise_cons.mp hapart
    have happly (values : List (Operand × Word)) 
        (h : ∀ value ∈ values, operand.field.meets value.1.field = false) : 
        (draft.opens line index operand text).foldl (mend labels)
          ((instruction.set operand.field (draft.provisional operand text)).fill values) =
        (instruction.set operand.field argument.word).fill values := by
      rw [Instruction.fill_set _ h, foldl_mend_opens hlabels line index hmeans,
        Instruction.fill_set _ h]
    rw [List.flatMap_cons, List.foldl_append, List.map_cons, List.map_cons, List.map_cons,
      List.zip_cons_cons, Instruction.fill_cons, Instruction.fill_cons, happly, ih htail]
    intro value hvalue
    obtain ⟨other, hother, rfl⟩ := List.mem_map.mp hvalue
    exact hhead other hother

theorem foldl_mend_built (hlabels : labels = draft.labels.toList ++ later)
    {arguments : List Argument} {ramSize : Nat}
    (hreads : statement.Reads ramSize labels entry arguments) :
    (draft.opened statement entry).foldl (mend labels) (draft.built statement entry) =
      entry.build (arguments.map Argument.word) := by
  have hfst : (entry.operands.zip statement.operands).map Prod.fst = entry.operands :=
    List.map_fst_zip (Nat.le_of_eq hreads.selects.count.symm)
  have hapart := Entry.fields_apart entry hreads.selects.listed
  rw [← hfst, List.pairwise_map] at hapart
  have hmeans := hreads.means.imp fun _ _ h => h.1
  rw [opened, built, foldl_mend_fill hlabels _ _ hmeans hapart, hfst, Entry.build]

end Draft

end WordMachine.Assembly
