import WordMachine.Assembly.Evaluation
import WordMachine.Assembly.Event

/-! Drafts: a program while its statements are read. An instruction is placed at once; an operand
that refers to a label which is not declared yet stays open, and is patched when the whole source
has been read. -/
namespace WordMachine.Assembly

open Isa (Instruction Entry Operand)

/-- A name and the index of the instruction that follows its declaration. -/
structure Label where
  name : List Char
  index : Nat
  deriving DecidableEq

structure Placed where
  line : Nat
  instruction : Instruction
  deriving DecidableEq

/-- An operand that waits for its label. -/
structure OpenOperand where
  index : Nat
  operand : Operand
  label : List Char
  line : Nat
  deriving DecidableEq

structure Draft where
  /-- Address operands have to be below this. -/
  ramSize : Nat
  placed : Array Placed := #[]
  labels : Array Label := #[]
  openOperands : Array OpenOperand := #[]
  journal : Journal Event := {}

def Draft.labelIndex? (draft : Draft) (name : List Char) : Option Nat :=
  (draft.labels.find? fun label => label.name == name).map Label.index

/-- Drafting stops at the first error and keeps the draft as it was then. -/
abbrev Drafting := EStateM Error Draft

namespace Drafting

def fail {α : Type} (line : Nat) (cause : Cause) : Drafting α :=
  throw ⟨line, cause⟩

def orFail {α : Type} (line : Nat) : Except Cause α → Drafting α
  | .ok value => pure value
  | .error cause => fail line cause

def note (event : Event) : Drafting Unit :=
  modify fun draft => { draft with journal := draft.journal.note event.level event }

def nextIndex (line : Nat) : Drafting Nat := do
  let index := (← get).placed.size
  if Isa.maxProgramLength ≤ index then
    fail line (.tooLong Isa.maxProgramLength)
  return index

def declare (line : Nat) (name : List Char) : Drafting Unit := do
  if !isLabelName name then
    fail line (.badLabelName name)
  if ((← get).labelIndex? name).isSome then
    fail line (.labelRedefined name)
  let index ← nextIndex line
  note (.declared name index)
  modify fun draft => { draft with labels := draft.labels.push ⟨name, index⟩ }

/-- The value of a reference to a label: its index if it is declared, and otherwise zero until it
is patched. -/
def refer (line index : Nat) (operand : Operand) (name : List Char) : Drafting Word := do
  let draft ← get
  match draft.labelIndex? name with
  | some target => orFail line (fit draft.ramSize operand target)
  | none =>
    note (.deferred name index)
    modify fun draft =>
      { draft with openOperands := draft.openOperands.push ⟨index, operand, name, line⟩ }
    return 0

def resolve (line index : Nat) (operand : Operand) (text : List Char) : Drafting Word := do
  match referredLabel? text with
  | some name =>
    if operand.kind = .register then
      orFail line (evaluate (← get).ramSize operand text)
    else
      refer line index operand name
  | none => orFail line (evaluate (← get).ramSize operand text)

def store (line index : Nat) (instruction : Instruction) :
    List (Operand × List Char) → Drafting Instruction
  | [] => return instruction
  | (operand, text) :: rest => do
    let value ← resolve line index operand text
    store line index (instruction.set operand.field value) rest

def instruction (statement : Statement) : Drafting Instruction := do
  let line := statement.line
  let some entry := Entry.ofMnemonic? statement.mnemonic
    | fail line (.unknownInstruction statement.mnemonic)
  orFail line (checkArity entry statement.operands)
  let index ← nextIndex line
  store line index { opcode := entry.opcode } (entry.operands.zip statement.operands)

def place (line : Nat) (instruction : Instruction) : Drafting Unit := do
  note (.placed (← get).placed.size instruction)
  modify fun draft => { draft with placed := draft.placed.push ⟨line, instruction⟩ }

def read (statement : Statement) : Drafting Unit := do
  note (.reading statement)
  statement.labels.forM (declare statement.line)
  if !statement.body.isEmpty then
    place statement.line (← instruction statement)

def patch (opened : OpenOperand) : Drafting Unit := do
  let draft ← get
  let some target := draft.labelIndex? opened.label
    | fail opened.line (.labelUndefined opened.label)
  let value ← orFail opened.line (fit draft.ramSize opened.operand target)
  note (.patched opened.label value opened.index)
  modify fun draft => { draft with
    placed := draft.placed.modify opened.index fun placed =>
      { placed with instruction := placed.instruction.set opened.operand.field value } }

def patchAll : Drafting Unit := do
  (← get).openOperands.toList.forM patch

end Drafting

end WordMachine.Assembly
