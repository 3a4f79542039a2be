import WordMachine.Assembly.Statement
import WordMachine.Isa.Instruction
import WordMachine.Journal

/-! What assembly reports while it runs. -/
namespace WordMachine.Assembly

inductive Event
  | reading (statement : Statement)
  | declared (label : List Char) (index : Nat)
  /-- The instruction at the index refers to a label that is not known yet. -/
  | deferred (label : List Char) (index : Nat)
  | placed (index : Nat) (instruction : Isa.Instruction)
  | patched (label : List Char) (value : Word) (index : Nat)
  deriving DecidableEq

namespace Event

def level : Event → Level := fun _ => .debug

def message : Event → String
  | reading statement => s!"Line {statement.line}: {String.ofList statement.text}"
  | declared label index => s!"  Label {String.ofList label} = {Text.hex 4 index}"
  | deferred label index => s!"  Fixup for {String.ofList label} at {Text.hex 4 index}"
  | placed index instruction => s!"  {Text.hex 4 index}: {String.ofList instruction.text}"
  | patched label value index =>
    s!"Patched {String.ofList label} = {Text.hex 4 value.toNat} into {Text.hex 4 index}"

end Event

end WordMachine.Assembly
