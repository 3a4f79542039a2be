import WordMachine.Assembly.Literal
import WordMachine.Machine.Bank
import WordMachine.Text.Blank

/-! Ranges of data memory, written as a start and a length, and their printing. -/
namespace WordMachine.CommandLine

structure RamRange where
  start : Nat
  length : Nat
  deriving DecidableEq

namespace RamRange

inductive Error
  | missingSeparator
  | malformedNumber (text : List Char)
  deriving DecidableEq

def Error.message : Error → String
  | missingSeparator => "Expected START:LEN"
  | malformedNumber text => s!"Malformed number \"{String.ofList text}\""

def number (text : List Char) : Except Error Nat :=
  match Assembly.Literal.parse? (Text.trim text) with
  | some value => .ok value
  | none => .error (.malformedNumber text)

/-- Reads a range, in which the first colon separates the start from the length. -/
def parse (text : List Char) : Except Error RamRange := do
  match text.dropWhile (· != ':') with
  | [] => throw .missingSeparator
  | _ :: length =>
    let start ← number (text.takeWhile (· != ':'))
    return ⟨start, ← number length⟩

def rows : List Word → List (List Word)
  | [] => []
  | w :: words => (w :: words.take 7) :: rows (words.drop 7)
termination_by words => words.length
decreasing_by simp +arith

def rowLine (start index : Nat) (words : List Word) : String :=
  "  " ++ Text.hex 4 (start + 8 * index) ++ ": "
    ++ " ".intercalate (words.map fun word => Text.hex 4 word.toNat) ++ "\n"

def text? (range : RamRange) (ram : Machine.Bank Word) : Option String :=
  (ram.slice? range.start range.length).map fun words =>
    "Memory\n" ++ String.join ((rows words).mapIdx (rowLine range.start))

end RamRange

end WordMachine.CommandLine
