/-! Number literals of assembly text: hexadecimal after `0x`, binary after `0b` or before a final
`b`, octal after a zero and decimal otherwise. -/
namespace WordMachine.Assembly.Literal

def digit? (base : Nat) (c : Char) : Option Nat :=
  let value :=
    if '0' ≤ c ∧ c ≤ '9' then some (c.toNat - '0'.toNat)
    else if 'a' ≤ c ∧ c ≤ 'f' then some (c.toNat - 'a'.toNat + 10)
    else none
  value.filter (· < base)

/-- The positional value of digits in a base, of which there has to be one. -/
def positional? (base : Nat) : List Char → Option Nat
  | [] => none
  | digits => digits.foldlM (fun value c => (digit? base c).map (base * value + ·)) 0

/-- The base and the digits of a lower-case literal. Whatever holds a `b` and is not hexadecimal
can only be binary. -/
def split? (text : List Char) : Option (Nat × List Char) :=
  match text with
  | '0' :: 'x' :: digits => some (16, digits)
  | _ =>
    if text.contains 'b' then
      match text with
      | '0' :: 'b' :: digits => some (2, digits)
      | _ => if text.getLast? = some 'b' then some (2, text.dropLast) else none
    else
      match text with
      | '0' :: c :: digits => some (8, c :: digits)
      | _ => some (10, text)

def bound : Nat := 0x10000000000000000

def parse? (text : List Char) : Option Nat := do
  let (base, digits) ← split? (text.map Char.toLower)
  let value ← positional? base digits
  if value < bound then some value else none

end WordMachine.Assembly.Literal
