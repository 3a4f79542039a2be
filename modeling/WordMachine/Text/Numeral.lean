/-! Numerals with a least width and text in columns. -/
namespace WordMachine.Text

/-- The lower-case hexadecimal digits of `n`, filled with zeros in front up to `width`. -/
def hexDigits (width n : Nat) : List Char :=
  (Nat.toDigits 16 n).leftpad width '0'

def binaryDigits (width n : Nat) : List Char :=
  (Nat.toDigits 2 n).leftpad width '0'

def decimalDigits (n : Nat) : List Char :=
  Nat.toDigits 10 n

def hex (width n : Nat) : String :=
  String.ofList (hexDigits width n)

def binary (width n : Nat) : String :=
  String.ofList (binaryDigits width n)

def atLeft (width : Nat) (text : String) : String :=
  String.ofList (text.toList.rightpad width ' ')

def atRight (width : Nat) (text : String) : String :=
  String.ofList (text.toList.leftpad width ' ')

end WordMachine.Text
