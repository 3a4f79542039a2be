import WordMachine.Text.Blank

/-! Statements of assembly text. A `#` starts a comment that ends with the line, semicolons
separate the statements of a line, and blanks around a statement do not belong to it. -/
namespace WordMachine.Assembly

open Text (isBlank trim)

/-- A statement that is not blank, with the line it stands on, counted from one. -/
structure Statement where
  line : Nat
  text : List Char
  deriving DecidableEq

def code (line : List Char) : List Char :=
  line.takeWhile (· != '#')

def statementTexts (line : List Char) : List (List Char) :=
  (((code line).splitOn ';').map trim).filter (!·.isEmpty)

def statements (source : List Char) : List Statement :=
  ((source.splitOn '\n').zipIdx 1).flatMap fun (line, number) =>
    (statementTexts line).map (Statement.mk number)

/-- A letter or an underscore, and then letters, digits and underscores, all of them ASCII. -/
def isLabelName : List Char → Bool
  | [] => false
  | first :: rest =>
    (first.isAlpha || first == '_') && rest.all fun c => c.isAlphanum || c == '_'

def operandList : List Char → List (List Char)
  | [] => []
  | text => (text.splitOn ',').map trim

def referredLabel? : List Char → Option (List Char)
  | '[' :: rest => if rest.getLast? = some ']' then some (trim rest.dropLast) else none
  | _ => none

namespace Statement

def parts (statement : Statement) : List (List Char) :=
  (statement.text.splitOn ':').map trim

/-- The names that the statement declares as labels: every part in front of a colon. -/
def labels (statement : Statement) : List (List Char) :=
  statement.parts.dropLast

def body (statement : Statement) : List Char :=
  statement.parts.getLastD []

def mnemonic (statement : Statement) : List Char :=
  statement.body.takeWhile (!isBlank ·)

def operands (statement : Statement) : List (List Char) :=
  operandList (trim (statement.body.dropWhile (!isBlank ·)))

end Statement

end WordMachine.Assembly
