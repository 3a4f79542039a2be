import WordMachine.Isa.Image

/-! Disassembly: an image is read one instruction at a time, and a listing gives each a line. -/
namespace WordMachine.Isa

inductive ReadError
  | atEnd | incomplete
  deriving DecidableEq

def ReadError.message : ReadError → String
  | atEnd => "<out of deassembler bounds>"
  | incomplete => "<incomplete instruction>"

abbrev Reading := Except ReadError Instruction

def Reading.text : Reading → List Char
  | .ok instruction => instruction.text
  | .error error => error.message.toList

namespace Listing

/-- Reads the next instruction and gives the bytes behind it. An incomplete instruction uses up
the bytes that are left. -/
def next : List UInt8 → Reading × List UInt8
  | [] => (.error .atEnd, [])
  | b₀ :: b₁ :: b₂ :: b₃ :: rest => (.ok (.decode (wordOfBytes b₀ b₁ b₂ b₃)), rest)
  | _ => (.error .incomplete, [])

/-- The readings until no byte is left, behind those in `done`, of which the last comes first. -/
def readingsOnto (done : List Reading) : List UInt8 → List Reading
  | [] => done.reverse
  | b₀ :: b₁ :: b₂ :: b₃ :: rest =>
    readingsOnto (.ok (.decode (wordOfBytes b₀ b₁ b₂ b₃)) :: done) rest
  | _ => (.error .incomplete :: done).reverse

def readings (image : List UInt8) : List Reading :=
  readingsOnto [] image

def instructions (image : List UInt8) : Except ReadError (List Instruction) :=
  (readings image).mapM id

def line (index : Nat) (reading : Reading) : List Char :=
  Text.hexDigits 4 index ++ "  ".toList ++ reading.text

def lines (image : List UInt8) : List (List Char) :=
  (readings image).mapIdx line

/-- The listing of an image. A partial word at the end has a marker for its text. -/
def text (image : List UInt8) : List Char :=
  (lines image).flatMap (· ++ ['\n'])

end Listing

end WordMachine.Isa
