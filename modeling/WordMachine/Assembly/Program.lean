import WordMachine.Assembly.Draft
import WordMachine.Isa.Image

/-! Assembled programs. -/
namespace WordMachine.Assembly

/-- The instructions of a source with all labels known, and their words. -/
structure Program where
  instructions : List Isa.Instruction
  /-- The labels in the order of declaration. -/
  labels : List Label
  words : List CodeWord
  deriving DecidableEq

namespace Program

def size (program : Program) : Nat :=
  program.instructions.length

def byteSize (program : Program) : Nat :=
  program.size * Isa.bytesPerInstruction

def image (program : Program) : List UInt8 :=
  Isa.Image.bytes program.words

def summary (program : Program) : String :=
  s!"{program.size} instructions, {program.byteSize} bytes"

end Program

namespace Drafting

def encode (placed : Placed) : Drafting CodeWord :=
  match placed.instruction.encode with
  | .ok word => pure word
  | .error error => fail placed.line (.unencodable error)

def complete : Drafting Program := do
  let draft ← get
  let placed := draft.placed.toList
  let words ← placed.mapM encode
  return { instructions := placed.map Placed.instruction, labels := draft.labels.toList, words }

def program (source : List Char) : Drafting Program := do
  (statements source).forM read
  patchAll
  complete

end Drafting

def assembleWith (threshold : Option Level) (ramSize : Nat) (source : List Char) :
    Except Error Program × Journal Event :=
  match Drafting.program source { ramSize, journal := { threshold } } with
  | .ok program draft => (.ok program, draft.journal)
  | .error error draft => (.error error, draft.journal)

/-- The program of a source whose address operands are all below `ramSize`, or the first error. -/
def assemble (ramSize : Nat) (source : List Char) : Except Error Program :=
  (assembleWith none ramSize source).1

end WordMachine.Assembly
