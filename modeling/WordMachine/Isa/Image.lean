import WordMachine.Isa.Instruction

/-! Program images: the words of a program as bytes, low byte first. -/
namespace WordMachine.Isa

def wordOfBytes (b₀ b₁ b₂ b₃ : UInt8) : CodeWord :=
  .ofNat (b₀.toNat + 0x100 * b₁.toNat + 0x10000 * b₂.toNat + 0x1000000 * b₃.toNat)

def bytesOfWord (word : CodeWord) : List UInt8 :=
  [.ofNat (word.toNat % 0x100), .ofNat (word.toNat / 0x100 % 0x100),
   .ofNat (word.toNat / 0x10000 % 0x100), .ofNat (word.toNat / 0x1000000)]

namespace Image

inductive Error
  | misaligned (size : Nat)
  deriving DecidableEq

def Error.message : Error → String
  | misaligned size =>
    s!"Program is {size} bytes long, which isn't a whole number of 4-byte instructions"

def bytes (words : List CodeWord) : List UInt8 :=
  words.flatMap bytesOfWord

/-- The whole words of an image, behind those in `done`, of which the last comes first. -/
def wordsOnto (done : List CodeWord) : List UInt8 → List CodeWord
  | b₀ :: b₁ :: b₂ :: b₃ :: rest => wordsOnto (wordOfBytes b₀ b₁ b₂ b₃ :: done) rest
  | _ => done.reverse

def words (image : List UInt8) : Except Error (List CodeWord) :=
  if image.length % bytesPerInstruction = 0 then
    .ok (wordsOnto [] image)
  else
    .error (.misaligned image.length)

end Image

end WordMachine.Isa
