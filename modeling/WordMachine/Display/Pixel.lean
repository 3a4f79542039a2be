import WordMachine.Isa.Word

/-! Pixels of the sixteen by sixteen display. -/
namespace WordMachine.Display

def width : Nat := 16

def height : Nat := 16

/-- A colored point. A color has one bit each for red, green and blue. -/
structure Pixel where
  x : UInt8
  y : UInt8
  color : UInt8
  deriving DecidableEq

/-- The point of two coordinates, of which the low four bits count, in a color, of which the low
three bits count. -/
def Pixel.of (x y color : Word) : Pixel :=
  ⟨.ofNat (x.toNat % 16), .ofNat (y.toNat % 16), .ofNat (color.toNat % 8)⟩

/-- The pixel in one word: from the low end four bits each for x and y and three for the color. -/
def Pixel.unpack (value : Word) : Pixel :=
  .of value (.ofNat (value.toNat / 16)) (.ofNat (value.toNat / 256))

end WordMachine.Display
