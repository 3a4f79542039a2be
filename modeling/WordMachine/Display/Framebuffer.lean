import WordMachine.Display.Channel
import WordMachine.Text.Numeral

/-! Framebuffers: the colors that a display shows, and their rendering as text. -/
namespace WordMachine.Display

/-- The color of each pixel, row by row, and the number of pixels that were set. -/
structure Framebuffer where
  colors : Vector UInt8 (width * height) := .replicate _ 0
  updates : Nat := 0
  deriving DecidableEq

namespace Framebuffer

def set (pixel : Pixel) (framebuffer : Framebuffer) : Framebuffer :=
  let row := pixel.y.toNat
  let column := pixel.x.toNat
  if h : row < height ∧ column < width then
    { colors := framebuffer.colors.set (width * row + column) pixel.color
        (by simp only [height, width] at h ⊢; omega)
      updates := framebuffer.updates + 1 }
  else
    framebuffer

def apply (framebuffer : Framebuffer) : List Message → Framebuffer
  | .pixel pixel :: rest => apply (framebuffer.set pixel) rest
  | .close :: _ | [] => framebuffer

def ofMessages (messages : List Message) : Framebuffer :=
  apply {} messages

/-- Black is a point. Every other color is the character that lies as far behind the digit zero,
its code being one byte. -/
def colorChar (color : UInt8) : Char :=
  if color = 0 then '.' else Char.ofNat ('0'.toUInt8 + color).toNat

def rowText (framebuffer : Framebuffer) (row : Nat) : String :=
  let colors := framebuffer.colors.toList.drop (width * row) |>.take width
  "  " ++ String.ofList (colors.map colorChar) ++ "\n"

def text (framebuffer : Framebuffer) : String :=
  s!"Display ({framebuffer.updates} updates)\n"
    ++ String.join ((List.range height).map framebuffer.rowText)

end Framebuffer

end WordMachine.Display
