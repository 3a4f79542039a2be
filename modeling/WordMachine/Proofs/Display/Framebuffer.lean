import Mathlib.Data.List.Induction
import WordMachine.Display.Framebuffer

/-! What a framebuffer shows: at each place the color that was drawn there last. -/
namespace WordMachine.Display

namespace Pixel

def reduced (x y color : Nat) : Pixel :=
  ⟨.ofNat (x % 16), .ofNat (y % 16), .ofNat (color % 8)⟩

def ofPacked (value : Word) : Pixel :=
  reduced value.toNat (value.toNat / 16) (value.toNat / 256)

def Visible (pixel : Pixel) : Prop :=
  pixel.x.toNat < width ∧ pixel.y.toNat < height ∧ pixel.color.toNat < 8

def isAt (x y : Nat) (pixel : Pixel) : Bool :=
  pixel.x.toNat = x ∧ pixel.y.toNat = y

theorem visible_reduced (x y color : Nat) : (reduced x y color).Visible := by
  have hsmall {n size : Nat} (hpos : 0 < size) (hsize : size ≤ 16) :
      (UInt8.ofNat (n % size)).toNat < size := by
    have hlt := Nat.mod_lt n hpos
    rwa [UInt8.toNat_ofNat_of_lt' (by simp only [UInt8.size]; omega)]
  exact ⟨hsmall (by decide) (by decide), hsmall (by decide) (by decide),
    hsmall (by decide) (by decide)⟩

end Pixel

namespace Framebuffer

def draw (framebuffer : Framebuffer) (pixels : List Pixel) : Framebuffer :=
  pixels.foldl (fun framebuffer pixel => framebuffer.set pixel) framebuffer

variable {framebuffer : Framebuffer} {pixel : Pixel} {pixels : List Pixel} {x y : Nat}

private theorem apply_pixels (pixels : List Pixel) (rest : List Message)
    (framebuffer : Framebuffer) :
    framebuffer.apply (pixels.map .pixel ++ rest) = (framebuffer.draw pixels).apply rest := by
  induction pixels generalizing framebuffer with
  | nil => rfl
  | cons pixel pixels ih => exact ih (framebuffer.set pixel)

private theorem updates_set (h : pixel.Visible) :
    (framebuffer.set pixel).updates = framebuffer.updates + 1 := by
  rw [set, dif_pos ⟨h.2.1, h.1⟩]

/-- A pixel is seen where it lies, and nothing else changes. -/
private theorem getElem?_set (h : pixel.Visible) (hx : x < width) :
    (framebuffer.set pixel).colors[width * y + x]? =
      if pixel.isAt x y then some pixel.color else framebuffer.colors[width * y + x]? := by
  obtain ⟨hcolumn, hrow, -⟩ := h
  rw [set, dif_pos ⟨hrow, hcolumn⟩, Vector.getElem?_set]
  have hplace : width * pixel.y.toNat + pixel.x.toNat = width * y + x ↔
      pixel.x.toNat = x ∧ pixel.y.toNat = y := by
    unfold width at hcolumn hx ⊢
    omega
  simp only [hplace, Pixel.isAt, decide_eq_true_eq]

private theorem updates_draw (h : ∀ pixel ∈ pixels, pixel.Visible) :
    (framebuffer.draw pixels).updates = framebuffer.updates + pixels.length := by
  induction pixels generalizing framebuffer with
  | nil => rfl
  | cons pixel pixels ih =>
    have hrest :=
      @ih (framebuffer.set pixel) fun other hmem => h other (List.mem_cons_of_mem _ hmem)
    rw [updates_set (h pixel List.mem_cons_self)] at hrest
    rw [List.length_cons, Nat.add_comm pixels.length, ← Nat.add_assoc]
    exact hrest

/-- The last pixel that was drawn at a place is the one that is seen there. -/
private theorem getElem?_draw (h : ∀ pixel ∈ pixels, pixel.Visible) (hx : x < width) :
    (framebuffer.draw pixels).colors[width * y + x]? =
      ((pixels.filter (Pixel.isAt x y)).getLast?.map Pixel.color).or
        framebuffer.colors[width * y + x]? := by
  induction pixels using List.reverseRecOn with
  | nil => rfl
  | append_singleton pixels pixel ih =>
    have hearlier : ∀ other ∈ pixels, other.Visible := fun other hmem =>
      h other (List.mem_append_left _ hmem)
    rw [draw, List.foldl_append, List.filter_append]
    refine (getElem?_set (h pixel (by simp)) hx).trans ?_
    by_cases hat : pixel.isAt x y = true
    · rw [if_pos hat, List.filter_cons_of_pos hat, List.filter_nil, List.getLast?_concat]
      rfl
    · rw [if_neg hat, List.filter_cons_of_neg hat, List.filter_nil, List.append_nil, ← ih hearlier]
      rfl

/-- A fresh display that was told to draw pixels, and perhaps to close then, counts them and shows
at each place the color of the last one there, or black. -/
theorem ofMessages_pixels (h : ∀ pixel ∈ pixels, pixel.Visible) (closes : Bool) :
    let framebuffer := ofMessages (pixels.map .pixel ++ if closes then [.close] else [])
    framebuffer.updates = pixels.length ∧
      ∀ x y, x < width → y < height → framebuffer.colors[width * y + x]? =
        some (((pixels.filter (Pixel.isAt x y)).getLast?.map Pixel.color).getD 0) := by
  intro framebuffer
  have hframebuffer : framebuffer = draw {} pixels := by
    apply (apply_pixels _ _ _).trans
    cases closes <;> rfl
  rw [hframebuffer, updates_draw h]
  refine ⟨Nat.zero_add _, fun x y hx hy => ?_⟩
  have hblack : (Vector.replicate (width * height) (0 : UInt8))[width * y + x]? = some 0 := by
    rw [Vector.getElem?_replicate, if_pos]
    unfold width height at *
    omega
  rw [getElem?_draw h hx, hblack]
  cases (pixels.filter (Pixel.isAt x y)).getLast? <;> rfl

end Framebuffer

end WordMachine.Display
