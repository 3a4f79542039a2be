import Mathlib.Data.List.TakeWhile
import WordMachine.Text.Blank

/-! Trimming drops blanks on either side, and leaves text as it is that begins and ends with a
letter or a digit. -/
namespace WordMachine.Text

/-- Text is blanks, its trimmed text and blanks. -/
theorem exists_eq_trim (text : List Char) : ∃ before after,
    (∀ c ∈ before ++ after, isBlank c = true) ∧ text = before ++ trim text ++ after := by
  have hblank (text : List Char) : ∀ c ∈ text.takeWhile isBlank, isBlank c = true :=
    List.all_eq_true.mp List.all_takeWhile
  have hstart (text : List Char) : text.takeWhile isBlank ++ trimStart text = text :=
    List.takeWhile_append_dropWhile
  let after := ((trimStart text).reverse.takeWhile isBlank).reverse
  have hend : trim text ++ after = trimStart text := by
    rw [trim, trimEnd, ← List.reverse_append, hstart, List.reverse_reverse]
  refine ⟨text.takeWhile isBlank, after, List.forall_mem_append.mpr ⟨hblank text, ?_⟩, ?_⟩
  · exact fun c hc => hblank _ c (List.mem_reverse.mp hc)
  · rw [List.append_assoc, hend, hstart]

theorem mem_of_mem_trim {text : List Char} {c : Char} (h : c ∈ trim text) : c ∈ text := by
  obtain ⟨before, after, -, htext⟩ := exists_eq_trim text
  rw [htext]
  exact List.mem_append_left _ (List.mem_append_right _ h)

private theorem isBlank_of_mem_head?_trimStart {text : List Char} {c : Char}
    (h : c ∈ (trimStart text).head?) : isBlank c = false := by
  have hhead := List.head?_dropWhile_not isBlank text
  rw [show (text.dropWhile isBlank).head? = some c from h] at hhead
  exact hhead

/-- Text that has been trimmed ends with no blank. -/
theorem isBlank_of_mem_getLast?_trim {text : List Char} {c : Char} (h : c ∈ (trim text).getLast?) :
    isBlank c = false := by
  rw [trim, trimEnd, List.getLast?_reverse] at h
  exact isBlank_of_mem_head?_trimStart h

/-- Text that has been trimmed begins with no blank. -/
theorem isBlank_of_mem_head?_trim {text : List Char} {c : Char} (h : c ∈ (trim text).head?) :
    isBlank c = false := by
  have hprefix : trim text <+: trimStart text := by
    rw [← List.reverse_suffix, trim, trimEnd, List.reverse_reverse]
    exact List.dropWhile_suffix _
  obtain ⟨behind, hstart⟩ := hprefix
  have hhead : c ∈ (trimStart text).head? := by
    rw [← hstart, List.head?_append, Option.mem_def.mp h]
    rfl
  exact isBlank_of_mem_head?_trimStart hhead

/-- Blanks behind a text make no difference to what is left of it. -/
theorem trim_append {text blanks : List Char} (h : ∀ c ∈ blanks, isBlank c = true) :
    trim (text ++ blanks) = trim text := by
  have hend (front : List Char) : trimEnd (front ++ blanks) = trimEnd front := by
    have hreverse : ∀ c ∈ blanks.reverse, isBlank c = true :=
      fun c hc => h c (List.mem_reverse.mp hc)
    rw [trimEnd, List.reverse_append, trimStart, List.dropWhile_append_of_pos hreverse]
    rfl
  unfold trim
  rw [trimStart, List.dropWhile_append, List.dropWhile_eq_nil_iff.mpr h]
  split
  next hnil => rw [trimStart, List.isEmpty_iff.mp hnil]
  next => exact hend _

/-- A letter or a digit is no blank. -/
theorem isBlank_of_isAlphanum {c : Char} (h : c.isAlphanum = true) : isBlank c = false := by
  change ((decide ('A'.val ≤ c.val ∧ c.val ≤ 'Z'.val) ||
    (decide ('a'.val ≤ c.val) && decide (c.val ≤ 'z'.val))) ||
    (decide ('0'.val ≤ c.val) && decide (c.val ≤ '9'.val))) = true at h
  simp only [Bool.or_eq_true, Bool.and_eq_true, decide_eq_true_eq, UInt32.le_iff_toNat_le] at h
  change ((65 ≤ c.toNat ∧ c.toNat ≤ 90) ∨ 97 ≤ c.toNat ∧ c.toNat ≤ 122) ∨
    48 ≤ c.toNat ∧ c.toNat ≤ 57 at h
  simp only [isBlank, blankRanges, List.any_cons, List.any_nil, Bool.or_false,
    Bool.or_eq_false_iff, Bool.and_eq_false_iff, decide_eq_false_iff_not]
  omega

structure Tidy (text : List Char) : Prop where
  first : ∃ first rest, text = first :: rest ∧ first.isAlphanum = true
  last : ∃ front last, text = front ++ [last] ∧ last.isAlphanum = true

namespace Tidy

variable {text other : List Char}

theorem append (h : Tidy text) (hother : Tidy other) (middle : List Char) :
    Tidy (text ++ (middle ++ other)) where
  first := by
    obtain ⟨first, rest, rfl, hfirst⟩ := h.first
    exact ⟨first, rest ++ (middle ++ other), rfl, hfirst⟩
  last := by
    obtain ⟨front, last, rfl, hlast⟩ := hother.last
    refine ⟨text ++ (middle ++ front), last, ?_, hlast⟩
    rw [List.append_assoc, List.append_assoc]

theorem ne_nil (h : Tidy text) : text ≠ [] := by
  obtain ⟨first, rest, rfl, -⟩ := h.first
  exact List.cons_ne_nil first rest

theorem trim_eq (h : Tidy text) : trim text = text := by
  have hstart : trimStart text = text := by
    obtain ⟨first, rest, rfl, hfirst⟩ := h.first
    rw [trimStart, List.dropWhile_cons, isBlank_of_isAlphanum hfirst, if_neg Bool.false_ne_true]
  obtain ⟨front, last, rfl, hlast⟩ := h.last
  rw [trim, hstart, trimEnd, List.reverse_append, List.reverse_singleton, List.singleton_append,
    trimStart, List.dropWhile_cons, isBlank_of_isAlphanum hlast, if_neg Bool.false_ne_true,
    List.reverse_cons, List.reverse_reverse]

theorem trim_blank_cons (h : Tidy text) : trim (' ' :: text) = text :=
  h.trim_eq

/-- Tidy texts with something in between. -/
theorem intercalate {separator : List Char} {texts : List (List Char)} (hne : texts ≠ [])
    (h : ∀ text ∈ texts, Tidy text) : Tidy (separator.intercalate texts) := by
  induction texts with
  | nil => exact absurd rfl hne
  | cons first rest ih =>
    obtain ⟨hfirst, hrest⟩ := List.forall_mem_cons.mp h
    cases rest with
    | nil =>
      rw [List.intercalate_singleton]
      exact hfirst
    | cons second rest =>
      rw [List.intercalate_cons_cons]
      have htail := hfirst.append (ih (List.cons_ne_nil _ _) hrest) separator
      rwa [← List.append_assoc] at htail

end Tidy

end WordMachine.Text
