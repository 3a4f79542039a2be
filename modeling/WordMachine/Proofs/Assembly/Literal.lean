import WordMachine.Assembly.Literal
import WordMachine.Proofs.Text.Numeral

/-! Literals that are printed are read as the numbers that they stand for. -/
namespace WordMachine.Assembly.Literal

variable {base : Nat}

theorem digit?_digitChar : ∀ base < 17, ∀ digit < base,
    digit? base digit.digitChar = some digit := by
  decide +kernel

private theorem foldlM_toDigits (hbase : 1 < base) (hle : base < 17) (n : Nat) :
    (Nat.toDigits base n).foldlM (fun value c => (digit? base c).map (base * value + ·)) 0 =
      some n := by
  induction n using Nat.strongRecOn with
  | ind n ih =>
    rw [Nat.toDigits_eq_if hbase]
    split
    next hlt =>
      simp [digit?_digitChar base hle n hlt]
    next hge =>
      have hmod : n % base < base := Nat.mod_lt n (by omega)
      rw [List.foldlM_append, ih (n / base) (Nat.div_lt_self (by omega) hbase)]
      simp [digit?_digitChar base hle _ hmod, Nat.div_add_mod]

/-- The digits of a number have its value. -/
theorem positional?_toDigits (hbase : 1 < base) (hle : base < 17) (n : Nat) :
    positional? base (Nat.toDigits base n) = some n := by
  have hvalue := foldlM_toDigits hbase hle n
  cases hdigits : Nat.toDigits base n with
  | nil => exact absurd hdigits Nat.toDigits_ne_nil
  | cons first rest =>
    rw [hdigits] at hvalue
    exact hvalue

/-- Digits that begin with no zero and hold no `b` are decimal. -/
theorem split?_of_head {digits : List Char} (hzero : digits.head? ≠ some '0')
    (hletter : 'b' ∉ digits) : split? digits = some (10, digits) := by
  have hcontains : digits.contains 'b' = false := by
    simpa using hletter
  unfold split?
  split
  next => exact absurd rfl hzero
  next =>
    rw [hcontains, if_neg Bool.false_ne_true]
    split
    next => exact absurd rfl hzero
    next => rfl

variable {n : Nat}

theorem parse?_hexDigits (hn : n < bound) :
    parse? ("0x".toList ++ Text.hexDigits 1 n) = some n := by
  have hsplit : split? (("0x".toList ++ Text.hexDigits 1 n).map Char.toLower) =
      some (16, Nat.toDigits 16 n) := by
    rw [Text.hexDigits_one, List.map_append, Text.map_toLower_toDigits (by decide) (by decide)]
    rfl
  rw [parse?, hsplit]
  simp [positional?_toDigits, hn]

theorem parse?_decimalDigits (hn : n < bound) :
    parse? (Text.decimalDigits n) = some n := by
  have hsplit : split? ((Text.decimalDigits n).map Char.toLower) =
      some (10, Nat.toDigits 10 n) := by
    rw [Text.decimalDigits, Text.map_toLower_toDigits (by decide) (by decide)]
    by_cases hzero : n = 0
    · subst hzero
      rfl
    · refine split?_of_head (Text.head?_toDigits_ne_zero (by decide) hzero) ?_
      intro hletter
      obtain ⟨digit, hlt, hdigit⟩ := Text.exists_of_mem_toDigits (by decide) hletter
      exact absurd hdigit ((by decide : ∀ digit < 10, 'b' ≠ digit.digitChar) digit hlt)
  rw [parse?, hsplit]
  simp [positional?_toDigits, hn]

end WordMachine.Assembly.Literal
