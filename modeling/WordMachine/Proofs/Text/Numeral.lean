import WordMachine.Text.Numeral

/-! The digits of numerals: which characters they are, and that none but zero begins with a
zero. -/
namespace WordMachine.Text

variable {base : Nat}

/-- Numerals of a base have its digits. -/
theorem exists_of_mem_toDigits (hbase : 1 < base) {n : Nat} {c : Char}
    (h : c ∈ Nat.toDigits base n) : ∃ digit < base, c = digit.digitChar := by
  induction n using Nat.strongRecOn with
  | ind n ih =>
    rw [Nat.toDigits_eq_if hbase] at h
    split at h
    next hlt => exact ⟨n, hlt, List.mem_singleton.mp h⟩
    next hle =>
      rcases List.mem_append.mp h with hfront | hlast
      · exact ih (n / base) (Nat.div_lt_self (by omega) hbase) hfront
      · exact ⟨n % base, Nat.mod_lt n (by omega), List.mem_singleton.mp hlast⟩

theorem head?_toDigits_ne_zero (hbase : 1 < base) {n : Nat} (hn : n ≠ 0) :
    (Nat.toDigits base n).head? ≠ some '0' := by
  induction n using Nat.strongRecOn with
  | ind n ih =>
    rw [Nat.toDigits_eq_if hbase]
    split
    next hlt =>
      rw [List.head?_cons, ne_eq, Option.some.injEq, Nat.digitChar_eq_zero]
      exact hn
    next hle =>
      have hquotient : n / base ≠ 0 := Nat.div_ne_zero_iff.mpr ⟨by omega, by omega⟩
      have hhead := ih (n / base) (Nat.div_lt_self (by omega) hbase) hquotient
      cases hdigits : Nat.toDigits base (n / base) with
      | nil => exact absurd hdigits Nat.toDigits_ne_nil
      | cons first rest =>
        rw [hdigits] at hhead
        exact hhead

/-- The least width of one fills nothing. -/
theorem hexDigits_one (n : Nat) : hexDigits 1 n = Nat.toDigits 16 n := by
  have hpos : 0 < (Nat.toDigits 16 n).length := Nat.length_toDigits_pos
  rw [hexDigits, List.leftpad, Nat.sub_eq_zero_of_le hpos]
  rfl

/-- Digits of a base up to sixteen are lower-case letters and decimal digits. -/
theorem digitChar_isAlphanum : ∀ digit < 16, digit.digitChar.isAlphanum = true ∧
    digit.digitChar.toLower = digit.digitChar := by
  decide

theorem isAlphanum_of_mem_toDigits (hbase : 1 < base) (hle : base ≤ 16) {n : Nat} {c : Char}
    (h : c ∈ Nat.toDigits base n) : c.isAlphanum = true := by
  obtain ⟨digit, hdigit, rfl⟩ := exists_of_mem_toDigits hbase h
  exact (digitChar_isAlphanum digit (Nat.lt_of_lt_of_le hdigit hle)).1

/-- Filling with zeros adds digits. -/
theorem isAlphanum_of_mem_hexDigits {width n : Nat} {c : Char} (h : c ∈ hexDigits width n) :
    c.isAlphanum = true := by
  rcases List.mem_append.mp h with hfill | hdigit
  · rw [List.eq_of_mem_replicate hfill]
    rfl
  · exact isAlphanum_of_mem_toDigits (by decide) (by decide) hdigit

theorem map_toLower_toDigits (hbase : 1 < base) (hle : base ≤ 16) (n : Nat) :
    (Nat.toDigits base n).map Char.toLower = Nat.toDigits base n := by
  refine (List.map_congr_left ?_).trans (List.map_id _)
  intro c hc
  obtain ⟨digit, hdigit, rfl⟩ := exists_of_mem_toDigits hbase hc
  exact (digitChar_isAlphanum digit (Nat.lt_of_lt_of_le hdigit hle)).2

end WordMachine.Text
