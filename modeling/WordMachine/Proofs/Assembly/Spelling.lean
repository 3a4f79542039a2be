import Mathlib.Data.Nat.Digits.Defs
import WordMachine.Proofs.Assembly.Lexing
import WordMachine.Proofs.Assembly.Literal

/-! The spellings of literals. A literal is read exactly when it is spelled in one of five ways and
its value has at most sixty-four bits, and its value is that of its digits in their base. -/
namespace WordMachine.Assembly.Literal

/-- Some digits of a base, written with lower-case letters, and their positional value. -/
def IsNumeral (base : Nat) (text : List Char) (value : Nat) : Prop :=
  ∃ digits : List Nat, digits ≠ [] ∧ (∀ digit ∈ digits, digit < base) ∧
    text = digits.map Nat.digitChar ∧ value = Nat.ofDigits base digits.reverse

/-- The ways in which lower-case text spells a number. A zero that only `b` follows is the start of
a binary literal and not a marked one. -/
inductive Spells : List Char → Nat → Prop where
  | hexadecimal {digits : List Char} {value : Nat} (h : IsNumeral 16 digits value) :
      Spells ('0' :: 'x' :: digits) value
  | binary {digits : List Char} {value : Nat} (h : IsNumeral 2 digits value) :
      Spells ('0' :: 'b' :: digits) value
  | marked {digits : List Char} {value : Nat} (hzero : digits ≠ ['0'])
      (h : IsNumeral 2 digits value) : Spells (digits ++ ['b']) value
  | octal {digits : List Char} {value : Nat} (h : IsNumeral 8 digits value) :
      Spells ('0' :: digits) value
  | zero : Spells ['0'] 0
  | decimal {digits : List Char} {value : Nat} (hhead : digits.head? ≠ some '0')
      (h : IsNumeral 10 digits value) : Spells digits value

/-- A number printed in each of the five ways. The marked form of zero would be a binary literal
without digits. -/
def prints (value : Nat) : List (List Char) :=
  ['0' :: 'x' :: Nat.toDigits 16 value, '0' :: 'b' :: Nat.toDigits 2 value,
    '0' :: Nat.toDigits 8 value, Nat.toDigits 10 value] ++
  if value = 0 then [] else [Nat.toDigits 2 value ++ ['b']]

variable {base value : Nat} {text digits : List Char}

section Digits

private theorem ofNat_decimal : ∀ digit < 10, Char.ofNat (digit + 48) = digit.digitChar := by
  decide

private theorem ofNat_letter : ∀ digit < 6, Char.ofNat (digit + 97) = (digit + 10).digitChar := by
  decide

/-- A character that is read as a digit is the one that is written for it. -/
private theorem digitChar_of_digit? {c : Char} {digit : Nat} (h : digit? base c = some digit) :
    digit < base ∧ c = digit.digitChar := by
  obtain ⟨hvalue, hlt⟩ := Option.filter_eq_some_iff.mp h
  refine ⟨of_decide_eq_true hlt, ?_⟩
  split at hvalue
  next hdecimal =>
    have hfrom : 48 ≤ c.toNat := hdecimal.1
    have hto : c.toNat ≤ 57 := hdecimal.2
    cases hvalue
    change c = (c.toNat - 48).digitChar
    rw [← ofNat_decimal (c.toNat - 48) (by omega), Nat.sub_add_cancel hfrom, Char.ofNat_toNat]
  next =>
    split at hvalue
    next hletter =>
      have hfrom : 97 ≤ c.toNat := hletter.1
      have hto : c.toNat ≤ 102 := hletter.2
      cases hvalue
      change c = (c.toNat - 97 + 10).digitChar
      rw [← ofNat_letter (c.toNat - 97) (by omega), Nat.sub_add_cancel hfrom, Char.ofNat_toNat]
    next => exact nomatch hvalue

/-- Reading digits in front of which a value stands. -/
private theorem foldlM_digit?_iff (hle : base < 17) (start : Nat) :
    text.foldlM (fun value c => (digit? base c).map (base * value + ·)) start = some value ↔
      ∃ digits : List Nat, (∀ digit ∈ digits, digit < base) ∧
        text = digits.map Nat.digitChar ∧
        value = digits.foldl (fun value digit => base * value + digit) start := by
  induction text generalizing start with
  | nil =>
    constructor
    · intro h
      exact ⟨[], nofun, rfl, (Option.some.inj h).symm⟩
    · rintro ⟨digits, -, htext, rfl⟩
      rw [List.map_eq_nil_iff.mp htext.symm]
      rfl
  | cons c rest ih =>
    rw [List.foldlM_cons]
    constructor
    · intro h
      obtain ⟨next, hnext, hrest⟩ := Option.bind_eq_some_iff.mp h
      obtain ⟨digit, hdigit, rfl⟩ := Option.map_eq_some_iff.mp hnext
      obtain ⟨digits, hdigits, rfl, rfl⟩ := (ih _).mp hrest
      obtain ⟨hlt, rfl⟩ := digitChar_of_digit? hdigit
      exact ⟨digit :: digits, List.forall_mem_cons.mpr ⟨hlt, hdigits⟩, rfl, rfl⟩
    · rintro ⟨digits, hdigits, htext, rfl⟩
      cases digits with
      | nil => exact nomatch htext
      | cons digit digits =>
        obtain ⟨rfl, rfl⟩ := List.cons.inj htext
        obtain ⟨hlt, hdigits⟩ := List.forall_mem_cons.mp hdigits
        rw [digit?_digitChar base hle digit hlt]
        exact (ih _).mpr ⟨digits, hdigits, rfl, rfl⟩

private theorem foldl_eq_ofDigits (digits : List Nat) :
    digits.foldl (fun value digit => base * value + digit) 0 =
      Nat.ofDigits base digits.reverse := by
  rw [Nat.ofDigits_eq_foldr, List.foldr_reverse]
  refine congrArg (fun step => digits.foldl step 0) ?_
  funext value digit
  exact Nat.add_comm _ _

/-- What is read positionally is a numeral. -/
private theorem positional?_eq_some_iff (hle : base < 17) :
    positional? base text = some value ↔ IsNumeral base text value := by
  have hread : ∀ first rest, positional? base (first :: rest) =
      (first :: rest).foldlM (fun value c => (digit? base c).map (base * value + ·)) 0 :=
    fun _ _ => rfl
  constructor
  · intro h
    cases text with
    | nil => exact nomatch h
    | cons first rest =>
      rw [hread] at h
      obtain ⟨digits, hdigits, htext, rfl⟩ := (foldlM_digit?_iff hle 0).mp h
      have hne : digits ≠ [] := by
        rintro rfl
        exact nomatch htext
      exact ⟨digits, hne, hdigits, htext, foldl_eq_ofDigits digits⟩
  · rintro ⟨digits, hne, hdigits, rfl, rfl⟩
    cases digits with
    | nil => exact absurd rfl hne
    | cons first rest =>
      rw [List.map_cons, hread]
      exact (foldlM_digit?_iff hle 0).mpr
        ⟨first :: rest, hdigits, List.map_cons, (foldl_eq_ofDigits _).symm⟩

/-- A character that is no digit of a base stands in none of its numerals. -/
private theorem IsNumeral.not_mem (h : IsNumeral base text value) {c : Char}
    (hc : ∀ digit < base, c ≠ digit.digitChar) : c ∉ text := by
  obtain ⟨digits, -, hdigits, rfl, -⟩ := h
  intro hmem
  obtain ⟨digit, hdigit, rfl⟩ := List.mem_map.mp hmem
  exact hc digit (hdigits digit hdigit) rfl

private theorem IsNumeral.ne_nil (h : IsNumeral base text value) : text ≠ [] := by
  obtain ⟨digits, hne, -, rfl, -⟩ := h
  exact mt List.map_eq_nil_iff.mp hne

end Digits

section Split

/-- What the first characters and the last one tell of a literal. -/
private theorem cases_of_split? (h : split? text = some (base, digits)) :
    (base = 16 ∧ text = '0' :: 'x' :: digits) ∨ (base = 2 ∧ text = '0' :: 'b' :: digits) ∨
      (base = 2 ∧ digits ≠ ['0'] ∧ text = digits ++ ['b']) ∨
      (base = 8 ∧ text = '0' :: digits) ∨
      (base = 10 ∧ text = digits ∧ (digits = ['0'] ∨ digits.head? ≠ some '0')) := by
  unfold split? at h
  split at h
  next =>
    obtain ⟨rfl, rfl⟩ := Prod.mk.inj (Option.some.inj h)
    exact Or.inl ⟨rfl, rfl⟩
  next =>
    split at h
    next hletter =>
      split at h
      next =>
        obtain ⟨rfl, rfl⟩ := Prod.mk.inj (Option.some.inj h)
        exact Or.inr (Or.inl ⟨rfl, rfl⟩)
      next hfront =>
        obtain ⟨hlast, hpair⟩ := Option.ite_none_right_eq_some.mp h
        obtain ⟨rfl, rfl⟩ := Prod.mk.inj (Option.some.inj hpair)
        obtain ⟨digits, rfl⟩ := List.getLast?_eq_some_iff.mp hlast
        rw [List.dropLast_concat]
        refine Or.inr (Or.inr (Or.inl ⟨rfl, ?_, rfl⟩))
        rintro rfl
        exact hfront [] rfl
    next hletter =>
      split at h
      next =>
        obtain ⟨rfl, rfl⟩ := Prod.mk.inj (Option.some.inj h)
        exact Or.inr (Or.inr (Or.inr (Or.inl ⟨rfl, rfl⟩)))
      next hfront =>
        obtain ⟨rfl, rfl⟩ := Prod.mk.inj (Option.some.inj h)
        refine Or.inr (Or.inr (Or.inr (Or.inr ⟨rfl, rfl, ?_⟩)))
        -- A zero in front of other digits would have been the prefix of base eight.
        match text, hfront with
        | [], _ => exact Or.inr nofun
        | [c], _ =>
          by_cases hc : c = '0'
          · exact Or.inl (congrArg (fun c => [c]) hc)
          · exact Or.inr (fun hhead => hc (Option.some.inj hhead))
        | c :: next :: rest, hfront =>
          refine Or.inr fun hhead => ?_
          obtain rfl := Option.some.inj hhead
          exact hfront next rest rfl

/-- Of the text of a numeral without a prefix, a `b` at its end is the only one. -/
private theorem split?_marked (hzero : digits ≠ ['0']) (h : IsNumeral 2 digits value) :
    split? (digits ++ ['b']) = some (2, digits) := by
  have hx : 'x' ∉ digits := h.not_mem (by decide)
  have hb : 'b' ∉ digits := h.not_mem (by decide)
  unfold split?
  split
  next rest htext =>
    have hmem : 'x' ∈ digits ++ ['b'] := by
      rw [htext]
      exact List.mem_cons_of_mem _ List.mem_cons_self
    rcases List.mem_append.mp hmem with hdigits | hmark
    · exact absurd hdigits hx
    · exact absurd (List.mem_singleton.mp hmark) (by decide)
  next =>
    rw [if_pos (List.contains_iff_mem.mpr (List.mem_append_right _ (List.mem_singleton_self _)))]
    split
    next rest htext =>
      match digits, htext, hb, hzero with
      | [], htext, _, _ => exact absurd (List.cons.inj htext).1 (by decide)
      | [c], htext, _, hzero => exact absurd (congrArg (fun c => [c]) (List.cons.inj htext).1) hzero
      | c :: next :: more, htext, hb, _ =>
        have hnext : next = 'b' := (List.cons.inj (List.cons.inj htext).2).1
        exact absurd (List.mem_cons_of_mem c (hnext ▸ List.mem_cons_self)) hb
    next =>
      rw [List.getLast?_concat, if_pos rfl, List.dropLast_concat]

private theorem split?_octal (h : IsNumeral 8 digits value) :
    split? ('0' :: digits) = some (8, digits) := by
  have hx : 'x' ∉ digits := h.not_mem (by decide)
  have hb : ('0' :: digits).contains 'b' = false := by
    simpa using h.not_mem (by decide)
  cases digits with
  | nil => exact absurd rfl h.ne_nil
  | cons first rest =>
    unfold split?
    split
    next htext =>
      have hfirst : first = 'x' := (List.cons.inj (List.cons.inj htext).2).1
      exact absurd (hfirst ▸ List.mem_cons_self) hx
    next =>
      rw [hb, if_neg Bool.false_ne_true]
      rfl

/-- A spelling is taken apart into its base and its numeral. -/
private theorem Spells.exists_split? (h : Spells text value) :
    ∃ base digits, base < 17 ∧ split? text = some (base, digits) ∧
      IsNumeral base digits value := by
  cases h with
  | hexadecimal h => exact ⟨16, _, by decide, rfl, h⟩
  | binary h =>
    refine ⟨2, _, by decide, ?_, h⟩
    unfold split?
    rw [if_pos (List.contains_iff_mem.mpr (List.mem_cons_of_mem _ List.mem_cons_self))]
    rfl
  | marked hzero h => exact ⟨2, _, by decide, split?_marked hzero h, h⟩
  | octal h => exact ⟨8, _, by decide, split?_octal h, h⟩
  | zero => exact ⟨10, ['0'], by decide, rfl, [0], by decide, by decide, rfl, rfl⟩
  | decimal hhead h =>
    exact ⟨10, _, by decide, split?_of_head hhead (h.not_mem (by decide)), h⟩

private theorem Spells.of_split? (hsplit : split? text = some (base, digits))
    (h : positional? base digits = some value) : Spells text value := by
  rcases cases_of_split? hsplit with ⟨rfl, rfl⟩ | ⟨rfl, rfl⟩ | ⟨rfl, hzero, rfl⟩ | ⟨rfl, rfl⟩ |
    ⟨rfl, rfl, hzero | hhead⟩
  · exact .hexadecimal ((positional?_eq_some_iff (by decide)).mp h)
  · exact .binary ((positional?_eq_some_iff (by decide)).mp h)
  · exact .marked hzero ((positional?_eq_some_iff (by decide)).mp h)
  · exact .octal ((positional?_eq_some_iff (by decide)).mp h)
  · subst hzero
    obtain rfl : 0 = value := Option.some.inj h
    exact .zero
  · exact .decimal hhead ((positional?_eq_some_iff (by decide)).mp h)

end Split

/-- A literal is read as the number below the bound that it spells, if there is one. -/
private theorem parse?_eq_some_iff :
    parse? text = some value ↔ Spells (text.map Char.toLower) value ∧ value < bound := by
  unfold parse?
  constructor
  · intro h
    obtain ⟨⟨base, digits⟩, hsplit, hrest⟩ := Option.bind_eq_some_iff.mp h
    obtain ⟨read, hread, hbound⟩ := Option.bind_eq_some_iff.mp hrest
    obtain ⟨hlt, hvalue⟩ := Option.ite_none_right_eq_some.mp hbound
    obtain rfl := Option.some.inj hvalue
    exact ⟨.of_split? hsplit hread, hlt⟩
  · rintro ⟨hspells, hlt⟩
    obtain ⟨base, digits, hle, hsplit, hnumeral⟩ := hspells.exists_split?
    refine Option.bind_eq_some_iff.mpr ⟨(base, digits), hsplit, ?_⟩
    refine Option.bind_eq_some_iff.mpr ⟨value, (positional?_eq_some_iff hle).mpr hnumeral, ?_⟩
    exact if_pos hlt

private theorem IsNumeral.isWord (h : IsNumeral base text value) (hle : base ≤ 16) :
    IsWord text := by
  refine ⟨h.ne_nil, ?_⟩
  obtain ⟨digits, -, hdigits, rfl, -⟩ := h
  intro c hc
  obtain ⟨digit, hdigit, rfl⟩ := List.mem_map.mp hc
  exact (Text.digitChar_isAlphanum digit (Nat.lt_of_lt_of_le (hdigits digit hdigit) hle)).1

private theorem Spells.isWord (h : Spells text value) : IsWord text := by
  have hcons {c : Char} {text : List Char} (hc : c.isAlphanum = true) (htext : IsWord text) :
      IsWord (c :: text) :=
    ⟨nofun, List.forall_mem_cons.mpr ⟨hc, htext.2⟩⟩
  cases h with
  | hexadecimal h => exact hcons rfl (hcons rfl (h.isWord (by decide)))
  | binary h => exact hcons rfl (hcons rfl (h.isWord (by decide)))
  | marked hzero h =>
    refine ⟨List.append_ne_nil_of_right_ne_nil _ nofun, fun c hc => ?_⟩
    rcases List.mem_append.mp hc with hdigit | hmark
    · exact (h.isWord (by decide)).2 c hdigit
    · rw [List.mem_singleton.mp hmark]
      rfl
  | octal h => exact hcons rfl (h.isWord (by decide))
  | zero => exact ⟨nofun, List.forall_mem_singleton.mpr rfl⟩
  | decimal hhead h => exact h.isWord (by decide)

private theorem isAlphanum_of_toLower {c : Char} (h : c.toLower.isAlphanum = true) :
    c.isAlphanum = true := by
  by_cases hupper : c.isUpper = true
  · change (c.isUpper || c.isLower || c.isDigit) = true
    rw [hupper]
    rfl
  · have hsame : c.toLower = c := dif_neg fun hrange => hupper (decide_eq_true hrange)
    rwa [hsame] at h

/-- A literal consists of letters and digits. -/
theorem isWord_of_parse? (h : parse? text = some value) : IsWord text := by
  have hlower : IsWord (text.map Char.toLower) := (parse?_eq_some_iff.mp h).1.isWord
  refine ⟨fun hnil => hlower.1 (congrArg (List.map Char.toLower) hnil), fun c hc => ?_⟩
  exact isAlphanum_of_toLower (hlower.2 _ (List.mem_map_of_mem hc))

private theorem isNumeral_toDigits (hbase : 1 < base) (hle : base < 17) :
    IsNumeral base (Nat.toDigits base value) value :=
  (positional?_eq_some_iff hle).mp (positional?_toDigits hbase hle value)

/-- What is printed spells what it was printed from. -/
private theorem spells_of_mem_prints (h : text ∈ prints value) : Spells text value := by
  rcases List.mem_append.mp h with hplain | hmarked
  · obtain rfl | hplain := List.mem_cons.mp hplain
    · exact .hexadecimal (isNumeral_toDigits (by decide) (by decide))
    obtain rfl | hplain := List.mem_cons.mp hplain
    · exact .binary (isNumeral_toDigits (by decide) (by decide))
    obtain rfl | hplain := List.mem_cons.mp hplain
    · exact .octal (isNumeral_toDigits (by decide) (by decide))
    obtain rfl := List.mem_singleton.mp hplain
    by_cases hzero : value = 0
    · subst hzero
      exact .zero
    · exact .decimal (Text.head?_toDigits_ne_zero (by decide) hzero)
        (isNumeral_toDigits (by decide) (by decide))
  · split at hmarked
    next => exact absurd hmarked List.not_mem_nil
    next hzero =>
      obtain rfl := List.mem_singleton.mp hmarked
      have hhead : (Nat.toDigits 2 value).head? ≠ some '0' :=
        Text.head?_toDigits_ne_zero (by decide) hzero
      refine .marked ?_ (isNumeral_toDigits (by decide) (by decide))
      intro hdigits
      rw [hdigits] at hhead
      exact hhead rfl

/-- Literals are the spellings of the numbers below two to the sixty-fourth, in any case of their
letters, and each is read as the number that it spells. No other text is a literal, and a number
that is printed in any of the five ways is read back. -/
theorem parse?_spellings (text : List Char) :
    (∀ value, parse? text = some value ↔
      Spells (text.map Char.toLower) value ∧ value < 0x10000000000000000) ∧
    (parse? text = none ↔
      ∀ value, Spells (text.map Char.toLower) value → 0x10000000000000000 ≤ value) ∧
    ∀ value < 0x10000000000000000, text.map Char.toLower ∈ prints value →
      parse? text = some value := by
  refine ⟨fun value => parse?_eq_some_iff, ?_, ?_⟩
  · rw [Option.eq_none_iff_forall_ne_some]
    refine forall_congr' fun value => ?_
    rw [ne_eq, parse?_eq_some_iff, not_and, Nat.not_lt]
    rfl
  · intro value hlt hprints
    exact parse?_eq_some_iff.mpr ⟨spells_of_mem_prints hprints, hlt⟩

example : parse? "0XfF".toList = some 255 ∧ parse? "101B".toList = some 5 ∧
    parse? "0b".toList = none ∧ parse? "08".toList = none := by
  decide +kernel

end WordMachine.Assembly.Literal
