/-! Text between separators: the parts hold all other characters in their order, there is one more
of them than there are separators, and what follows the text belongs to the last of them. -/
namespace WordMachine.Text

variable {separator : Char} {text : List Char}

/-- The characters of a part are characters of the text, and none is a separator. -/
theorem mem_and_ne_of_mem_splitOn {part : List Char} (hpart : part ∈ text.splitOn separator)
    {c : Char} (hc : c ∈ part) : c ∈ text ∧ c ≠ separator := by
  induction text generalizing part c with
  | nil =>
    rw [List.splitOn_nil, List.mem_singleton] at hpart
    rw [hpart] at hc
    cases hc
  | cons first rest ih =>
    rw [List.splitOn_cons_eq_if_modifyHead] at hpart
    split at hpart
    next =>
      rcases List.mem_cons.mp hpart with rfl | hlater
      · cases hc
      · exact (ih hlater hc).imp_left (List.mem_cons_of_mem _)
    next hfirst =>
      cases hsplit : rest.splitOn separator with
      | nil => exact absurd hsplit (List.splitOn_ne_nil _ _)
      | cons head parts =>
        rw [hsplit] at hpart ih
        rcases List.mem_cons.mp hpart with rfl | hlater
        · rcases List.mem_cons.mp hc with rfl | hc
          · exact ⟨List.mem_cons_self, fun hsame => hfirst (beq_iff_eq.mpr hsame)⟩
          · exact (ih List.mem_cons_self hc).imp_left (List.mem_cons_of_mem _)
        · exact (ih (List.mem_cons_of_mem _ hlater) hc).imp_left (List.mem_cons_of_mem _)

theorem separator_not_mem_of_mem_splitOn {part : List Char}
    (hpart : part ∈ text.splitOn separator) : separator ∉ part :=
  fun hmem => (mem_and_ne_of_mem_splitOn hpart hmem).2 rfl

theorem length_splitOn (separator : Char) (text : List Char) :
    (text.splitOn separator).length = text.count separator + 1 := by
  induction text with
  | nil => rw [List.splitOn_nil, List.length_singleton, List.count_nil]
  | cons c rest ih =>
    rw [List.splitOn_cons_eq_if_modifyHead, List.count_cons]
    split
    next => rw [List.length_cons, ih]
    next => rw [List.length_modifyHead, ih, Nat.add_zero]

/-- What is written behind a text without a separator belongs to its last part. -/
theorem exists_splitOn_append (separator : Char) (text : List Char) : ∃ front last,
    text.splitOn separator = front ++ [last] ∧ ∀ behind, separator ∉ behind →
      (text ++ behind).splitOn separator = front ++ [last ++ behind] := by
  suffices h : ∃ front last, ∀ behind, separator ∉ behind →
      (text ++ behind).splitOn separator = front ++ [last ++ behind] by
    obtain ⟨front, last, hsplit⟩ := h
    have hplain := hsplit [] List.not_mem_nil
    rw [List.append_nil, List.append_nil] at hplain
    exact ⟨front, last, hplain, hsplit⟩
  induction text with
  | nil => exact ⟨[], [], fun behind h => List.splitOn_eq_singleton h⟩
  | cons c rest ih =>
    obtain ⟨front, last, hsplit⟩ := ih
    by_cases hc : (c == separator) = true
    · refine ⟨[] :: front, last, fun behind h => ?_⟩
      rw [List.cons_append, List.splitOn_cons_eq_if_modifyHead, if_pos hc, hsplit behind h]
      rfl
    · cases front with
      | nil =>
        refine ⟨[], c :: last, fun behind h => ?_⟩
        rw [List.cons_append, List.splitOn_cons_eq_if_modifyHead, if_neg hc, hsplit behind h]
        rfl
      | cons head front =>
        refine ⟨(c :: head) :: front, last, fun behind h => ?_⟩
        rw [List.cons_append, List.splitOn_cons_eq_if_modifyHead, if_neg hc, hsplit behind h]
        rfl

/-- Splitting parts again at another character is splitting at either of the two. -/
theorem flatMap_splitOn (separator other : Char) (text : List Char) :
    (text.splitOn separator).flatMap (·.splitOn other) =
      text.splitOnP fun c => c == separator || c == other := by
  induction text with
  | nil => rfl
  | cons c rest ih =>
    rw [List.splitOn_cons_eq_if_modifyHead, List.splitOnP_cons_eq_if_modifyHead, ← ih]
    by_cases hc : (c == separator) = true
    · rw [if_pos hc, hc, Bool.true_or, if_pos rfl, List.flatMap_cons, List.splitOn_nil]
      rfl
    · rw [if_neg hc, Bool.eq_false_iff.mpr hc, Bool.false_or]
      cases hsplit : rest.splitOn separator with
      | nil => exact absurd hsplit (List.splitOn_ne_nil _ _)
      | cons head parts =>
        rw [List.modifyHead_cons, List.flatMap_cons, List.flatMap_cons,
          List.splitOn_cons_eq_if_modifyHead]
        split
        next => rfl
        next =>
          cases hhead : head.splitOn other with
          | nil => exact absurd hhead (List.splitOn_ne_nil _ _)
          | cons => rfl

/-- Renaming characters before or after the splitting is the same, if the separator keeps its name
and no other character takes it. -/
theorem splitOn_map {rename : Char → Char} (hrename : ∀ c, rename c = separator ↔ c = separator)
    (text : List Char) :
    (text.map rename).splitOn separator = (text.splitOn separator).map (List.map rename) := by
  induction text with
  | nil => rfl
  | cons c rest ih =>
    have hc : (rename c == separator) = (c == separator) :=
      Bool.eq_iff_iff.mpr (by rw [beq_iff_eq, beq_iff_eq, hrename])
    rw [List.map_cons, List.splitOn_cons_eq_if_modifyHead, List.splitOn_cons_eq_if_modifyHead, hc,
      ih]
    split
    next => rfl
    next => cases rest.splitOn separator <;> rfl

end WordMachine.Text
