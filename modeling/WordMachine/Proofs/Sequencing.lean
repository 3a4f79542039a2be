/-! Work in sequence that an error can end: the second part goes on where the first has ended. -/
namespace WordMachine

variable {ε σ α β : Type} {first : EStateM ε σ α} {rest : α → EStateM ε σ β} {s s' : σ}

theorem bind_of_ok {value : α} (h : first s = .ok value s') :
    (first >>= rest) s = rest value s' := by
  change EStateM.bind first rest s = _
  rw [EStateM.bind, h]

theorem bind_of_error {error : ε} (h : first s = .error error s') :
    (first >>= rest) s = .error error s' := by
  change EStateM.bind first rest s = _
  rw [EStateM.bind, h]

/-- What ends well has ended well in both parts. -/
theorem bind_eq_ok {result : β} :
    (first >>= rest) s = .ok result s' ↔
      ∃ value middle, first s = .ok value middle ∧ rest value middle = .ok result s' := by
  constructor
  · intro h
    cases hfirst : first s with
    | ok value middle =>
      rw [bind_of_ok hfirst] at h
      exact ⟨value, middle, rfl, h⟩
    | error error middle =>
      rw [bind_of_error hfirst] at h
      cases h
  · rintro ⟨value, middle, hfirst, hrest⟩
    rw [bind_of_ok hfirst, hrest]

/-- An error comes from the first part, or from the second behind a first that has ended well. -/
theorem bind_eq_error {error : ε} :
    (first >>= rest) s = .error error s' ↔ first s = .error error s' ∨
      ∃ value middle, first s = .ok value middle ∧ rest value middle = .error error s' := by
  cases hfirst : first s with
  | ok value middle =>
    rw [bind_of_ok hfirst]
    constructor
    · intro h
      exact .inr ⟨value, middle, rfl, h⟩
    · rintro (⟨⟨⟩⟩ | ⟨_, _, ⟨⟩, h⟩)
      exact h
  | error other middle =>
    rw [bind_of_error hfirst]
    constructor
    · rintro ⟨⟩
      exact .inl rfl
    · rintro (⟨⟨⟩⟩ | ⟨_, _, ⟨⟩, _⟩)
      rfl

theorem forM_nil_eq_ok {work : α → EStateM ε σ Unit} :
    ([] : List α).forM work s = .ok () s' ↔ s' = s := by
  change EStateM.Result.ok () s = .ok () s' ↔ _
  rw [EStateM.Result.ok.injEq, eq_comm (a := s)]
  exact and_iff_right rfl

theorem forM_cons_eq_ok {work : α → EStateM ε σ Unit} {value : α} {values : List α} :
    (value :: values).forM work s = .ok () s' ↔
      ∃ middle, work value s = .ok () middle ∧ values.forM work middle = .ok () s' := by
  change (work value >>= fun _ => values.forM work) s = .ok () s' ↔ _
  rw [bind_eq_ok]
  exact ⟨fun ⟨_, h⟩ => h, fun h => ⟨(), h⟩⟩

private theorem forM_cons_eq_error {work : α → EStateM ε σ Unit} {value : α} {values : List α}
    {error : ε} :
    (value :: values).forM work s = .error error s' ↔ work value s = .error error s' ∨
      ∃ middle, work value s = .ok () middle ∧ values.forM work middle = .error error s' := by
  change (work value >>= fun _ => values.forM work) s = .error error s' ↔ _
  rw [bind_eq_error]
  exact or_congr_right ⟨fun ⟨_, h⟩ => h, fun h => ⟨(), h⟩⟩

/-- Work on values in order ends in an error of the first value that has one. -/
theorem forM_eq_error {work : α → EStateM ε σ Unit} {values : List α} {error : ε} :
    values.forM work s = .error error s' ↔
      ∃ front value rest middle, values = front ++ value :: rest ∧
        front.forM work s = .ok () middle ∧ work value middle = .error error s' := by
  induction values generalizing s with
  | nil =>
    refine ⟨nofun, ?_⟩
    rintro ⟨front, value, rest, middle, hnil, -⟩
    exact absurd hnil.symm (List.append_ne_nil_of_right_ne_nil _ (List.cons_ne_nil _ _))
  | cons value values ih =>
    rw [forM_cons_eq_error]
    constructor
    · rintro (hvalue | ⟨middle, hvalue, hvalues⟩)
      · exact ⟨[], value, values, s, rfl, rfl, hvalue⟩
      · obtain ⟨front, other, rest, last, rfl, hfront, hother⟩ := ih.mp hvalues
        exact ⟨value :: front, other, rest, last, rfl,
          forM_cons_eq_ok.mpr ⟨middle, hvalue, hfront⟩, hother⟩
    · rintro ⟨front, other, rest, last, hvalues, hfront, hother⟩
      cases front with
      | nil =>
        obtain ⟨rfl, rfl⟩ := List.cons.inj hvalues
        rw [forM_nil_eq_ok.mp hfront] at hother
        exact .inl hother
      | cons first front =>
        obtain ⟨rfl, rfl⟩ := List.cons.inj hvalues
        obtain ⟨middle, hvalue, hrest⟩ := forM_cons_eq_ok.mp hfront
        exact .inr ⟨middle, hvalue, ih.mpr ⟨front, other, rest, last, rfl, hrest, hother⟩⟩

/-- Work on the front of a list ends well if work on all of it does. -/
theorem forM_front_eq_ok {work : α → EStateM ε σ Unit} {front rest : List α}
    (h : (front ++ rest).forM work s = .ok () s') :
    ∃ middle, front.forM work s = .ok () middle := by
  induction front generalizing s with
  | nil => exact ⟨s, rfl⟩
  | cons value front ih =>
    obtain ⟨middle, hvalue, hrest⟩ := forM_cons_eq_ok.mp h
    obtain ⟨last, hfront⟩ := ih hrest
    exact ⟨last, forM_cons_eq_ok.mpr ⟨middle, hvalue, hfront⟩⟩

section Outcome

variable {ε ε' α β : Type} {outcome : Except ε α} {rest : α → Except ε β} {value : α} {result : β}

theorem outcome_bind_eq_ok :
    (outcome >>= rest) = .ok result ↔ ∃ value, outcome = .ok value ∧ rest value = .ok result := by
  cases outcome with
  | error error => exact ⟨nofun, nofun⟩
  | ok value =>
    refine ⟨fun h => ⟨value, rfl, h⟩, ?_⟩
    rintro ⟨_, ⟨⟩, h⟩
    exact h

theorem mapError_eq_ok {f : ε → ε'} : outcome.mapError f = .ok value ↔ outcome = .ok value := by
  cases outcome with
  | error error => exact ⟨nofun, nofun⟩
  | ok _ => exact ⟨congrArg Except.ok ∘ Except.ok.inj, congrArg Except.ok ∘ Except.ok.inj⟩

end Outcome

end WordMachine
