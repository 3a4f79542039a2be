import WordMachine.Machine.Bank

/-! What lies in a bank behind a load, and which loads fail. -/
namespace WordMachine.Machine.Bank

variable {α : Type} {bank loaded : Bank α} {words : Array α} {offset : Nat}

theorem load_eq_ok : load offset words bank = .ok () loaded ↔
    offset + words.size ≤ bank.size ∧ loaded = { bank with
      cells := bank.cells.extract 0 offset ++ words ++
        bank.cells.extract (offset + words.size) } := by
  unfold load
  dsimp only
  by_cases h : bank.size < offset + words.size
  · rw [if_pos h]
    exact ⟨nofun, fun hfits => absurd h (Nat.not_lt.mpr hfits.1)⟩
  · rw [if_neg h, EStateM.Result.ok.injEq]
    exact ⟨fun hload => ⟨Nat.not_lt.mp h, hload.2.symm⟩, fun hload => ⟨rfl, hload.2.symm⟩⟩

theorem load_of_lt (h : bank.size < offset + words.size) :
    load offset words bank = .error (bank.violation (offset + words.size - 1)) bank :=
  if_pos h

/-- A load replaces words and neither adds nor drops any. -/
theorem size_of_load (h : load offset words bank = .ok () loaded) : loaded.size = bank.size := by
  obtain ⟨hfits, rfl⟩ := load_eq_ok.mp h
  simp only [size, Array.size_append, Array.size_extract] at hfits ⊢
  omega

/-- The words that were loaded stand from the offset on. -/
theorem getElem?_of_load (h : load offset words bank = .ok () loaded) {index : Nat}
    (hindex : index < words.size) : loaded.cells[offset + index]? = words[index]? := by
  obtain ⟨hfits, rfl⟩ := load_eq_ok.mp h
  have hfront : (bank.cells.extract 0 offset).size = offset := by
    rw [Array.size_extract]
    simp only [size] at hfits
    omega
  rw [Array.append_assoc, Array.getElem?_append_right (by omega), hfront, Nat.add_sub_cancel_left,
    Array.getElem?_append_left hindex]

/-- The words in front of those that were loaded stay, and so do the words behind them. -/
theorem getElem?_of_load_of_outside (h : load offset words bank = .ok () loaded) {address : Nat}
    (haddress : address < offset ∨ offset + words.size ≤ address) :
    loaded.cells[address]? = bank.cells[address]? := by
  obtain ⟨hfits, rfl⟩ := load_eq_ok.mp h
  simp only [size] at hfits
  have hfront : (bank.cells.extract 0 offset).size = offset := by
    rw [Array.size_extract]
    omega
  rcases haddress with hlt | hle
  · have hcell : (bank.cells.extract 0 offset)[address]? = bank.cells[address]? := by
      rw [Array.getElem?_extract, if_pos (by omega), Nat.zero_add]
    rw [Array.append_assoc, Array.getElem?_append_left (by omega), hcell]
  · have hmiddle : (bank.cells.extract 0 offset ++ words).size = offset + words.size := by
      rw [Array.size_append, hfront]
    rw [Array.getElem?_append_right (by omega), hmiddle, Array.getElem?_extract,
      Nat.add_sub_cancel' hle]
    split
    next => rfl
    next houtside => rw [Array.getElem?_eq_none (by omega)]

end WordMachine.Machine.Bank
