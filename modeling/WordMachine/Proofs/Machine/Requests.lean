import WordMachine.Proofs.Machine.Bank
import WordMachine.Proofs.Sequencing

/-! A bank is a bounded map. Requests are carried out as a whole or not at all, and behind any of
them a word is the last one that was stored at its address. -/
namespace WordMachine.Machine.Bank

inductive Request (α : Type)
  | read (address : Nat)
  | write (address : Nat) (value : α)
  | load (offset : Nat) (words : Array α)

/-- Whether a bank has become another one by words that replace its own from an offset on. -/
structure Replaces {α : Type} (bank after : Bank α) (offset : Nat) (words : Array α) : Prop where
  name : after.name = bank.name
  size : after.size = bank.size
  covered : ∀ index < words.size, after.cells[offset + index]? = words[index]?
  kept : ∀ address, address < offset ∨ offset + words.size ≤ address →
    after.cells[address]? = bank.cells[address]?

variable {α : Type}

namespace Request

def perform : Request α → Access α (Option α)
  | read address => fun bank =>
    match bank.read address with
    | .ok value => .ok (some value) bank
    | .error violation => .error violation bank
  | write address value => do
    Bank.write address value
    return none
  | load offset words => do
    Bank.load offset words
    return none

def offset : Request α → Nat
  | read address | write address _ => address
  | load offset _ => offset

def words : Request α → Array α
  | read _ => #[]
  | write _ value => #[value]
  | load _ words => words

/-- The word that a request stores at an address, if it covers the address. -/
def word? (request : Request α) (address : Nat) : Option α :=
  if request.offset ≤ address then request.words[address - request.offset]? else none

end Request

/-- The word that was stored last at an address, by requests of which the last comes first. -/
def latest (zero : α) (done : List (Request α)) (address : Nat) : α :=
  (done.findSome? (·.word? address)).getD zero

def attempt (served : Bank α × List (Request α)) (request : Request α) :
    Bank α × List (Request α) :=
  match request.perform served.1 with
  | .ok _ after => (after, request :: served.2)
  | .error _ after => (after, served.2)

/-- A bank behind requests, with those that have succeeded, of which the last comes first. -/
def serve (bank : Bank α) (requests : List (Request α)) : Bank α × List (Request α) :=
  requests.foldl attempt (bank, [])

structure Holds (name : BankName) (size : Nat) (zero : α)
    (served : Bank α × List (Request α)) : Prop where
  named : served.1.name = name
  sized : served.1.size = size
  word : ∀ address < size, served.1.cells[address]? = some (latest zero served.2 address)

section Outcome

variable {bank after : Bank α} {offset : Nat} {words : Array α}

private theorem replaces_nothing (bank : Bank α) (offset : Nat) : bank.Replaces bank offset #[] :=
  ⟨rfl, rfl, fun _ h => absurd h (Nat.not_lt_zero _), fun _ _ => rfl⟩

private theorem replaces_of_write {address : Nat} {value : α}
    (h : write address value bank = .ok () after) : bank.Replaces after address #[value] := by
  by_cases hlt : address < bank.size
  · rw [write_of_lt bank hlt] at h
    obtain ⟨-, rfl⟩ := EStateM.Result.ok.inj h
    refine ⟨rfl, Array.size_set hlt, fun index hindex => ?_, fun other hother => ?_⟩
    · obtain rfl : index = 0 := Nat.lt_one_iff.mp hindex
      exact Array.getElem?_set_self hlt
    · rw [List.size_toArray, List.length_singleton] at hother
      exact Array.getElem?_set_ne hlt (by omega)
  · rw [write_of_le bank (Nat.not_lt.mp hlt)] at h
    cases h

private theorem replaces_of_load (h : load offset words bank = .ok () after) :
    bank.Replaces after offset words where
  name := by
    obtain ⟨-, rfl⟩ := load_eq_ok.mp h
    rfl
  size := size_of_load h
  covered := fun _ hindex => getElem?_of_load h hindex
  kept := fun _ haddress => getElem?_of_load_of_outside h haddress

/-- A word is the one that has replaced it, if there is one. -/
private theorem Replaces.getElem? (h : bank.Replaces after offset words) (address : Nat) :
    after.cells[address]? =
      (if offset ≤ address then words[address - offset]? else none).or bank.cells[address]? := by
  by_cases hcovered : offset ≤ address ∧ address - offset < words.size
  · obtain ⟨hle, hlt⟩ := hcovered
    have hword := h.covered (address - offset) hlt
    rw [Nat.add_sub_cancel' hle] at hword
    rw [if_pos hle, hword, Array.getElem?_eq_getElem hlt]
    rfl
  · have hnone : (if offset ≤ address then words[address - offset]? else none) = none := by
      rw [ite_eq_right_iff]
      exact fun hle => Array.getElem?_eq_none (Nat.not_lt.mp fun hlt => hcovered ⟨hle, hlt⟩)
    rw [hnone, Option.none_or]
    exact h.kept address (by omega)

/-- A request that succeeds replaces the words that it stores. -/
private theorem replaces_of_perform {request : Request α} {delivered : Option α}
    (h : request.perform bank = .ok delivered after) :
    bank.Replaces after request.offset request.words := by
  cases request with
  | read address =>
    dsimp only [Request.perform] at h
    split at h
    next =>
      obtain ⟨-, rfl⟩ := EStateM.Result.ok.inj h
      exact replaces_nothing bank address
    next => cases h
  | write address value =>
    obtain ⟨⟨⟩, middle, hwrite, hreturn⟩ := bind_eq_ok.mp h
    obtain ⟨-, rfl⟩ := EStateM.Result.ok.inj hreturn
    exact replaces_of_write hwrite
  | load offset words =>
    obtain ⟨⟨⟩, middle, hload, hreturn⟩ := bind_eq_ok.mp h
    obtain ⟨-, rfl⟩ := EStateM.Result.ok.inj hreturn
    exact replaces_of_load hload

private theorem eq_of_write_eq_error {address : Nat} {value : α} {violation : Violation}
    (h : write address value bank = .error violation after) : after = bank := by
  by_cases hlt : address < bank.size
  · rw [write_of_lt bank hlt] at h
    cases h
  · rw [write_of_le bank (Nat.not_lt.mp hlt)] at h
    exact (EStateM.Result.error.inj h).2.symm

private theorem eq_of_load_eq_error {violation : Violation}
    (h : load offset words bank = .error violation after) : after = bank := by
  by_cases hlt : bank.size < offset + words.size
  · rw [load_of_lt hlt] at h
    exact (EStateM.Result.error.inj h).2.symm
  · rw [load_eq_ok.mpr ⟨Nat.not_lt.mp hlt, rfl⟩] at h
    cases h

/-- A request that fails leaves the bank alone. -/
private theorem eq_of_perform_eq_error {request : Request α} {violation : Violation}
    (h : request.perform bank = .error violation after) : after = bank := by
  cases request with
  | read address =>
    dsimp only [Request.perform] at h
    split at h
    next => cases h
    next => exact (EStateM.Result.error.inj h).2.symm
  | write address value =>
    rcases bind_eq_error.mp h with hwrite | ⟨_, _, -, hreturn⟩
    · exact eq_of_write_eq_error hwrite
    · cases hreturn
  | load offset words =>
    rcases bind_eq_error.mp h with hload | ⟨_, _, -, hreturn⟩
    · exact eq_of_load_eq_error hload
    · cases hreturn

end Outcome

section History

variable {name : BankName} {size : Nat} {zero : α} {served : Bank α × List (Request α)}

private theorem latest_cons (zero : α) (request : Request α) (done : List (Request α))
    (address : Nat) :
    latest zero (request :: done) address =
      (request.word? address).getD (latest zero done address) := by
  unfold latest
  rw [List.findSome?_cons]
  cases request.word? address <;> rfl

/-- One more request, whether it succeeds or not, leaves the words that were stored last. -/
private theorem Holds.attempt (h : Holds name size zero served) (request : Request α) :
    Holds name size zero (attempt served request) := by
  unfold Bank.attempt
  cases hrequest : request.perform served.1 with
  | ok delivered after =>
    have hreplaces := replaces_of_perform hrequest
    refine ⟨hreplaces.name.trans h.named, hreplaces.size.trans h.sized, fun address haddress => ?_⟩
    dsimp only
    rw [hreplaces.getElem? address, ← Request.word?, latest_cons, h.word address haddress]
    cases request.word? address <;> rfl
  | error violation after =>
    obtain rfl := eq_of_perform_eq_error hrequest
    exact h

private theorem holds_serve (name : BankName) (size : Nat) (zero : α)
    (requests : List (Request α)) :
    Holds name size zero ((filled name size zero).serve requests) := by
  have hfoldl (served : Bank α × List (Request α)) (h : Holds name size zero served) :
      Holds name size zero (requests.foldl Bank.attempt served) := by
    induction requests generalizing served with
    | nil => exact h
    | cons request requests ih => exact ih _ (h.attempt request)
  refine hfoldl _ ⟨rfl, Array.size_replicate, fun address haddress => ?_⟩
  rw [filled, Array.getElem?_replicate, if_pos haddress]
  rfl

end History

/-- Behind any requests a bank has the size that it was made with, and a word is the last one that
was stored at its address or else the one that the bank was filled with. An access succeeds exactly
if it lies inside; then a write or a load replaces the words that it covers and no others. If it
does not, nothing changes, and the address that is reported lies outside: for a load it is the
last one that was asked for. -/
theorem bounded_map (name : BankName) (size : Nat) (zero : α) (requests : List (Request α)) :
    let served := (filled name size zero).serve requests
    let bank := served.1
    bank.size = size ∧
    (∀ address, bank.read address = if address < size then .ok (latest zero served.2 address)
      else .error ⟨name, address, size⟩) ∧
    (∀ address value, if address < size then
        ∃ after, write address value bank = .ok () after ∧ bank.Replaces after address #[value]
      else write address value bank = .error ⟨name, address, size⟩ bank) ∧
    ∀ offset words, if offset + words.size ≤ size then
        ∃ after, load offset words bank = .ok () after ∧ bank.Replaces after offset words
      else ∃ last, offset + words.size = last + 1 ∧ size ≤ last ∧
        load offset words bank = .error ⟨name, last, size⟩ bank := by
  intro served bank
  obtain ⟨hname, hsize, hword⟩ := holds_serve name size zero requests
  change bank.size = size at hsize
  have hviolation (address : Nat) : bank.violation address = ⟨name, address, size⟩ := by
    rw [violation, hname, hsize]
  refine ⟨hsize, fun address => ?_, fun address value => ?_, fun offset words => ?_⟩
  · split
    next hlt => rw [read, hword address hlt]
    next hle => rw [read_of_le _ (by omega), hviolation]
  · split
    next hlt =>
      have hwrite := write_of_lt bank (Nat.lt_of_lt_of_eq hlt hsize.symm) value
      exact ⟨_, hwrite, replaces_of_write hwrite⟩
    next hle => rw [write_of_le _ (by omega), hviolation]
  · split
    next hfits =>
      have hload := load_eq_ok.mpr ⟨Nat.le_trans hfits (Nat.le_of_eq hsize.symm), rfl⟩
      exact ⟨_, hload, replaces_of_load hload⟩
    next hexceeds =>
      refine ⟨offset + words.size - 1, by omega, by omega, ?_⟩
      rw [load_of_lt (by omega), hviolation]

/-- No words at the end fit, and no words behind it do not. -/
example : load 2 #[] (filled .rom 2 (0 : CodeWord)) = .ok () (filled .rom 2 0) ∧
    load 3 #[] (filled .rom 2 (0 : CodeWord)) = .error ⟨.rom, 2, 2⟩ (filled .rom 2 0) :=
  ⟨rfl, rfl⟩

end WordMachine.Machine.Bank
