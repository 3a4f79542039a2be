import WordMachine.Isa.Word
import WordMachine.Text.Numeral

/-! Memory banks: a fixed number of words, of which every access is checked. -/
namespace WordMachine.Machine

inductive BankName
  | ram | rom
  deriving DecidableEq

def BankName.text : BankName → String
  | ram => "RAM"
  | rom => "ROM"

structure Violation where
  bank : BankName
  address : Nat
  size : Nat
  deriving DecidableEq

def Violation.message (violation : Violation) : String :=
  s!"{violation.bank.text} address 0x{Text.hex 1 violation.address} is out of bounds "
    ++ s!"(size 0x{Text.hex 1 violation.size})"

structure Bank (α : Type) where
  name : BankName
  cells : Array α
  deriving DecidableEq

namespace Bank

variable {α : Type}

/-- An access to a bank, which may change it, and which keeps it if it fails. -/
abbrev Access (α β : Type) := EStateM Violation (Bank α) β

def filled (name : BankName) (size : Nat) (value : α) : Bank α :=
  ⟨name, .replicate size value⟩

def size (bank : Bank α) : Nat :=
  bank.cells.size

def contains (bank : Bank α) (address : Nat) : Bool :=
  address < bank.size

def violation (bank : Bank α) (address : Nat) : Violation :=
  ⟨bank.name, address, bank.size⟩

def read (bank : Bank α) (address : Nat) : Except Violation α :=
  match bank.cells[address]? with
  | some value => .ok value
  | none => .error (bank.violation address)

def write (address : Nat) (value : α) : Access α Unit := fun ⟨name, cells⟩ =>
  if h : address < cells.size then
    .ok () ⟨name, cells.set address value⟩
  else
    .error ⟨name, address, cells.size⟩ ⟨name, cells⟩

theorem read_of_lt (bank : Bank α) {address : Nat} (h : address < bank.size) :
    bank.read address = .ok (bank.cells[address]) := by
  simp only [read, Array.getElem?_eq_getElem h]

theorem read_of_le (bank : Bank α) {address : Nat} (h : bank.size ≤ address) :
    bank.read address = .error (bank.violation address) := by
  simp only [read, Array.getElem?_eq_none h]

theorem write_of_lt (bank : Bank α) {address : Nat} (h : address < bank.size) (value : α) :
    write address value bank = .ok () { bank with cells := bank.cells.set address value } := by
  exact dif_pos h

theorem write_of_le (bank : Bank α) {address : Nat} (h : bank.size ≤ address) (value : α) :
    write address value bank = .error (bank.violation address) bank := by
  exact dif_neg (Nat.not_lt.2 h)

/-- Replaces the cells from an offset on. If the words do not all fit, none is written, and the
address of the last of them is the culprit. -/
def load (offset : Nat) (words : Array α) : Access α Unit := fun bank =>
  let stop := offset + words.size
  if bank.size < stop then
    .error (bank.violation (stop - 1)) bank
  else
    .ok () { bank with cells := bank.cells.extract 0 offset ++ words ++ bank.cells.extract stop }

def slice? (bank : Bank α) (start count : Nat) : Option (List α) :=
  if start + count ≤ bank.size then
    some (bank.cells.extract start (start + count)).toList
  else
    none

end Bank

end WordMachine.Machine
