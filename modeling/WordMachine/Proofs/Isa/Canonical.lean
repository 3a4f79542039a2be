import WordMachine.Proofs.Isa.Codec

/-! Canonical words: instructions that hold nothing but their operands. -/
namespace WordMachine.Isa

/-- Whether an instruction is one of an entry, with zero in each field that no operand occupies, a
byte as port and an address inside of data memory. -/
structure Entry.Canonical (ramSize : Nat) (entry : Entry) (instruction : Instruction) : Prop where
  opcode : ofOpcode? instruction.opcode = some entry
  vacant : ∀ field, field ≠ .pair →
    (∀ operand ∈ entry.operands, operand.field.meets field = false) → instruction.get field = 0
  port : ∀ operand ∈ entry.operands, operand.kind = .port → operand.field = .immediate →
    (instruction.get operand.field).toNat ≤ 0xff
  address : ∀ operand ∈ entry.operands, operand.kind = .address →
    (instruction.get operand.field).toNat < ramSize

/-- Whether a word is canonical where data memory has a size. -/
def Canonical (ramSize : Nat) (word : CodeWord) : Prop :=
  ∃ entry : Entry, entry.Canonical ramSize (.decode word)

namespace Instruction

variable {instruction other : Instruction}

private theorem get_le_capacity (h : instruction.Encodable) (field : Field) :
    (instruction.get field).toNat ≤ field.capacity := by
  have hbyte (byte : UInt8) : byte.toUInt16.toNat ≤ 0xff := by
    rw [UInt8.toNat_toUInt16]
    exact Nat.le_of_lt_succ byte.toNat_lt
  cases field with
  | dest => exact hbyte instruction.dest
  | src => exact hbyte instruction.src
  | immediate => exact Nat.le_of_lt_succ instruction.immediate.toNat_lt
  | pair =>
    obtain ⟨hdest, hsrc⟩ := id h
    have hpair := toNat_get_pair h
    change _ ≤ 0xff
    omega

/-- The pair is made of the two register fields. -/
private theorem get_eq_of_get_pair (h : instruction.Encodable) (hother : other.Encodable)
    (hpair : instruction.get .pair = other.get .pair) :
    instruction.dest = other.dest ∧ instruction.src = other.src := by
  obtain ⟨hdest, hsrc⟩ := id h
  obtain ⟨hdest', hsrc'⟩ := id hother
  have hvalue := congrArg UInt16.toNat hpair
  rw [toNat_get_pair h, toNat_get_pair hother] at hvalue
  exact ⟨UInt8.toNat.inj (by omega), UInt8.toNat.inj (by omega)⟩

/-- Instructions are equal when the opcode and the three fields are. -/
private theorem eq_of_get (hopcode : instruction.opcode = other.opcode)
    (hget : ∀ field, field ≠ .pair → instruction.get field = other.get field) :
    instruction = other := by
  have hdest : instruction.dest = other.dest := UInt8.toUInt16_inj.mp (hget .dest nofun)
  have hsrc : instruction.src = other.src := UInt8.toUInt16_inj.mp (hget .src nofun)
  have himmediate : instruction.immediate = other.immediate := hget .immediate nofun
  cases instruction
  cases other
  simp_all

end Instruction

/-- An operand in a register field or in the immediate, or a port in the register fields. -/
private theorem Field.eq_or_pair_of_meets {field other : Field} (h : field.meets other = true)
    (hother : other ≠ .pair) : field = other ∨ field = .pair ∧ (other = .dest ∨ other = .src) := by
  cases field <;> cases other <;> simp_all [Field.meets]

/-- A port is a byte wherever it lies. -/
theorem Entry.Canonical.port_le {ramSize : Nat} {entry : Entry} {instruction : Instruction}
    (h : entry.Canonical ramSize instruction) (hencodable : instruction.Encodable)
    {operand : Operand} (hoperand : operand ∈ entry.operands) (hport : operand.kind = .port) :
    (instruction.get operand.field).toNat ≤ 0xff := by
  have hcapacity := Instruction.get_le_capacity hencodable operand.field
  cases hfield : operand.field with
  | immediate =>
    rw [← hfield]
    exact h.port operand hoperand hport hfield
  | dest | src | pair =>
    rw [hfield] at hcapacity
    exact hcapacity

/-- Canonical instructions of one entry are equal when their operands are. -/
theorem Entry.Canonical.eq {ramSize : Nat} {entry : Entry} {instruction other : Instruction}
    (h : entry.Canonical ramSize instruction) (hother : entry.Canonical ramSize other)
    (hencodable : instruction.Encodable) (hencodable' : other.Encodable)
    (hget : ∀ operand ∈ entry.operands,
      instruction.get operand.field = other.get operand.field) : instruction = other := by
  refine Instruction.eq_of_get ?_ ?_
  · rw [← (ofOpcode?_eq_some.mp h.opcode).2, (ofOpcode?_eq_some.mp hother.opcode).2]
  · intro field hfield
    by_cases hvacant : ∀ operand ∈ entry.operands, operand.field.meets field = false
    · rw [h.vacant field hfield hvacant, hother.vacant field hfield hvacant]
    · simp only [not_forall, Bool.not_eq_false] at hvacant
      obtain ⟨operand, hoperand, hmeets⟩ := hvacant
      have hsame := hget operand hoperand
      rcases Field.eq_or_pair_of_meets hmeets hfield with heq | ⟨hpair, hregister⟩
      · rwa [heq] at hsame
      · rw [hpair] at hsame
        obtain ⟨hdest, hsrc⟩ := Instruction.get_eq_of_get_pair hencodable hencodable' hsame
        rcases hregister with rfl | rfl
        · exact congrArg UInt8.toUInt16 hdest
        · exact congrArg UInt8.toUInt16 hsrc

end WordMachine.Isa
