import WordMachine.Machine.Execution

/-! The flags as bits of a word, from the lowest: less, greater, equal, halt and zero. -/
namespace WordMachine.Machine

open Isa (Condition)

namespace Flags

def bitsMeet (bits : Word) : Condition → Bool
  | .always => true
  | .equal => bits &&& 4 ≠ 0
  | .notEqual => bits &&& 4 = 0
  | .greater => bits &&& 2 ≠ 0
  | .greaterEqual => bits &&& (2 ||| 4) ≠ 0
  | .less => bits &&& 1 ≠ 0
  | .lessEqual => bits &&& (1 ||| 4) ≠ 0
  | .zero => bits &&& 0x10 ≠ 0
  | .notZero => bits &&& 0x10 = 0

variable (word : Word)

/-- The five lowest bits are the flags. -/
private theorem toBits_ofBits : (ofBits word).toBits = word &&& 0x1f := by
  apply UInt16.toNat.inj
  rw [UInt16.toNat_and, show UInt16.toNat 0x1f = 2 ^ 5 - 1 from rfl, Nat.and_two_pow_sub_one_eq_mod]
  simp only [toBits, ofBits, UInt16.toNat_ofNat', Nat.toNat_testBit]
  omega

/-- Any mask below the sixth bit sees only the flags. -/
theorem and_eq_toBits_and {mask : Word} (h : 0x1f &&& mask = mask) :
    word &&& mask = (ofBits word).toBits &&& mask := by
  rw [toBits_ofBits, UInt16.and_assoc, h]

theorem toBits_withZero (zero : Bool) : Flags.toBits { ofBits word with zero } =
    word &&& 0x0f ||| if zero then 0x10 else 0 := by
  rw [and_eq_toBits_and word rfl]
  rcases ofBits word with ⟨_ | _, _ | _, _ | _, _ | _, _ | _⟩ <;> cases zero <;> rfl

theorem toBits_withHalt : Flags.toBits { ofBits word with halt := true } =
    word &&& 0x1f ||| 8 := by
  rw [and_eq_toBits_and word rfl]
  rcases ofBits word with ⟨_ | _, _ | _, _ | _, _ | _, _ | _⟩ <;> rfl

/-- The three outcomes of a comparison. -/
private theorem compare_cases (dest src : Word) :
    (src < dest ∧ ¬ dest < src ∧ (src == dest) = false) ∨
      (¬ src < dest ∧ dest < src ∧ (src == dest) = false) ∨
      (¬ src < dest ∧ ¬ dest < src ∧ (src == dest) = true) := by
  simp only [UInt16.lt_iff_toNat_lt, beq_eq_false_iff_ne, beq_iff_eq, ← UInt16.toNat_inj, ne_eq]
  omega

theorem toBits_withComparison (dest src : Word) :
    Flags.toBits { ofBits word with
      less := src < dest, greater := dest < src, equal := src == dest } =
    word &&& 0x18 ||| if src < dest then 1 else if dest < src then 2 else 4 := by
  rw [and_eq_toBits_and word rfl]
  generalize ofBits word = flags
  rcases compare_cases dest src with ⟨hl, hg, he⟩ | ⟨hl, hg, he⟩ | ⟨hl, hg, he⟩ <;>
    simp only [hl, hg, he, decide_true, decide_false, if_true, if_false] <;>
    rcases flags with ⟨_ | _, _ | _, _ | _, _ | _, _ | _⟩ <;> rfl

/-- The three lowest bits tell of a comparison. -/
theorem withComparison_and (flags : Flags) (dest src : Word) :
    Flags.toBits { flags with
      less := src < dest, greater := dest < src, equal := src == dest } &&& 7 =
    if src < dest then 1 else if dest < src then 2 else 4 := by
  rcases compare_cases dest src with ⟨hl, hg, he⟩ | ⟨hl, hg, he⟩ | ⟨hl, hg, he⟩ <;>
    simp only [hl, hg, he, decide_true, decide_false, if_true, if_false] <;>
    rcases flags with ⟨_ | _, _ | _, _ | _, _ | _, _ | _⟩ <;> rfl

theorem meet_ofBits (condition : Condition) :
    (ofBits word).meet condition = bitsMeet word condition := by
  unfold bitsMeet
  have masks (mask : Word) (h : 0x1f &&& mask = mask) := and_eq_toBits_and word h
  rw [masks 4 rfl, masks 2 rfl, masks (2 ||| 4) rfl, masks 1 rfl, masks (1 ||| 4) rfl,
    masks 0x10 rfl]
  generalize ofBits word = flags
  rcases flags with ⟨_ | _, _ | _, _ | _, _ | _, _ | _⟩ <;> cases condition <;> rfl

end Flags

end WordMachine.Machine
