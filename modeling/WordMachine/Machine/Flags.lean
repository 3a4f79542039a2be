import WordMachine.Isa.Word

/-! The five flags of the machine. -/
namespace WordMachine.Machine

/-- The result of the last comparison, whether the machine halts, and whether the last result of
arithmetic was zero. -/
structure Flags where
  less : Bool := false
  greater : Bool := false
  equal : Bool := false
  halt : Bool := false
  zero : Bool := false
  deriving DecidableEq

namespace Flags

def ofBits (bits : Word) : Flags where
  less := bits.toNat.testBit 0
  greater := bits.toNat.testBit 1
  equal := bits.toNat.testBit 2
  halt := bits.toNat.testBit 3
  zero := bits.toNat.testBit 4

def toBits (flags : Flags) : Word :=
  .ofNat (flags.less.toNat + 2 * flags.greater.toNat + 4 * flags.equal.toNat
    + 8 * flags.halt.toNat + 16 * flags.zero.toNat)

theorem ofBits_toBits (flags : Flags) : ofBits flags.toBits = flags := by
  rcases flags with ⟨_ | _, _ | _, _ | _, _ | _, _ | _⟩ <;> rfl

/-- Flags fit into a byte. -/
theorem toBits_and_mask (flags : Flags) : flags.toBits &&& 0xff = flags.toBits := by
  rcases flags with ⟨_ | _, _ | _, _ | _, _ | _, _ | _⟩ <;> rfl

def names (flags : Flags) : List String :=
  [(flags.less, "LT"), (flags.greater, "GT"), (flags.equal, "EQ"), (flags.halt, "HLT"),
    (flags.zero, "ZERO")].filterMap fun (set, name) => if set then some name else none

end Flags

end WordMachine.Machine
