import WordMachine.Isa.Register
import WordMachine.Machine.Flags

/-! The register file: a word for each register. -/
namespace WordMachine.Machine

open Isa (Register)

structure RegisterFile where
  words : Vector Word 16
  deriving DecidableEq

namespace RegisterFile

def get (file : RegisterFile) (register : Register) : Word :=
  file.words[register.address]

/-- Stores the bits of a value that the register has room for. -/
def set (file : RegisterFile) (register : Register) (value : Word) : RegisterFile :=
  ⟨file.words.set register.address (value &&& register.width.mask)⟩

theorem get_set_self (file : RegisterFile) (register : Register) (value : Word) :
    (file.set register value).get register = value &&& register.width.mask := by
  simp [get, set]

theorem get_set_of_ne (file : RegisterFile) {register other : Register} (h : register ≠ other)
    (value : Word) : (file.set register value).get other = file.get other := by
  have hne : (register.address : Nat) ≠ other.address :=
    fun heq => h (Register.address_injective (Fin.ext heq))
  simp [get, set, hne]

def initial (stackTop : Word) : RegisterFile :=
  (RegisterFile.mk (.replicate 16 0)).set .sp stackTop

/-- The flags in their register. Bits without a flag are not seen. -/
def flags (file : RegisterFile) : Flags :=
  .ofBits (file.get .flgs)

def setFlags (file : RegisterFile) (flags : Flags) : RegisterFile :=
  file.set .flgs flags.toBits

theorem flags_setFlags (file : RegisterFile) (flags : Flags) :
    (file.setFlags flags).flags = flags := by
  rw [RegisterFile.flags, setFlags, get_set_self]
  exact (congrArg Flags.ofBits flags.toBits_and_mask).trans flags.ofBits_toBits

def toList (file : RegisterFile) : List Word :=
  file.words.toList

end RegisterFile

end WordMachine.Machine
