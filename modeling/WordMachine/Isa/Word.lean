/-! Word sizes and the limits that follow from them. -/
namespace WordMachine

abbrev Word := UInt16

abbrev CodeWord := UInt32

namespace Isa

def bytesPerInstruction : Nat := 4

/-- The instruction pointer is one word, so no longer program can be addressed. -/
def maxProgramLength : Nat := 0x10000

/-- The words of data memory unless a program asks for another size. -/
def defaultRamSize : Nat := 0x8000

end Isa

end WordMachine
