import WordMachine.Machine.Flags

/-! Arithmetic, logic and comparison on words, with their effect on the flags. -/
namespace WordMachine.Machine.Alu

/-- Gives a result and sets the zero flag by it. -/
def result (value : Word) : StateM Flags Word := do
  modify fun flags => { flags with zero := value == 0 }
  return value

def add (a b : Word) : StateM Flags Word := result (a + b)

def subtract (a b : Word) : StateM Flags Word := result (a - b)

def and (a b : Word) : StateM Flags Word := result (a &&& b)

def or (a b : Word) : StateM Flags Word := result (a ||| b)

def xor (a b : Word) : StateM Flags Word := result (a ^^^ b)

def shiftLeft (a : Word) : StateM Flags Word := result (a <<< 1)

def shiftRight (a : Word) : StateM Flags Word := result (a >>> 1)

/-- Says how the source compares with the destination. The zero flag is left alone. -/
def compare (dest src : Word) : StateM Flags Unit :=
  modify fun flags =>
    { flags with less := src < dest, greater := dest < src, equal := src == dest }

end WordMachine.Machine.Alu
