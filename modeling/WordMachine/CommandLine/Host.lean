/-! What a command needs of the system it runs on. -/
namespace WordMachine.CommandLine

/-- A system with files, two output streams and a clock. Paths and times are passed through as they
are; a failed access gives its reason. -/
class Host (m : Type → Type) where
  readFile : String → m (Except String (List UInt8))
  writeFile : String → List UInt8 → m (Except String Unit)
  /-- Prints a text as it is on the standard output. -/
  print : String → m Unit
  /-- Prints a text as it is on the standard error output. -/
  complain : String → m Unit
  /-- The time in nanoseconds since some moment. -/
  now : m Nat
  /-- Waits for so many nanoseconds. -/
  wait : Nat → m Unit

end WordMachine.CommandLine
