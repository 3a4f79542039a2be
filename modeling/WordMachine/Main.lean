import WordMachine.CommandLine.Arguments

/-! The program: commands on the files and streams of the system. -/
namespace WordMachine.CommandLine

def reasonOf : IO.Error → String
  | .noFileOrDirectory .. => "No such file or directory (os error 2)"
  | .permissionDenied .. => "Permission denied (os error 13)"
  | .inappropriateType _ code details => s!"{details} (os error {code})"
  | error => toString error

def attempt {α : Type} (access : IO α) : IO (Except String α) := do
  match ← access.toBaseIO with
  | .ok value => return .ok value
  | .error error => return .error (reasonOf error)

instance : Host IO where
  readFile path := attempt do
    return (← IO.FS.readBinFile path).toList
  writeFile path content := attempt do
    IO.FS.writeBinFile path content.toByteArray
  print := IO.print
  complain := IO.eprint
  now := IO.monoNanosNow
  wait nanoseconds := IO.sleep (.ofNat (nanoseconds / 1000000))

def horizon : Nat := 0x4000000000000000

end WordMachine.CommandLine

def main (arguments : List String) : IO UInt32 := do
  let code ← WordMachine.CommandLine.invoke true WordMachine.CommandLine.horizon arguments
  return code.toUInt32
