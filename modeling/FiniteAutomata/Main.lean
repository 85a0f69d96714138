import FiniteAutomata.CommandLine.Session

/-! The command itself: reads the input only if the arguments call for it, and prints the outcome. -/

namespace FiniteAutomata

/-- All the bytes that are left on a stream, after those read already. -/
partial def readAll (stream : IO.FS.Stream) (bytes : ByteArray) : IO ByteArray := do
  let chunk ← stream.read 65536
  if chunk.isEmpty then return bytes else readAll stream (bytes ++ chunk)

/-- Prints both streams of an outcome and gives its exit code. -/
def Outcome.print (outcome : Outcome) : IO UInt32 := do
  let stdout ← IO.getStdout
  stdout.putStr outcome.stdout
  stdout.flush
  let stderr ← IO.getStderr
  stderr.putStr outcome.stderr
  return outcome.code

end FiniteAutomata

open FiniteAutomata in
/-- The command. -/
def main (arguments : List String) : IO UInt32 := do
  match Session.ofArguments arguments with
  | .error outcome => outcome.print
  | .ok options =>
    let stdin ← IO.getStdin
    let input ← readAll stdin .empty
    (Session.run options input.toList).print
