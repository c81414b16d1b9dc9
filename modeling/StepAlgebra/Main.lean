import StepAlgebra.CommandLine.Run

/-!
# The program

Reads the arguments and, if they name no input, the standard input; writes what the run gives.
-/

namespace StepAlgebra.CommandLine

/-- All bytes that are left in a stream. -/
partial def readAll (stream : IO.FS.Stream) (read : ByteArray) : IO ByteArray := do
  let chunk ← stream.read 65536
  if chunk.isEmpty then
    return read
  readAll stream (read ++ chunk)

/-- Writes a transcript and gives the code to end with. -/
def write (t : Transcript) (code : UInt8) : IO UInt32 := do
  (← IO.getStdout).putStr t.output
  (← IO.getStderr).putStr t.complaints
  return code.toUInt32

end StepAlgebra.CommandLine

open StepAlgebra.CommandLine in
/-- Runs the program. -/
def main (arguments : List String) : IO UInt32 := do
  match plan standardReader arguments with
  | .finish t code => write t code
  | .batch a =>
      let stdin ← readAll (← IO.getStdin) ByteArray.empty
      let t := runLines a (splitLines stdin.toList)
      write t (exitCode t)
