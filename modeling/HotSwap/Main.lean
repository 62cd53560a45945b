import HotSwap.Report.Arguments

/-! # The program

Reads two versions of a class file and reports on the methods of the old one. -/

namespace HotSwap

/-- The content of a file, if it can be read. -/
def contentOf (path : String) : IO (Option Bytes) := do
  try
    return some (← IO.FS.readBinFile path).toList
  catch _ => return none

/-- Run the program and give its exit code. -/
def run (arguments : List String) : IO UInt32 := do
  match Arguments.parse? arguments with
  | none =>
      IO.eprintln Arguments.usage
      return 1
  | some found =>
      let old ← contentOf found.oldPath
      let new ← contentOf found.newPath
      let content (path : String) := if path = found.oldPath then old else new
      let result := runProgram content arguments
      IO.print result.output
      return UInt32.ofNat result.exitCode

end HotSwap

def main (arguments : List String) : IO UInt32 :=
  HotSwap.run arguments
