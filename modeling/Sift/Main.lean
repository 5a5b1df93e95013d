import Sift.Command.Line

/-!
# The program
-/

def main (args : List String) : IO UInt32 := do
  let report := Sift.Command.run args
  (← IO.getStdout).putStr report.out
  (← IO.getStderr).putStr report.err
  return report.code.toUInt32
