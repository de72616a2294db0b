import ForeignPasses.Demo

/-!
# The command line

Runs the demonstration on the arguments, prints what it prints, and exits with its code.
-/

open ForeignPasses in
def main (args : List String) : IO UInt32 := do
  let ending := Demo.runArgs args
  IO.print ending.output
  if let some message := ending.message then
    IO.eprintln message
  return UInt32.ofNat ending.code
