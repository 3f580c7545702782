import Arranger.CommandLine

/-!
# The program

Reads the command line and tells what is started.
-/

namespace Arranger.CommandLine

def environmentVariables : List String := ["SCLANG_ARRANGEMENTS_DIR", "SCLANG_OUTPUT_DIR"]

def readEnvironment : IO (List (String × String)) := do
  let found ← environmentVariables.mapM fun name => do
    return (← IO.getEnv name).map fun value => (name, value)
  return found.filterMap id

end Arranger.CommandLine

open Arranger.CommandLine in
def main (args : List String) : IO UInt32 := do
  let current ← IO.currentDir
  match start args (← readEnvironment) current.toString with
  | .exit code stdout stderr =>
      IO.print stdout
      IO.eprint stderr
      return code.toUInt32
  | .serve service =>
      for line in service.log do
        IO.eprintln line
      return 0
