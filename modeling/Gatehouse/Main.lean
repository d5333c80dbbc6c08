import Gatehouse.CommandLine.Run

/-!
# The program

The outermost layer takes the arguments, the environment and the files from the system, runs the
command line on them and writes what came of it.  Standard input names the files that the run may
see, one path a line; the settings of the system are always among them.  The layer starts no other
program, so a login that is not a dry run finds its broker unavailable.
-/

namespace Gatehouse.CommandLine

open Gatehouse.Broker Gatehouse.Files

/-- The lines of standard input. -/
partial def inputLines (stdin : IO.FS.Stream) : IO (List String) := do
  let line ← stdin.getLine
  if line.isEmpty then pure []
  else pure (line.trimAsciiEnd.toString :: (← inputLines stdin))

/-- Adds a file to a tree, unless it cannot be read. -/
def addFile (tree : Tree) (path : String) : IO Tree := do
  try
    let content ← IO.FS.readBinFile path
    pure (tree.write path (.file content.toList))
  catch _ => pure tree

/-- The variables of the environment that settings can come from. -/
def readEnvironment : IO Environment :=
  Environment.variables.filterMapM fun name => do
    pure ((← IO.getEnv name).map (name, ·))

/-- An id that was not used before. -/
def freshSid : IO SessionId := do
  let bytes ← IO.getRandomBytes 16
  pure (.ofNumber (bytes.toList.foldl (fun n b => n * 256 + b.toNat) 0))

/-- A client program that is never started. -/
def absentClient : Client Unit where
  run _ s := (.error "programs are not started here", s)

end Gatehouse.CommandLine

open Gatehouse Gatehouse.CommandLine

/-- Runs the command line. -/
def main (arguments : List String) : IO UInt32 := do
  let paths ← inputLines (← IO.getStdin)
  let tree ← (systemConfigPath :: paths).foldlM addFile .empty
  let (r, _) := run (fun _ => absentClient) (← freshSid) tree (← readEnvironment) arguments ()
  IO.print r.stdout
  match r.failure with
  | some f => IO.eprintln f.text
  | none => if r.status = usageStatus then IO.eprint helpText
  pure r.status.toUInt32
