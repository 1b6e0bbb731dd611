import NominalGenerics.CommandLine.Run

/-!
# The program

Reads the catalog that the command line names, runs the command and writes its output.
-/

namespace NominalGenerics.CommandLine

/-- The text of a file. -/
def textOfFile (file : String) : IO (Except ReadError String) := do
  try
    return .ok (← IO.FS.readFile file)
  catch
    | .noFileOrDirectory .. => return .error .notFound
    | cause => return .error (.other (toString cause))

/-- Writes the output of a run and gives its exit code. -/
def Output.write (output : Output) : IO UInt32 := do
  IO.print output.stdout
  IO.eprint output.stderr
  return output.exit.toUInt32

/-- Runs the command that the words name. -/
def runWords (words : List String) : IO UInt32 := do
  match CommandLine.read words with
  | .error cause => (Output.ofUsageError cause).write
  | .ok invocation =>
      let text ← textOfFile invocation.catalog
      match invocation.run fun _ => text with
      | .error fault => (Output.ofFault fault).write
      | .ok outcome => (Output.ofOutcome (← (← IO.getStdout).isTty) outcome).write

end NominalGenerics.CommandLine

/-- The program: its exit code says whether the answer is positive, negative or an error. -/
def main (words : List String) : IO UInt32 :=
  NominalGenerics.CommandLine.runWords words
