import NominalGenerics.Catalog.Build
import NominalGenerics.Catalog.Decoding
import NominalGenerics.CommandLine.Invocation

/-!
# Running a command line

A command loads the catalog that it names, builds its store and answers from it. A positive answer
exits with 0, a negative one with 1 and an error in the input with 2.
-/

namespace NominalGenerics.CommandLine

/-- Why a file cannot be read. -/
inductive ReadError where
  | notFound
  | other (reason : String)
  deriving DecidableEq, Repr

/-- The text of a read error. -/
def ReadError.message : ReadError → String
  | .notFound => "No such file or directory (os error 2)"
  | .other reason => reason

/-- Why a command could not be run. -/
inductive InputError where
  | unreadable (file : String) (cause : ReadError)
  | invalidJson (file : String)
  | build (cause : Catalog.BuildError)
  | command (cause : CommandError)
  deriving DecidableEq, Repr

/-- The text of an input error. -/
def InputError.message : InputError → String
  | .unreadable file cause => s!"failed to read catalog {file}: " ++ cause.message
  | .invalidJson file => s!"in catalog {file}: invalid catalog JSON"
  | .build cause => cause.message
  | .command cause => cause.message

/-- What a run writes, and its exit code. -/
structure Output where
  exit : Nat
  stdout : String := ""
  stderr : String := ""
  deriving DecidableEq, Repr

/-- Loads the catalog named by a command. `textOf` gives the text of a file. -/
def loadCatalog (textOf : String → Except ReadError String) (file : String) :
    Except InputError Catalog :=
  match textOf file with
  | .error cause => .error (.unreadable file cause)
  | .ok text =>
      match Catalog.parse? text with
      | none => .error (.invalidJson file)
      | some catalog => .ok catalog

/-- Runs a command on a catalog. -/
def runOn (catalog : Catalog) (command : CommandM Report) : Query (Except InputError Report) := do
  match ← catalog.build with
  | .error cause => return .error (.build cause)
  | .ok store =>
      let (outcome, _) ← command.run.run store
      return outcome.mapError .command

/-- Runs a command. -/
def Invocation.run (textOf : String → Except ReadError String) :
    Invocation → Query (Except InputError Report)
  | .infer file request =>
      match loadCatalog textOf file with
      | .error cause => return .error cause
      | .ok catalog => runOn catalog (Command.infer catalog.options request)
  | .check file declaration types =>
      match loadCatalog textOf file with
      | .error cause => return .error cause
      | .ok catalog => runOn catalog (Command.check declaration types)

/-- What a run writes: a positive answer exits with 0, a negative one with 1, an error with 2. -/
def Output.ofOutcome (color : Bool) : Except InputError Report → Output
  | .ok report =>
      { exit := if report.status.isSuccess then 0 else 1, stdout := report.render color }
  | .error cause => { exit := 2, stderr := "error: " ++ cause.message ++ "\n" }

/-- A short account of the command line. -/
def usage : String :=
  "Infer and check generic type arguments against a type catalog\n\n" ++
  "  infer --catalog FILE --callable NAME [--skip-constraints] [--bootstrap] [--bounds] [TYPE]...\n" ++
  "  check --catalog FILE --declaration NAME [TYPE]...\n"

/-- What a run writes for words that are no command. Help and version are answers to a question;
everything else is an error. -/
def Output.ofUsageError : UsageError → Output
  | .helpRequested => { exit := 0, stdout := usage }
  | .versionRequested => { exit := 0, stdout := "0.1.0\n" }
  | _ => { exit := 2, stderr := usage }

/-- What a run writes for a fault. -/
def Output.ofFault (fault : Fault) : Output :=
  { exit := 101, stderr := fault.message?.getD "broken precondition" ++ "\n" }

end NominalGenerics.CommandLine
