import NominalGenerics.Command
import NominalGenerics.CommandLine.Words

/-!
# Commands of the command line

    infer --catalog FILE --callable NAME [--skip-constraints] [--bootstrap] [--bounds] [TYPE]...
    check --catalog FILE --declaration NAME [TYPE]...
-/

namespace NominalGenerics.CommandLine

/-- The option that names the catalog. -/
def catalogOption : OptionSpec := { name := "catalog", takesValue := true, allowsEmpty := false }

/-- The option that names the callable. -/
def callableOption : OptionSpec := { name := "callable", takesValue := true }

/-- The option that names the declaration. -/
def declarationOption : OptionSpec := { name := "declaration", takesValue := true }

/-- The flag that leaves out the constraint check. -/
def skipConstraintsFlag : OptionSpec := { name := "skip-constraints" }

/-- The flag that uses constraints to fix parameters. -/
def bootstrapFlag : OptionSpec := { name := "bootstrap" }

/-- The flag that asks for bounds only. -/
def boundsFlag : OptionSpec := { name := "bounds" }

/-- A command of the command line. -/
inductive Invocation where
  | infer (catalog : String) (request : Command.InferRequest)
  | check (catalog : String) (declaration : String) (types : List String)
  deriving DecidableEq, Repr

/-- The file that holds the catalog of a command. -/
def Invocation.catalog : Invocation → String
  | .infer catalog _ => catalog
  | .check catalog _ _ => catalog

/-- Reads the words after `infer`. -/
def readInfer (words : List String) : Except UsageError Invocation := do
  let given ← readWords
    [catalogOption, callableOption, skipConstraintsFlag, bootstrapFlag, boundsFlag] none {} words
  let catalog ← given.require catalogOption
  let callable ← given.require callableOption
  return .infer catalog {
    callable
    types := given.plain
    options := {
      skipConstraintCheck := given.flags.contains skipConstraintsFlag
      bootstrapFromConstraints := given.flags.contains bootstrapFlag }
    boundsOnly := given.flags.contains boundsFlag }

/-- Reads the words after `check`. -/
def readCheck (words : List String) : Except UsageError Invocation := do
  let given ← readWords [catalogOption, declarationOption] none {} words
  let catalog ← given.require catalogOption
  let declaration ← given.require declarationOption
  return .check catalog declaration given.plain

/-- The names of the commands. -/
def commandNames : List String := ["infer", "check", "help"]

/-- Reads a command line. -/
def read : List String → Except UsageError Invocation
  | [] => .error .noArguments
  | text :: rest =>
      match Word.ofString text with
      | .plain "infer" => readInfer rest
      | .plain "check" => readCheck rest
      | .plain "help" =>
          match rest with
          | [] => .error .helpRequested
          | [name] =>
              if commandNames.contains name then .error .helpRequested
              else .error .unknownCommand
          | _ => .error .unknownCommand
      | .plain _ => .error .unknownCommand
      | .long "help" none => .error .helpRequested
      | .long "version" none => .error .versionRequested
      | .long "help" (some _) | .long "version" (some _) => .error .unexpectedValue
      | .long _ _ => .error .unknownOption
      | .short ('h' :: _) => .error .helpRequested
      | .short ('V' :: _) => .error .versionRequested
      | .short _ => .error .unknownOption
      | .endOfOptions =>
          match rest with
          | [] => .error .noArguments
          | name :: _ =>
              if commandNames.contains name then .error .unknownOption
              else .error .unknownCommand

end NominalGenerics.CommandLine
