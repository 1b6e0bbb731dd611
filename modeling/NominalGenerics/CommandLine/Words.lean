/-!
# Words of a command line

Options and plain words may be mixed. An option that takes a value takes the next word or what
follows an equals sign. A word that starts with a hyphen is plain only after `--`, after which no
word is an option, or if it is the hyphen alone.
-/

namespace NominalGenerics.CommandLine

/-- Why words are no command. Asking for help or for the version is none either. -/
inductive UsageError where
  | noArguments
  | helpRequested
  | versionRequested
  | unknownCommand
  | missingRequired
  | unknownOption
  | missingValue
  | unexpectedValue
  | repeatedOption
  deriving DecidableEq, Repr

/-- An option of a command. -/
structure OptionSpec where
  name : String
  takesValue : Bool := false
  /-- Whether the value may be the empty word. -/
  allowsEmpty : Bool := true
  deriving DecidableEq, Repr

/-- A word of a command line. -/
inductive Word where
  /-- The mark after which no word is an option. -/
  | endOfOptions
  /-- `--name` or `--name=value`. -/
  | long (name : String) (value : Option String)
  /-- `-` and one or more letters. -/
  | short (letters : List Char)
  | plain (text : String)
  deriving DecidableEq, Repr

/-- The kind of a word. -/
def Word.ofString (text : String) : Word :=
  match text.toList with
  | ['-', '-'] => .endOfOptions
  | '-' :: '-' :: rest =>
      match rest.dropWhile (· ≠ '=') with
      | [] => .long (String.ofList rest) none
      | _ :: value =>
          .long (String.ofList (rest.takeWhile (· ≠ '='))) (some (String.ofList value))
  | '-' :: c :: rest => .short (c :: rest)
  | _ => .plain text

/-- What the words of a command said so far. -/
structure Given where
  values : List (OptionSpec × String) := []
  flags : List OptionSpec := []
  /-- The plain words, in order. -/
  plain : List String := []
  deriving DecidableEq, Repr

/-- An option with a value that is still to be entered, and the value once it is known. -/
abbrev Pending := Option (OptionSpec × Option String)

namespace Given

/-- Enters the value of an option. -/
def addValue (given : Given) (option : OptionSpec) (value : String) : Except UsageError Given :=
  if given.values.any (·.1 == option) then .error .repeatedOption
  else if value.isEmpty && !option.allowsEmpty then .error .missingValue
  else .ok { given with values := (option, value) :: given.values }

/-- Enters a flag. -/
def addFlag (given : Given) (option : OptionSpec) : Except UsageError Given :=
  if given.flags.contains option then .error .repeatedOption
  else .ok { given with flags := option :: given.flags }

/-- Enters a plain word. -/
def addPlain (given : Given) (text : String) : Given :=
  { given with plain := given.plain ++ [text] }

/-- Enters the pending option, which must have its value. -/
def settle (given : Given) : Pending → Except UsageError Given
  | none => .ok given
  | some (option, some value) => given.addValue option value
  | some (_, none) => .error .missingValue

/-- The value of an option that must be given. -/
def require (given : Given) (option : OptionSpec) : Except UsageError String :=
  match given.values.lookup option with
  | some value => .ok value
  | none => .error .missingRequired

end Given

/-- Reads the words of a command with the given options. A pending option is settled by the next
known option, the next plain word that is not its value, or the end; an unknown option and a value
for a flag are reported before that. -/
def readWords (options : List OptionSpec) :
    (pending : Pending) → (given : Given) → List String → Except UsageError Given
  | pending, given, [] => given.settle pending
  | pending, given, text :: rest =>
      match Word.ofString text with
      | .endOfOptions => do
          let given ← given.settle pending
          return rest.foldl Given.addPlain given
      | .long "help" (some _) => .error .unexpectedValue
      | .long "help" none => do
          discard <| given.settle pending
          .error .helpRequested
      | .long name value =>
          match options.find? (·.name == name), value with
          | none, _ => .error .unknownOption
          | some option, some value =>
              if option.takesValue then do
                let given ← given.settle pending
                readWords options none (← given.addValue option value) rest
              else
                .error .unexpectedValue
          | some option, none => do
              let given ← given.settle pending
              if option.takesValue then
                readWords options (some (option, none)) given rest
              else
                readWords options none (← given.addFlag option) rest
      | .short ('h' :: _) => do
          discard <| given.settle pending
          .error .helpRequested
      | .short _ => .error .unknownOption
      | .plain text =>
          match pending with
          | some (option, none) => readWords options (some (option, some text)) given rest
          | pending => do
              let given ← given.settle pending
              readWords options none (given.addPlain text) rest

end NominalGenerics.CommandLine
