import NominalGenerics.Inference

/-!
# Reports

The outcome of a command: lines of text and a status, which is written last.
-/

namespace NominalGenerics

/-- How a command ended. -/
inductive Status where
  /-- Every type parameter got a type. -/
  | inferred
  /-- Bounds were collected and not fixed. -/
  | collected
  | satisfied
  | violated
  | failed (failure : InferenceFailure)
  deriving DecidableEq, Repr

namespace Status

/-- Whether the status is a positive answer. -/
def isSuccess : Status → Bool
  | .inferred | .collected | .satisfied => true
  | .violated | .failed _ => false

/-- The word for a status. -/
def word : Status → String
  | .inferred => "inferred"
  | .collected => "collected"
  | .satisfied => "satisfied"
  | .violated => "violated"
  | .failed _ => "failed"

/-- The word for a status as a terminal shows it: bold, green for success and red otherwise. -/
def paintedWord (status : Status) : String :=
  (if status.isSuccess then "\x1b[1;32m" else "\x1b[1;31m") ++ status.word ++ "\x1b[0m"

end Status

/-- The outcome of a command. -/
structure Report where
  lines : List String
  status : Status
  deriving DecidableEq, Repr

/-- The text of a report: its lines, then the status with the reason of a failure. -/
def Report.render (report : Report) (color : Bool) : String :=
  let word := if color then report.status.paintedWord else report.status.word
  let reason := match report.status with
    | .failed failure => ": " ++ failure.message
    | _ => ""
  String.join (report.lines.map (· ++ "\n")) ++ word ++ reason ++ "\n"

end NominalGenerics
