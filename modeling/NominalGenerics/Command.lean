import NominalGenerics.Report
import NominalGenerics.TypeExpr.Reader

/-!
# Commands

The two questions that can be put to a finished store: which type arguments a call has, and whether
given type arguments satisfy the constraints of a declaration. Types are given as text. Texts that
name no type, unknown names and a wrong number of types are errors of the input, which are no
negative answers.
-/

namespace NominalGenerics

/-- Why a command could not be run on a store. -/
inductive CommandError where
  | unknownCallable (name : String)
  | wrongCount (callable : String) (declared given : Nat)
  | unknownDeclaration (name : String)
  | expression (cause : TypeExprError)
  deriving DecidableEq, Repr

/-- The text of an error. -/
def CommandError.message : CommandError → String
  | .unknownCallable name => s!"unknown callable `{name}`"
  | .wrongCount callable declared given =>
      s!"`{callable}` takes {declared} argument type(s) and an optional result type, got {given}"
  | .unknownDeclaration name => s!"unknown declaration `{name}`"
  | .expression cause => cause.message

/-- A command on a store. The types that it names are interned, also if it fails later. -/
abbrev CommandM := ExceptT CommandError StoreM

namespace Command

/-- A request to infer the type arguments of a call. -/
structure InferRequest where
  callable : String
  /-- The argument types, optionally followed by the expected result type. -/
  types : List String
  options : InferenceOptions := {}
  /-- Report the bounds and fix nothing. -/
  boundsOnly : Bool := false
  deriving DecidableEq, Repr

/-- The types that some texts name. -/
def parseAll (texts : List String) : CommandM (List Handle) :=
  texts.mapM fun text => ExceptT.adapt .expression (parseType [] text)

/-- The report of an inference that stops at the bounds. -/
def boundsReport (store : Store) (signature : Signature) (args : List Handle) :
    Query Report := do
  match ← Inference.runFresh signature (Inference.collectBounds store signature args) with
  | (.ok (), inferred) =>
      let lines ← (inferred.typeParams.zip inferred.bounds).mapM fun (param, bounds) =>
        return (← store.typeName param) ++ ": " ++ (← bounds.render store)
      return { lines, status := .collected }
  | (.error failure, _) => return { lines := [], status := .failed failure }

/-- The report of a whole inference. -/
def inferenceReport (store : Store) (signature : Signature) (args : List Handle)
    (options : InferenceOptions) : Query Report := do
  match ← Inference.runFresh signature (Inference.infer store signature args options) with
  | (.ok types, _) =>
      let lines ← (signature.typeParams.zip types).mapM fun (param, type) =>
        return (← store.typeName param) ++ " = " ++ (← store.typeName type)
      return { lines, status := .inferred }
  | (.error failure, _) => return { lines := [], status := .failed failure }

/-- Infers the type arguments of a call. The options of the request add to `defaults`. -/
def infer (defaults : InferenceOptions) (request : InferRequest) : CommandM Report := do
  match (← getThe Store).findCallable? request.callable with
  | none => throw (.unknownCallable request.callable)
  | some id =>
      let args ← parseAll request.types
      let store ← getThe Store
      match store.callable? id with
      | none => throw (.unknownCallable request.callable)
      | some signature =>
          let declared := signature.params.length
          if args.length < declared ∨ declared + 1 < args.length then
            throw (.wrongCount request.callable declared args.length)
          else if request.boundsOnly then
            boundsReport store signature args
          else
            inferenceReport store signature args (request.options.union defaults)

/-- Checks type arguments against the constraints of a declaration. A callable takes precedence
over a type of the same name. -/
def check (declaration : String) (types : List String) : CommandM Report := do
  let args ← parseAll types
  let store ← getThe Store
  let declared ← match (store.findCallable? declaration).bind store.callable? with
    | some signature => pure (Declaration.callable signature)
    | none =>
        match store.lookup? declaration with
        | some type => pure (Declaration.type type)
        | none => throw (.unknownDeclaration declaration)
  let satisfied ← store.satisfiesConstraints declared args
  let names ← args.mapM fun arg => store.typeName arg
  return {
    lines := [Store.instantiationName declaration names]
    status := if satisfied then .satisfied else .violated }

end Command

end NominalGenerics
