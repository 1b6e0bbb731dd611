import NominalGenerics.Collection
import NominalGenerics.ConstraintCheck
import NominalGenerics.SpecialCast

/-!
# Inference of type arguments

The type arguments of a generic call are inferred from the types of its arguments, optionally
followed by the expected result type:

1. every parameter whose template is concrete must accept its argument, and the expected result
   must accept a concrete return type;
2. the other templates are matched against their arguments, which records bounds;
3. every type parameter is fixed from its bounds;
4. on request, the constraints of the fixed parameters record further bounds until no more
   parameters get fixed;
5. unless told otherwise, the fixed types are checked against the constraints.
-/

namespace NominalGenerics

/-- Choices of an inference call. -/
structure InferenceOptions where
  /-- Accept inferred types without checking the constraints. -/
  skipConstraintCheck : Bool := false
  /-- Fix parameters that the arguments leave open from the constraints. -/
  bootstrapFromConstraints : Bool := false
  deriving DecidableEq, Repr, Inhabited

/-- The options set on either side. -/
def InferenceOptions.union (a b : InferenceOptions) : InferenceOptions where
  skipConstraintCheck := a.skipConstraintCheck || b.skipConstraintCheck
  bootstrapFromConstraints := a.bootstrapFromConstraints || b.bootstrapFromConstraints

/-- Why inference found no type arguments. -/
inductive InferenceFailure where
  /-- A concrete parameter does not accept its argument. -/
  | incompatibleArgument (index : Nat)
  /-- The expected result does not accept the return type. -/
  | incompatibleReturn
  /-- A template does not match its argument. -/
  | unmatchedParameter (index : Nat)
  /-- The return template does not match the expected result. -/
  | unmatchedReturn
  /-- The bounds of a type parameter admit no type. -/
  | unfixable (position : Nat)
  /-- Some type parameters have no type. -/
  | unresolved (remaining : Nat)
  /-- A fixed type does not match one of its constraints. -/
  | bootstrapMismatch (position : Nat)
  /-- The inferred types violate the constraints. -/
  | constraintViolation
  deriving DecidableEq, Repr

/-- The text of a failure. -/
def InferenceFailure.message : InferenceFailure → String
  | .incompatibleArgument index => s!"argument {index} is not assignable to its parameter"
  | .incompatibleReturn => "return type is not assignable to the expected result type"
  | .unmatchedParameter index => s!"argument {index} does not match its parameter template"
  | .unmatchedReturn => "expected result type does not match the return template"
  | .unfixable position => s!"type parameter {position} has conflicting bounds"
  | .unresolved remaining => s!"{remaining} type parameter(s) could not be inferred"
  | .bootstrapMismatch position => s!"type parameter {position} does not satisfy its constraint"
  | .constraintViolation => "inferred types violate the declared constraints"

/-- Steps of an inference call. What was recorded before a failure stays. -/
abbrev InferM := ExceptT InferenceFailure (StateT InferredBounds Query)

namespace Inference

variable (store : Store) (signature : Signature)

/-- Whether an argument type is accepted where `target` is declared. -/
def compatible (source target : Handle) : Query Bool := do
  if ← store.isAssignable source target then
    return true
  else if ← store.isSpecialCastSource source then
    store.canSpecialCast source target
  else
    return false

/-- Matches a type against a template and records bounds. -/
def collect (source target : Handle) (flow : Flow) : InferM Bool := do
  let (matched, bounds) ←
    Collection.collect store signature source target flow (← get).bounds
  modify fun inferred => { inferred with bounds }
  return matched

/-- Checks that a concrete parameter accepts its argument. -/
def checkParameter (param : Parameter) (arg : Handle) (index : Nat) : InferM Unit := do
  let template ← Collection.enclosingArgument store signature param.type
  if ← store.isOpen template then
    return
  else if ← compatible store arg template then
    return
  else
    throw (.incompatibleArgument index)

/-- Checks that the expected result accepts a concrete return type. -/
def checkReturn (expected : Handle) : InferM Unit := do
  match signature.returns with
  | none => throw .incompatibleReturn
  | some returns =>
      let template ← Collection.enclosingArgument store signature returns
      if ← store.isOpen template then
        return
      else if ← compatible store template expected then
        return
      else
        throw .incompatibleReturn

/-- The wrapped type if `wrapped` wraps optional values and `other` does not. -/
def unwrap? (wrapped other : Handle) : Query (Option Handle) := do
  if ← store.isOptionalWrapper wrapped then
    if ← store.isOptionalWrapper other then
      return none
    else
      match ← store.arguments wrapped with
      | [inner] => return some inner
      | _ => return none
  else
    return none

/-- Matches the template of a parameter against its argument. By-reference parameters, and optional
parameters that get an unwrapped argument, are matched exactly. -/
def collectParameter (param : Parameter) (arg : Handle) (index : Nat) : InferM Unit := do
  let template ← Collection.enclosingArgument store signature param.type
  if ← store.isOpen template then
    let (target, flow) ← match ← unwrap? store template arg with
      | some inner => pure (inner, Flow.invariant)
      | none => pure (template, Flow.covariant)
    let flow := if param.mode.isByRef then .invariant else flow
    if ← collect store signature arg target flow then
      return
    else
      throw (.unmatchedParameter index)
  else
    return

/-- Matches the return template against the expected result. -/
def collectReturn (expected returns : Handle) : InferM Unit := do
  let (source, flow) ← match ← unwrap? store expected returns with
    | some inner => pure (inner, Flow.invariant)
    | none => pure (expected, Flow.contravariant)
  if ← collect store signature source returns flow then
    return
  else
    throw .unmatchedReturn

/-- Checks the concrete positions and collects bounds from the others. There must be an argument
type for each parameter; the one after them is the expected result, and more are ignored. -/
def collectBounds (args : List Handle) : InferM Unit := do
  if args.length < signature.params.length then
    throwThe Fault (.tooFewArguments signature.params.length args.length)
  else
    let positions := (signature.params.zip args).zipIdx
    let expected? := args[signature.params.length]?
    positions.forM fun ((param, arg), index) => checkParameter store signature param arg index
    if let some expected := expected? then
      checkReturn store signature expected
    positions.forM fun ((param, arg), index) => collectParameter store signature param arg index
    if let (some expected, some returns) := (expected?, signature.returns) then
      collectReturn store signature expected returns

/-- Fixes the type parameter at `position` from its bounds, replacing an earlier result. -/
def fixAt (breakEarly : Bool) (position : Nat) : InferM Unit := do
  let bounds := (← get).bounds[position]?.getD {}
  let fixed ← bounds.fix? store.isAssignable
  modify fun inferred => { inferred with fixed := inferred.fixed.set position fixed }
  if fixed.isNone && breakEarly then
    throw (.unfixable position)

/-- Fixes every type parameter from its bounds. With `breakEarly` the first one that cannot be
fixed ends the pass. -/
def fixAll (breakEarly : Bool) : InferM Unit := do
  (List.range (← get).typeParams.length).forM (fixAt store breakEarly)
  let remaining := (← get).unresolved
  if remaining ≠ 0 then
    throw (.unresolved remaining)

/-- Matches the constraint targets of the parameter at `position`, if it is fixed, against its
fixed type. -/
def feedConstraints (position : Nat) : InferM Unit := do
  let inferred ← get
  match inferred.fixed[position]?, inferred.typeParams[position]? with
  | some (some fixed), some param =>
      match ← store.param? param with
      | some info =>
          info.constraintTargets.forM fun target => do
            if ← collect store signature fixed target .covariant then
              return
            else
              throw (.bootstrapMismatch position)
      | none => return
  | _, _ => return

/-- Passes of the bootstrap: feed the constraints of fixed parameters, fix all again, and go on as
long as that leaves fewer parameters without a type. -/
def bootstrapPasses : Nat → InferM Unit
  | 0 => throwThe Fault .outOfFuel
  | passes + 1 => do
      let before := (← get).unresolved
      (List.range (← get).typeParams.length).forM (feedConstraints store signature)
      tryCatch (fixAll store false) fun _ => do
        let after := (← get).unresolved
        if before ≤ after then
          throw (.unresolved after)
        else
          bootstrapPasses passes

/-- Fixes further parameters from the constraints. Every pass but the last leaves fewer parameters
without a type, so there are never more passes than such parameters, and one. -/
def bootstrap : InferM Unit := do
  bootstrapPasses store signature ((← get).unresolved + 1)

/-- The whole inference. -/
def infer (args : List Handle) (options : InferenceOptions) : InferM (List Handle) := do
  collectBounds store signature args
  tryCatch (fixAll store (!options.bootstrapFromConstraints)) fun failure => do
    if options.bootstrapFromConstraints then
      bootstrap store signature
    else
      throw failure
  let inferred ← get
  match inferred.fixedTypes? with
  | none => throw (.unresolved inferred.unresolved)
  | some types =>
      if options.skipConstraintCheck then
        return types
      else if ← store.satisfiesConstraints (.callable signature) types then
        return types
      else
        throw .constraintViolation

/-- Runs steps of an inference call from given bounds. -/
def run {α : Type} (steps : InferM α) (inferred : InferredBounds) :
    Query (Except InferenceFailure α × InferredBounds) :=
  StateT.run (ExceptT.run steps) inferred

/-- Runs steps of an inference call from no bounds. -/
def runFresh {α : Type} (steps : InferM α) :
    Query (Except InferenceFailure α × InferredBounds) :=
  run steps (.ofTypeParams signature.typeParams)

end Inference

namespace Store

/-- The type arguments of a call, if they can be inferred. -/
def inferTypes? (store : Store) (signature : Signature) (args : List Handle)
    (options : InferenceOptions) : Query (Option (List Handle)) := do
  let (outcome, _) ← Inference.runFresh signature (Inference.infer store signature args options)
  return outcome.toOption

/-- The bounds of the type parameters of a call, none of them fixed. -/
def inferBounds? (store : Store) (signature : Signature) (args : List Handle) :
    Query (Option InferredBounds) := do
  match ← Inference.runFresh signature (Inference.collectBounds store signature args) with
  | (.ok (), inferred) => return some inferred
  | (.error _, _) => return none

end Store

end NominalGenerics
