import NominalGenerics.Assignability
import NominalGenerics.Bounds

/-!
# Collection of bounds

A concrete source type is matched against a target template of a callable. Where the template is
one of the callable's type parameters the source is recorded as a witness, on the side that the
flow of the position selects. Arrays are matched by their elements; other types through the
instantiation of one side's definition in the hierarchy of the other. Parts of the template that
mention no parameter are compared by assignability.

Recording never fails. The answer `false` means that the shapes cannot match at all, or that the
template is nested too deep; witnesses recorded before that stay.
-/

namespace NominalGenerics

/-- The bound sets of the type parameters, by position, and the depth of the match. -/
structure Collector where
  bounds : List BoundSet
  depth : DepthCounter
  deriving DecidableEq, Repr

/-- Matching that records bounds. -/
abbrev CollectM := StateT Collector Query

namespace Collection

variable (store : Store) (signature : Signature)

/-- The argument of the declaring type bound to `type`, if that is a parameter of the enclosing
definition, and `type` itself otherwise. -/
def enclosingArgument (type : Handle) : Query Handle := do
  match ← store.param? type, signature.declaringType with
  | some info, some declaring =>
      match info.owner with
      | .type definition =>
          if (← store.definition? declaring) = some definition then
            return (← store.arguments declaring)[info.position]?.getD type
          else
            return type
      | .callable _ => return type
  | _, _ => return type

/-- Records a witness for the type parameter at `position`, if there is one. -/
def record (position : Nat) (source : Handle) (flow : Flow) : CollectM Bool := do
  if position < (← get).bounds.length then
    modify fun collector =>
      { collector with bounds := collector.bounds.modify position (·.add source flow) }
    return true
  else
    return false

/-- Relates two types by assignability in the direction of the flow. -/
def relateConcrete (source target : Handle) : Flow → Query Bool
  | .covariant => store.isAssignable source target
  | .contravariant => store.isAssignable target source
  | .invariant => return source == target

/-- The element of a type seen as a container of a given rank: an array of that rank or, for rank
one, an instantiation of a sequence interface. -/
def containerElement? (type : Handle) (rank : Nat) : Query (Option Handle) := do
  match ← store.array? type with
  | some (element, arrayRank) => return if arrayRank = rank then some element else none
  | none =>
      if rank ≠ 1 then
        return none
      else if ← Assignability.isSequenceInstance store type then
        match ← store.arguments type with
        | [element] => return some element
        | _ => return none
      else
        return none

/-- Matches two types of which at least one is an array. `collect` matches the elements. -/
def arrays (collect : Handle → Handle → Flow → CollectM Bool) (source target : Handle)
    (flow : Flow) : CollectM Bool := do
  match flow with
  | .invariant =>
      match ← store.array? source, ← store.array? target with
      | some (sourceElement, sourceRank), some (targetElement, targetRank) =>
          if sourceRank = targetRank then
            collect sourceElement targetElement .invariant
          else
            return false
      | _, _ => return false
  | _ =>
      -- The more derived side has to be the array.
      match ← store.array? (if flow = .contravariant then target else source) with
      | none => return false
      | some (_, rank) =>
          match ← containerElement? store source rank, ← containerElement? store target rank with
          | some sourceElement, some targetElement =>
              let elementFlow := if ← store.isValueType sourceElement then .invariant else flow
              collect sourceElement targetElement elementFlow
          | _, _ => return false

/-- Matches the argument at one position of an instantiation of `definition`. -/
def argument (collect : Handle → Handle → Flow → CollectM Bool) (definition : Handle)
    (flow : Flow) (source target : Handle) (position : Nat) : CollectM Bool := do
  let declared ← store.declaredVariance definition position
  let argumentFlow := flow.combine declared (← store.isValueType source)
  if ← store.isOpen target then
    collect source target argumentFlow
  else
    relateConcrete store source target argumentFlow

/-- Matches the arguments of two instantiations of `definition` pairwise. -/
def arguments (collect : Handle → Handle → Flow → CollectM Bool) (definition : Handle)
    (sourceArgs targetArgs : List Handle) (flow : Flow) : CollectM Bool :=
  if sourceArgs.length = targetArgs.length then
    (sourceArgs.zip targetArgs).zipIdx.allM fun ((source, target), position) =>
      argument store collect definition flow source target position
  else
    return false

/-- Matches through the hierarchy: the more derived side is searched for an instantiation of the
other side's definition. An ambiguous search matches without recording anything. -/
def implementation (collect : Handle → Handle → Flow → CollectM Bool) (source target : Handle)
    (flow : Flow) : CollectM Bool := do
  let sourceDefinition ← store.definitionOrSelf source
  let targetDefinition ← store.definitionOrSelf target
  match flow with
  | .invariant =>
      if sourceDefinition = targetDefinition then
        arguments store collect targetDefinition (← store.arguments source)
          (← store.arguments target) flow
      else
        return false
  | .covariant =>
      match ← store.findImplementation source targetDefinition with
      | .found matched =>
          arguments store collect targetDefinition (← store.arguments matched)
            (← store.arguments target) flow
      | .ambiguous _ => return true
      | .notFound => return false
  | .contravariant =>
      match ← store.findImplementation target sourceDefinition with
      | .found matched =>
          arguments store collect sourceDefinition (← store.arguments source)
            (← store.arguments matched) flow
      | .ambiguous _ => return true
      | .notFound => return false

/-- Matches by the shape of the template. A parameter of the enclosing type stands for its bound
argument. -/
def step (collect : Handle → Handle → Flow → CollectM Bool) (source target : Handle)
    (flow : Flow) : CollectM Bool := do
  match ← store.param? target with
  | some info =>
      if info.owner = .callable signature.id then
        record info.position source flow
      else
        relateConcrete store source (← enclosingArgument store signature target) flow
  | none =>
      if ← store.isOpen target then
        if (← store.array? source).isSome || (← store.array? target).isSome then
          arrays store collect source target flow
        else
          implementation store collect source target flow
      else
        relateConcrete store source target flow

/-- Matches one level deeper, unless the depth limit is reached. -/
def visit (collect : Handle → Handle → Flow → CollectM Bool) (source target : Handle)
    (flow : Flow) : CollectM Bool := do
  let (entered, depth) := (← get).depth.enter
  modify fun collector => { collector with depth }
  if entered then
    let matched ← step store signature collect source target flow
    let depth ← (← get).depth.leave
    modify fun collector => { collector with depth }
    return matched
  else
    return false

/-- Matches `source` against `target`. The fuel is the depth that the counter still allows. -/
def collectWithin : Nat → (source target : Handle) → Flow → CollectM Bool
  | 0 => visit store signature fun _ _ _ => throw .outOfFuel
  | depth + 1 => visit store signature (collectWithin depth)

/-- Matches `source` against `target` and records witnesses. -/
def collect (source target : Handle) (flow : Flow) (bounds : List BoundSet) :
    Query (Bool × List BoundSet) := do
  let limits := Limits.collection
  let (matched, collector) ←
    (collectWithin store signature limits.maxDepth source target flow).run
      { bounds, depth := .ofLimits limits }
  collector.depth.release
  return (matched, collector.bounds)

end Collection

end NominalGenerics
