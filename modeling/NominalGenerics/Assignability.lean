import NominalGenerics.Guard
import NominalGenerics.Hierarchy
import NominalGenerics.Substitution

/-!
# Assignability

A value of `source` may be stored in a location of `target` if

* the types are identical, or `target` is the universal root;
* `target` wraps optional values of `source`;
* both are arrays of one rank with compatible elements, or `source` is an array of rank one and
  `target` a sequence interface of a compatible element;
* a supertype of `source` instantiates the definition of `target` with compatible arguments.

An argument is compatible if it is identical, or, where the parameter is variant, if both sides are
reference types and assignable in the direction of the variance. Array elements are covariant. Value
types are never converted inside another type.

The walk is guarded by the pairs of types on its path: a pair met again below itself is refused,
since no derivation needs it.
-/

namespace NominalGenerics

/-- The guard of an assignability walk. -/
abbrev PairGuard := Guard (Handle × Handle)

/-- Walks that relate pairs of types under a guard. -/
abbrev RelationM := StateT PairGuard Query

namespace Assignability

variable (store : Store) (sub : Substitution)

/-- Whether a type is an instantiation of a sequence interface. -/
def isSequenceInstance (type : Handle) : Query Bool := do
  match ← store.definition? type with
  | some definition => return definition != type && store.isSequenceInterface definition
  | none => return false

/-- Compatibility of array elements and of covariant arguments. `rel` relates two types. -/
def element (rel : Handle → Handle → RelationM Bool) (source target : Handle) :
    RelationM Bool := do
  if ← sub.equal store source target then
    return true
  else
    let source ← sub.resolve store source
    let target ← sub.resolve store target
    if ← store.isReferenceType source then
      if ← store.isReferenceType target then
        rel source target
      else
        return false
    else
      return false

/-- Compatibility of the argument at one position of a definition. -/
def argument (rel : Handle → Handle → RelationM Bool) (definition : Handle)
    (source target : Handle) (position : Nat) : RelationM Bool := do
  match ← store.declaredVariance definition position with
  | .invariant => sub.equal store source target
  | .covariant => element store sub rel source target
  | .contravariant => element store sub rel target source

/-- Compatibility of the arguments of two instantiations of a definition. -/
def arguments (rel : Handle → Handle → RelationM Bool) (definition : Handle)
    (source target : Handle) : RelationM Bool := do
  let sourceArgs ← store.arguments source
  let targetArgs ← store.arguments target
  if sourceArgs.length = targetArgs.length then
    (sourceArgs.zip targetArgs).zipIdx.allM fun ((s, t), position) =>
      argument store sub rel definition s t position
  else
    return false

/-- Whether `target` wraps optional values of `source`. -/
def wraps (source target : Handle) : Query Bool := do
  if ← store.isOptionalWrapper target then
    match ← store.arguments target with
    | [inner] => sub.equal store source inner
    | _ => return false
  else
    return false

/-- Whether `target` is a sequence of elements compatible with `sourceElement`. -/
def sequence (rel : Handle → Handle → RelationM Bool) (sourceElement target : Handle) :
    RelationM Bool := do
  if ← isSequenceInstance store target then
    match ← store.arguments target with
    | [targetElement] => element store sub rel sourceElement targetElement
    | _ => return false
  else
    return false

/-- Whether a supertype of `source` instantiates the definition of `target` compatibly. -/
def nominal (rel : Handle → Handle → RelationM Bool) (source target : Handle) :
    RelationM Bool := do
  let definition ← store.definitionOrSelf target
  (← store.supertypes source).anyM fun candidate => do
    if (← store.definitionOrSelf candidate) = definition then
      arguments store sub rel definition candidate target
    else
      return false

/-- The rules for two types that are not identical. -/
def rules (rel : Handle → Handle → RelationM Bool) (source target : Handle) :
    RelationM Bool := do
  if target = store.root then
    return true
  else if ← wraps store sub source target then
    return true
  else
    match ← store.array? source, ← store.array? target with
    | some (sourceElement, sourceRank), some (targetElement, targetRank) =>
        if sourceRank = targetRank then
          element store sub rel sourceElement targetElement
        else
          return false
    | some (sourceElement, sourceRank), none =>
        if sourceRank = 1 then
          if ← sequence store sub rel sourceElement target then
            return true
          else
            nominal store sub rel source target
        else
          nominal store sub rel source target
    | none, some _ => return false
    | none, none => nominal store sub rel source target

/-- Resolves both types and, unless they are identical, applies the rules if the guard admits the
pair. -/
def step (rel : Handle → Handle → RelationM Bool) (source target : Handle) :
    RelationM Bool := do
  let source ← sub.resolve store source
  let target ← sub.resolve store target
  if source = target then
    return true
  else
    match ← modifyGet (·.enter (source, target)) with
    | .entered =>
        let answer ← rules store sub rel source target
        set (← (← get).leave (source, target))
        return answer
    | _ => return false

/-- Assignability under a substitution. The fuel is the depth that the guard still allows. -/
def relate : Nat → Handle → Handle → RelationM Bool
  | 0 => step store sub fun _ _ => throw .outOfFuel
  | depth + 1 => step store sub (relate depth)

/-- Assignability under a substitution, on a guard that may have served before. -/
def check (source target : Handle) : RelationM Bool :=
  relate store sub Limits.assignability.maxDepth source target

end Assignability

/-- Runs walks on a new guard and gives the guard up. -/
def RelationM.runFresh {α : Type} (walk : RelationM α) : Query α := do
  let (answer, guard) ← walk.run (Guard.ofLimits Limits.assignability)
  guard.release
  return answer

/-- Whether a value of `source` may be stored in a location of `target`. -/
def Store.isAssignable (store : Store) (source target : Handle) : Query Bool :=
  (Assignability.check store .empty source target).runFresh

end NominalGenerics
