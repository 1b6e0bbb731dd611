import NominalGenerics.Store.Basic

/-!
# Bounds

During inference each type parameter has a bound set: lower witnesses, which must be assignable to
the parameter, upper witnesses, to which it must be assignable, and exact witnesses, which it must
equal. Fixing a set picks one type from it:

* the exact witness, if there is exactly one and all others agree with it;
* without exact witnesses, the first upper witness that is below all upper witnesses, if all lower
  witnesses are below it;
* without such an upper witness, the first lower witness that is above all lower witnesses, if it is
  below all upper witnesses.
-/

namespace NominalGenerics

/-- Witnesses in the order in which they were recorded. -/
abbrev Witnesses := List Handle

namespace Witnesses

/-- Records a witness. Recording the only witness again changes nothing. -/
def add (witnesses : Witnesses) (type : Handle) : Witnesses :=
  if witnesses = [type] then witnesses else witnesses ++ [type]

/-- Whether `type` is assignable to every witness. -/
def allAbove (assignable : Handle → Handle → Query Bool) (witnesses : Witnesses)
    (type : Handle) : Query Bool :=
  witnesses.allM fun witness => assignable type witness

/-- Whether every witness is assignable to `type`. -/
def allBelow (assignable : Handle → Handle → Query Bool) (witnesses : Witnesses)
    (type : Handle) : Query Bool :=
  witnesses.allM fun witness => assignable witness type

end Witnesses

/-- The bounds of one type parameter. -/
structure BoundSet where
  lower : Witnesses := []
  upper : Witnesses := []
  exact : Witnesses := []
  deriving DecidableEq, Repr, Inhabited

namespace BoundSet

/-- Records a witness on the side that the flow selects. -/
def add (bounds : BoundSet) (type : Handle) : Flow → BoundSet
  | .contravariant => { bounds with upper := bounds.upper.add type }
  | .covariant => { bounds with lower := bounds.lower.add type }
  | .invariant => { bounds with exact := bounds.exact.add type }

/-- Whether there is no witness at all. -/
def isEmpty (bounds : BoundSet) : Bool :=
  bounds.lower.isEmpty && bounds.upper.isEmpty && bounds.exact.isEmpty

/-- Reduces the bounds to one type under a given assignability. -/
def fix? (assignable : Handle → Handle → Query Bool) (bounds : BoundSet) :
    Query (Option Handle) := do
  match bounds.exact with
  | [exact] =>
      if ← bounds.upper.allAbove assignable exact then
        if ← bounds.lower.allBelow assignable exact then return some exact else return none
      else
        return none
  | _ :: _ :: _ => return none
  | [] =>
      match ← Query.first? (bounds.upper.allAbove assignable) bounds.upper with
      | some upper =>
          if ← bounds.lower.allBelow assignable upper then return some upper else return none
      | none =>
          match ← Query.first? (bounds.lower.allBelow assignable) bounds.lower with
          | some lower =>
              if ← bounds.upper.allAbove assignable lower then return some lower else return none
          | none => return none

/-- The written form of a bound set, with the names of its witnesses. -/
def render (store : Store) (bounds : BoundSet) : Query String := do
  let side (label : String) (witnesses : Witnesses) : Query String :=
    return label ++ "=\x7b" ++ ", ".intercalate (← witnesses.mapM store.typeName) ++ "\x7d"
  return " ".intercalate
    [← side "lower" bounds.lower, ← side "upper" bounds.upper, ← side "exact" bounds.exact]

end BoundSet

/-- The bounds of all type parameters of a callable, and the types fixed so far. -/
structure InferredBounds where
  typeParams : List Handle
  bounds : List BoundSet
  fixed : List (Option Handle)
  deriving DecidableEq, Repr

namespace InferredBounds

/-- No bounds and no fixed types. -/
def ofTypeParams (typeParams : List Handle) : InferredBounds where
  typeParams := typeParams
  bounds := typeParams.map fun _ => {}
  fixed := typeParams.map fun _ => none

/-- The number of type parameters without a fixed type. -/
def unresolved (inferred : InferredBounds) : Nat :=
  inferred.fixed.countP (·.isNone)

/-- The fixed types, if every parameter has one. -/
def fixedTypes? (inferred : InferredBounds) : Option (List Handle) :=
  inferred.fixed.mapM id

end InferredBounds

end NominalGenerics
