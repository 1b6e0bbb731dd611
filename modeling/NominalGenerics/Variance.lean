/-!
# Variance

A type parameter of a generic definition is declared with a variance. During inference a position
of a call has a flow, which says on which side of the inferred type a witness found there lies.
-/

namespace NominalGenerics

/-- Variance with which a type parameter is declared. -/
inductive Variance where
  | invariant
  | covariant
  | contravariant
  deriving DecidableEq, Repr, Inhabited

/-- The written form of a variance. -/
def Variance.name : Variance → String
  | .invariant => "invariant"
  | .covariant => "covariant"
  | .contravariant => "contravariant"

/-- Direction of a position during inference: a witness at a covariant position is a lower bound,
at a contravariant one an upper bound, and at an invariant one it is exact. -/
inductive Flow where
  | invariant
  | covariant
  | contravariant
  deriving DecidableEq, Repr, Inhabited

/-- The written form of a flow. -/
def Flow.name : Flow → String
  | .invariant => "invariant"
  | .covariant => "covariant"
  | .contravariant => "contravariant"

/-- Flow of a type argument inside a position of flow `outer`. Contravariance flips the direction;
invariance on either side, or an argument that is a value type, leaves identity only. -/
def Flow.combine (outer : Flow) (declared : Variance) (valueTypeArgument : Bool) : Flow :=
  if valueTypeArgument then .invariant
  else
    match outer, declared with
    | .invariant, _ | _, .invariant => .invariant
    | .covariant, .covariant | .contravariant, .contravariant => .covariant
    | .covariant, .contravariant | .contravariant, .covariant => .contravariant

end NominalGenerics
