import NominalGenerics.Store.Basic

/-!
# Substitutions and identity

A substitution binds the type parameters of up to two declarations: a generic type and a generic
callable. Types are related under it without being rebuilt: a bound parameter is replaced when a
walk meets it. `Substitution.equal` is identity of types in this sense.
-/

namespace NominalGenerics

/-- Bindings for the parameters of a generic definition and of a callable, by position. -/
structure Substitution where
  /-- The definition whose parameters `typeArgs` binds. -/
  typeOwner : Option Handle := none
  typeArgs : List Handle := []
  callable : Option CallableId := none
  callableArgs : List Handle := []
  deriving DecidableEq, Repr

namespace Substitution

/-- The substitution that binds nothing. -/
def empty : Substitution := {}

/-- The argument bound to a parameter. -/
def lookup? (sub : Substitution) (info : TypeParam) : Option Handle :=
  match info.owner with
  | .type definition =>
      if sub.typeOwner = some definition then sub.typeArgs[info.position]? else none
  | .callable id =>
      if sub.callable = some id then sub.callableArgs[info.position]? else none

/-- Replaces a bound parameter by its argument and leaves every other type as it is. -/
def resolve (sub : Substitution) (store : Store) (type : Handle) : Query Handle :=
  return ((← store.param? type).bind sub.lookup?).getD type

/-- Identity of two types under the substitution, for walks of at most the given length. Types
that mention no parameter are identical only if their handles are. -/
def equalWithin (sub : Substitution) (store : Store) : Nat → Handle → Handle → Query Bool
  | 0, _, _ => throw .outOfFuel
  | fuel + 1, a, b => do
      let a ← sub.resolve store a
      let b ← sub.resolve store b
      if a = b then
        return true
      else if !(← store.isOpen a) && !(← store.isOpen b) then
        return false
      else
        match ← store.array? a, ← store.array? b with
        | some (aElement, aRank), some (bElement, bRank) =>
            if aRank = bRank then equalWithin sub store fuel aElement bElement else return false
        | _, _ =>
            match ← store.definition? a, ← store.definition? b with
            | some aDefinition, some bDefinition =>
                if aDefinition = bDefinition then
                  let aArgs ← store.arguments a
                  let bArgs ← store.arguments b
                  if aArgs.length = bArgs.length then
                    (aArgs.zip bArgs).allM fun (x, y) => equalWithin sub store fuel x y
                  else
                    return false
                else
                  return false
            | _, _ => return false

/-- Identity of two types under the substitution. A walk that is longer than there are pairs of
types meets a pair again below itself, and then it has no end. -/
def equal (sub : Substitution) (store : Store) (a b : Handle) : Query Bool :=
  sub.equalWithin store (store.size * store.size + 1) a b

end Substitution

end NominalGenerics
