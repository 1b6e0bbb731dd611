import NominalGenerics.Guard
import NominalGenerics.Store.Basic

/-!
# Walks up the hierarchy

The supertypes of a type are its base chain, which starts at the type itself, and its interfaces.
An instantiation of a definition is searched on the chain first, where there is at most one, and
then among the interfaces, where two different ones make the search ambiguous.
-/

namespace NominalGenerics

/-- Outcome of a search for an instantiation of a definition. -/
inductive Implementation where
  | found (type : Handle)
  /-- Two or more different instantiations. -/
  | ambiguous (types : List Handle)
  | notFound
  deriving DecidableEq, Repr

namespace Store

/-- The base chain from `type`, cut at the first type already `seen` and at `room` types. -/
def chainFrom (store : Store) : (room : Nat) → (seen : List Handle) → Handle → Query (List Handle)
  | 0, _, _ => return []
  | room + 1, seen, type =>
      if type ∈ seen then return []
      else do
        match ← store.base? type with
        | some base => return type :: (← store.chainFrom room (type :: seen) base)
        | none => return [type]

/-- A type followed by its bases. -/
def baseChain (store : Store) (type : Handle) : Query (List Handle) :=
  store.chainFrom maxBaseChainLength [] type

/-- The base chain of a type followed by its interfaces. -/
def supertypes (store : Store) (type : Handle) : Query (List Handle) :=
  return (← store.baseChain type) ++ (← store.interfaces type)

/-- Searches the hierarchy of `type` for an instantiation of `definition`. -/
def findImplementation (store : Store) (type definition : Handle) : Query Implementation := do
  let isInstance (candidate : Handle) : Query Bool :=
    return (← store.definitionOrSelf candidate) == definition
  match ← Query.first? isInstance (← store.baseChain type) with
  | some found => return .found found
  | none =>
      if definition == store.root then
        return .found definition
      else
        match (← Query.select isInstance (← store.interfaces type)).eraseDups with
        | [] => return .notFound
        | [found] => return .found found
        | found => return .ambiguous found

end Store

end NominalGenerics
