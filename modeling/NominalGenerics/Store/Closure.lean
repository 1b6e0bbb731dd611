import NominalGenerics.Guard
import NominalGenerics.Store.Interning

/-!
# Closure of supertypes

The supertypes of an instantiation are those declared on its definition with the arguments put in
for the parameters. Putting them in may intern further types, so pending types are expanded until
none is left; beyond `maxInstantiationDepth` an instantiation has no supertypes, which keeps the
closure finite. After that the interface set of each expanded type is collected from its direct
interfaces and its base. Declarations may be cyclic, so that walk is guarded.
-/

namespace NominalGenerics.Store

/-- Computes the direct supertypes of an instantiation or array. -/
def expand (type : Handle) : StoreM Unit := do
  let store ← get
  let entry ← store.entry type
  match entry.shape with
  | .instantiation definition args =>
      if maxInstantiationDepth < entry.nesting then
        return
      else
        let declared ← store.entry definition
        match declared.shape with
        | .definition params =>
            let base ← declared.base.mapM (substitute params args)
            let directInterfaces ← declared.directInterfaces.mapM (substitute params args)
            modifyEntry type fun entry => { entry with base, directInterfaces }
        | _ => return
  | .array _ _ =>
      modifyEntry type fun entry => { entry with base := some (store.arrayRoot.getD store.root) }
  | _ => return

/-- Expands pending types, latest first, until none is left, and lists them in that order. -/
def drain : Nat → StoreM (List Handle)
  | 0 => do
      if (← get).pending.isEmpty then return [] else throw .outOfFuel
  | fuel + 1 => do
      match (← get).pending with
      | [] => return []
      | type :: rest =>
          modify fun store => { store with pending := rest }
          expand type
          return type :: (← drain fuel)

/-- The list with `type` at its end unless it is there already. -/
def appendNew (types : List Handle) (type : Handle) : List Handle :=
  if type ∈ types then types else types ++ [type]

/-- Walks over supertypes, guarded by the types on the path. -/
abbrev ClosureM := StateT (Guard Handle) StoreM

/-- Collects the interface set of a type that is not closed yet: each direct interface followed by
its own interfaces, then the interfaces of the base. `close` closes a supertype. -/
def closeStep (close : Handle → ClosureM Unit) (type : Handle) : ClosureM Unit := do
  let entry ← (← getThe Store).entry type
  if entry.closed then
    return
  else
    match ← modifyGetThe (Guard Handle) (·.enter type) with
    | .entered =>
        let direct ← entry.directInterfaces.foldlM
          (fun all interface => do
            close interface
            let inherited ← (← getThe Store).interfaces interface
            return inherited.foldl appendNew (appendNew all interface))
          []
        let all ← match entry.base with
          | some base => do
              close base
              let inherited ← (← getThe Store).interfaces base
              pure (inherited.foldl appendNew direct)
          | none => pure direct
        liftM <| modifyEntry type fun entry => { entry with interfaces := all, closed := true }
        set (← (← getThe (Guard Handle)).leave type)
    | _ => return

/-- Closes the interface set of a type. The fuel is the depth that the guard still allows. -/
def closeInterfaces : Nat → Handle → ClosureM Unit
  | 0 => closeStep fun _ => throw .outOfFuel
  | depth + 1 => closeStep (closeInterfaces depth)

/-- Closes the interface sets of some types under one guard. -/
def closeAll (types : List Handle) : StoreM Unit := do
  let limits := Limits.supertypeClosure
  let (_, guard) ← (types.forM (closeInterfaces limits.maxDepth)).run (Guard.ofLimits limits)
  guard.release

/-- The number of handles that a 32-bit word can tell apart. No store outgrows it, and each type
is pending once. -/
def handleSpace : Nat := 0x100000000

/-- Expands every pending type, then closes the interface sets of the types expanded. -/
def close : StoreM Unit := do
  closeAll (← drain handleSpace)

/-- Closes the pending types if the declarations are complete. -/
def closeIfFinished : StoreM Unit := do
  if (← get).finished then close

/-- The instantiation of `definition` at `args`, with its supertypes on a finished store. -/
def instantiate (definition : Handle) (args : List Handle) : StoreM Handle := do
  let type ← internInstance definition args
  closeIfFinished
  return type

/-- The array of `element`, with its supertypes on a finished store. Ranks start at one. -/
def arrayOf (element : Handle) (rank : Nat) : StoreM Handle := do
  let type ← internArray element (max rank 1)
  closeIfFinished
  return type

end NominalGenerics.Store
