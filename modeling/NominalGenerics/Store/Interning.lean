import NominalGenerics.Store.Basic

/-!
# Interning of instantiations and arrays

Two handles denote the same type only if they are equal. Instantiations and arrays are therefore
interned: building one twice gives the same handle, and a definition applied to its own parameters
is the definition itself. Each new one waits in `Store.pending` for its supertypes.
-/

namespace NominalGenerics.Store

/-- Adds a type under the next handle. -/
def push (entry : Entry) : StoreM Handle :=
  modifyGet fun store => (store.types.size, { store with types := store.types.push entry })

/-- Changes the type that a handle denotes. -/
def modifyEntry (type : Handle) (change : Entry → Entry) : StoreM Unit := do
  discard <| (← get).entry type
  modify fun store => { store with types := store.types.modify type change }

/-- The written name of an instantiation. -/
def instantiationName (definition : String) (args : List String) : String :=
  definition ++ "<" ++ ", ".intercalate args ++ ">"

/-- The written name of an array. -/
def arrayName (element : String) (rank : Nat) : String :=
  element ++ "[" ++ String.ofList (List.replicate (rank - 1) ',') ++ "]"

/-- The entry of a new instantiation. It has the flags that its definition has now. -/
def instantiationEntry (definition : Handle) (declared : Entry) (args : List Handle)
    (argEntries : List Entry) : Entry where
  name := instantiationName declared.name (argEntries.map (·.name))
  flags := declared.flags
  shape := .instantiation definition args
  isOpen := argEntries.any (·.isOpen)
  nesting := 1 + (argEntries.map (·.nesting)).foldl max 0

/-- The entry of a new array. -/
def arrayEntry (element : Handle) (elementEntry : Entry) (rank : Nat) : Entry where
  name := arrayName elementEntry.name rank
  flags := {}
  shape := .array element rank
  isOpen := elementEntry.isOpen
  nesting := elementEntry.nesting + 1

/-- The instantiation of `definition` at `args`. A type that is no definition, or one of another
arity, is left as it is. -/
def internInstance (definition : Handle) (args : List Handle) : StoreM Handle := do
  let store ← get
  let declared ← store.entry definition
  match declared.shape with
  | .definition params =>
      if params.length ≠ args.length ∨ params = args then
        return definition
      else
        match store.instances.lookup (definition, args) with
        | some type => return type
        | none =>
            let argEntries ← args.mapM fun arg => store.entry arg
            let type ← push (instantiationEntry definition declared args argEntries)
            modify fun store =>
              { store with
                instances := ((definition, args), type) :: store.instances
                pending := type :: store.pending }
            return type
  | _ => return definition

/-- The array of `element` of a given rank. -/
def internArray (element : Handle) (rank : Nat) : StoreM Handle := do
  let store ← get
  match store.arrays.lookup (element, rank) with
  | some type => return type
  | none =>
      if rank = 0 then
        throw .zeroRank
      else
        let elementEntry ← store.entry element
        let type ← push (arrayEntry element elementEntry rank)
        modify fun store =>
          { store with
            arrays := ((element, rank), type) :: store.arrays
            pending := type :: store.pending }
        return type

/-- Replaces `params` by `args` throughout a type of at most the given height. -/
def substituteWithin (params args : List Handle) : Nat → Handle → StoreM Handle
  | 0, _ => throw .outOfFuel
  | height + 1, type =>
      match params.idxOf? type with
      | some position =>
          match args[position]? with
          | some arg => return arg
          | none => throw (.missingArgument position)
      | none => do
          match (← (← get).entry type).shape with
          | .instantiation definition inner =>
              let replaced ← inner.mapM (substituteWithin params args height)
              if replaced = inner then return type else internInstance definition replaced
          | .array element rank =>
              let replaced ← substituteWithin params args height element
              if replaced = element then return type else internArray replaced rank
          | _ => return type

/-- Replaces `params` by `args` throughout a type. Parts of a type have smaller handles than the
type, so its handle bounds its height. -/
def substitute (params args : List Handle) (type : Handle) : StoreM Handle :=
  substituteWithin params args (type + 1) type

end NominalGenerics.Store
