import NominalGenerics.Store.Closure

/-!
# Declarations

A store grows in two phases. First types are declared, with their bases, interfaces, flags and
roles. Then `finish` gives every class and value type a default base and closes all supertypes.
A finished store still takes instantiations, arrays and callables, whose supertypes are closed at
once.
-/

namespace NominalGenerics

/-- Kind of a declared type. -/
inductive TypeKind where
  /-- A reference type with a constructor without parameters. -/
  | classType
  /-- An abstract type without a base. -/
  | interfaceType
  /-- A value type. -/
  | structType
  /-- A reference type without a constructor. -/
  | delegateType
  deriving DecidableEq, Repr

/-- The flags that a declared type starts with. -/
def TypeKind.flags : TypeKind → Flags
  | .classType => { defaultConstructor := true }
  | .interfaceType => { interface := true, abstract := true }
  | .structType => { valueType := true, defaultConstructor := true }
  | .delegateType => {}

namespace Store

/-- The store that holds only the universal root type. -/
def ofRoot (name : String) : Store where
  types := #[{ name, flags := { defaultConstructor := true }, shape := .named }]

/-- Declares a type that is not generic. -/
def declare (kind : TypeKind) (name : String) : StoreM Handle :=
  push { name, flags := kind.flags, shape := .named }

/-- Adds a type parameter. It has no supertypes, so it is closed from the start. -/
def pushParam (name : String) (owner : ParamOwner) (position : Nat) (variance : Variance) :
    StoreM Handle :=
  push
    { name, flags := {}, shape := .parameter { name, owner, position, variance }
      closed := true, isOpen := true }

/-- Declares a generic definition, followed by its type parameters. -/
def declareGeneric (kind : TypeKind) (name : String) (params : List (String × Variance)) :
    StoreM Handle := do
  let definition ← push { name, flags := kind.flags, shape := .definition [] }
  let handles ← params.zipIdx.mapM fun ((param, variance), position) =>
    pushParam param (.type definition) position variance
  modifyEntry definition fun entry =>
    { entry with shape := .definition handles, isOpen := !params.isEmpty }
  return definition

/-- Declares a primitive value type. -/
def declarePrimitive (name : String) (kind : Primitive) : StoreM Handle :=
  push { name, flags := TypeKind.structType.flags, shape := .named, primitive := some kind }

/-- Declares an enum over an integral type. -/
def declareEnum (name : String) (underlying : Handle) : StoreM Handle :=
  push
    { name, flags := { TypeKind.structType.flags with enum := true }, shape := .named
      underlying := some underlying }

/-- Declares a pointer type. -/
def declarePointer (name : String) : StoreM Handle :=
  push { name, flags := { pointer := true, valueType := true }, shape := .named }

/-- Sets the base of a type. -/
def setBase (type base : Handle) : StoreM Unit :=
  modifyEntry type fun entry => { entry with base := some base }

/-- Adds a direct interface to a type. -/
def addInterface (type interface : Handle) : StoreM Unit :=
  modifyEntry type fun entry =>
    { entry with directInterfaces := appendNew entry.directInterfaces interface }

/-- Sets flags of a type. -/
def addFlags (type : Handle) (flags : Flags) : StoreM Unit :=
  modifyEntry type fun entry => { entry with flags := entry.flags.union flags }

/-- Clears flags of a type. -/
def removeFlags (type : Handle) (flags : Flags) : StoreM Unit :=
  modifyEntry type fun entry => { entry with flags := entry.flags.diff flags }

/-- Names the base of value types that declare none. -/
def setValueTypeRoot (type : Handle) : StoreM Unit :=
  modify fun store => { store with valueTypeRoot := some type }

/-- Names the base of every array. -/
def setArrayRoot (type : Handle) : StoreM Unit :=
  modify fun store => { store with arrayRoot := some type }

/-- Names the definition that wraps optional values. -/
def setOptionalWrapper (definition : Handle) : StoreM Unit :=
  modify fun store => { store with optionalWrapper := some definition }

/-- Marks a definition as implemented by arrays of rank one. -/
def addSequenceInterface (definition : Handle) : StoreM Unit :=
  modify fun store =>
    { store with sequenceInterfaces := definition :: store.sequenceInterfaces }

/-- The base of a type once declarations are complete. Declared types other than the root and the
interfaces get a base if they have none: value types the value-type root, the others the root. -/
def defaultBase (store : Store) (type : Handle) (entry : Entry) : Option Handle :=
  match entry.shape with
  | .named | .definition _ =>
      if entry.base.isSome || type == store.root || entry.flags.interface then
        entry.base
      else
        match store.valueTypeRoot with
        | some valueRoot =>
            if entry.flags.valueType && type != valueRoot then some valueRoot
            else some store.root
        | none => some store.root
  | _ => entry.base

/-- Gives every declared type its default base. -/
def withDefaultBases (store : Store) : Store :=
  { store with
    types := store.types.mapIdx fun type entry =>
      { entry with base := store.defaultBase type entry } }

/-- Completes the declarations and closes all supertypes. -/
def finish : StoreM Unit := do
  modify withDefaultBases
  close
  closeAll (List.range (← get).size)
  modify fun store => { store with finished := true }

/-- Declares a generic callable with the named type parameters. -/
def declareCallable (name : String) (typeParams : List String) : StoreM CallableId := do
  let id := (← get).callables.size
  let handles ← typeParams.zipIdx.mapM fun (param, position) =>
    pushParam param (.callable id) position .invariant
  modify fun store =>
    { store with callables := store.callables.push { id, name, typeParams := handles } }
  return id

/-- Changes the signature of a callable; one that does not exist stays so. -/
def modifySignature (id : CallableId) (change : Signature → Signature) : StoreM Unit :=
  modify fun store => { store with callables := store.callables.modify id change }

/-- Appends a parameter to a callable. -/
def addParameter (id : CallableId) (type : Handle) (mode : PassingMode) : StoreM Unit :=
  modifySignature id fun signature =>
    { signature with params := signature.params ++ [{ type, mode }] }

/-- Sets what a callable returns. -/
def setReturnType (id : CallableId) (type : Handle) : StoreM Unit :=
  modifySignature id fun signature => { signature with returns := some type }

/-- Sets the instantiation whose arguments bind the parameters of the enclosing type. -/
def setDeclaringType (id : CallableId) (type : Handle) : StoreM Unit :=
  modifySignature id fun signature => { signature with declaringType := some type }

/-- Adds a constraint to a type parameter; other types take none. -/
def addConstraint (param : Handle) (constraint : Constraint) : StoreM Unit :=
  modifyEntry param fun entry =>
    match entry.shape with
    | .parameter info =>
        { entry with
          shape := .parameter { info with constraints := info.constraints ++ [constraint] } }
    | _ => entry

end Store

end NominalGenerics
