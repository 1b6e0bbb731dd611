import NominalGenerics.Fault
import NominalGenerics.Variance
import NominalGenerics.Primitive

/-!
# Type stores

A store holds types in the order in which they were added and names each by its position, its
handle. A type is a named type, a generic definition, an instantiation of one, an array or a type
parameter. Handles are plain numbers: a declaration may carry a handle before the type it denotes
exists, so every query on a handle can fault.

A store also holds the signatures of the declared callables and the types that play a special role:
the universal root, the base of arrays, the wrapper of optional values and the sequence interfaces.
-/

namespace NominalGenerics

/-- Position of a type in a store. -/
abbrev Handle := Nat

/-- Position of a callable in a store. -/
abbrev CallableId := Nat

/-- Category of a type and how its values are made. -/
structure Flags where
  valueType : Bool := false
  interface : Bool := false
  abstract : Bool := false
  enum : Bool := false
  pointer : Bool := false
  /-- The type declares a constructor without parameters. -/
  defaultConstructor : Bool := false
  deriving DecidableEq, Repr, Inhabited

namespace Flags

/-- The flags set on either side. -/
def union (a b : Flags) : Flags where
  valueType := a.valueType || b.valueType
  interface := a.interface || b.interface
  abstract := a.abstract || b.abstract
  enum := a.enum || b.enum
  pointer := a.pointer || b.pointer
  defaultConstructor := a.defaultConstructor || b.defaultConstructor

/-- The flags of `a` that are not set in `b`. -/
def diff (a b : Flags) : Flags where
  valueType := a.valueType && !b.valueType
  interface := a.interface && !b.interface
  abstract := a.abstract && !b.abstract
  enum := a.enum && !b.enum
  pointer := a.pointer && !b.pointer
  defaultConstructor := a.defaultConstructor && !b.defaultConstructor

end Flags

/-- Constraint on a type parameter. -/
inductive Constraint where
  /-- Value types that are not optional wrappers. -/
  | valueType
  /-- Reference types. -/
  | referenceType
  /-- Types that can be made without arguments. -/
  | defaultConstructible
  /-- Types assignable to the target, which may mention type parameters. -/
  | base (target : Handle)
  deriving DecidableEq, Repr

/-- Declaration to which a type parameter belongs. -/
inductive ParamOwner where
  | type (definition : Handle)
  | callable (id : CallableId)
  deriving DecidableEq, Repr

/-- A type parameter. -/
structure TypeParam where
  name : String
  owner : ParamOwner
  /-- Place among the parameters of the owner. -/
  position : Nat
  variance : Variance
  constraints : List Constraint := []
  deriving DecidableEq, Repr

/-- Targets of the base constraints, in declared order. -/
def TypeParam.constraintTargets (param : TypeParam) : List Handle :=
  param.constraints.filterMap fun
    | .base target => some target
    | _ => none

/-- How a type is built. -/
inductive Shape where
  | named
  | definition (params : List Handle)
  | instantiation (definition : Handle) (args : List Handle)
  | array (element : Handle) (rank : Nat)
  | parameter (info : TypeParam)
  deriving DecidableEq, Repr

/-- A type of a store. -/
structure Entry where
  name : String
  flags : Flags
  shape : Shape
  base : Option Handle := none
  /-- Interfaces declared on the type, or substituted from its definition. -/
  directInterfaces : List Handle := []
  /-- All interfaces, inherited ones included, once the type is closed. -/
  interfaces : List Handle := []
  closed : Bool := false
  primitive : Option Primitive := none
  /-- The integral type under an enum. -/
  underlying : Option Handle := none
  /-- Whether the type mentions a type parameter. -/
  isOpen : Bool := false
  /-- Height of the type as a tree of instantiations and arrays. -/
  nesting : Nat := 0
  deriving DecidableEq, Repr

namespace Entry

/-- Whether the type is a type parameter. -/
def isParameter (entry : Entry) : Bool :=
  match entry.shape with
  | .parameter _ => true
  | _ => false

/-- The definition of an instantiation, or a definition itself; `self` is the entry's handle. -/
def definition? (self : Handle) (entry : Entry) : Option Handle :=
  match entry.shape with
  | .definition _ => some self
  | .instantiation definition _ => some definition
  | _ => none

/-- The arguments of an instantiation, or the parameters of a definition. -/
def arguments (entry : Entry) : List Handle :=
  match entry.shape with
  | .definition params => params
  | .instantiation _ args => args
  | _ => []

/-- Element and rank of an array. -/
def array? (entry : Entry) : Option (Handle × Nat) :=
  match entry.shape with
  | .array element rank => some (element, rank)
  | _ => none

/-- The type parameter that the entry is. -/
def param? (entry : Entry) : Option TypeParam :=
  match entry.shape with
  | .parameter info => some info
  | _ => none

end Entry

/-- How an argument is passed. -/
inductive PassingMode where
  | byValue
  | byRef
  | out
  deriving DecidableEq, Repr, Inhabited

namespace PassingMode

/-- The written form of a mode. -/
def name : PassingMode → String
  | .byValue => "byvalue"
  | .byRef => "byref"
  | .out => "out"

/-- Whether the argument is passed as a reference, so that its type must match exactly. -/
def isByRef : PassingMode → Bool
  | .byRef | .out => true
  | .byValue => false

end PassingMode

/-- A declared parameter of a callable. -/
structure Parameter where
  type : Handle
  mode : PassingMode
  deriving DecidableEq, Repr

/-- Signature of a generic callable. -/
structure Signature where
  id : CallableId
  name : String
  typeParams : List Handle
  params : List Parameter := []
  /-- Nothing for a callable that returns nothing. -/
  returns : Option Handle := none
  /-- The instantiation inside which the callable is declared. -/
  declaringType : Option Handle := none
  deriving DecidableEq, Repr

/-- Place of `param` among the callable's own type parameters. -/
def Signature.typeParamPosition? (signature : Signature) (param : Handle) : Option Nat :=
  signature.typeParams.findIdx? (· == param)

/-- A store of types and callables. -/
structure Store where
  types : Array Entry := #[]
  /-- Interned instantiations by definition and arguments. -/
  instances : List ((Handle × List Handle) × Handle) := []
  /-- Interned arrays by element and rank. -/
  arrays : List ((Handle × Nat) × Handle) := []
  callables : Array Signature := #[]
  root : Handle := 0
  valueTypeRoot : Option Handle := none
  arrayRoot : Option Handle := none
  optionalWrapper : Option Handle := none
  sequenceInterfaces : List Handle := []
  /-- Instantiations and arrays whose supertypes are still to be computed, latest first. -/
  pending : List Handle := []
  /-- Whether the declarations are complete. -/
  finished : Bool := false
  deriving DecidableEq, Repr

/-- Computations that may extend a store. -/
abbrev StoreM := StateT Store Query

namespace Store

/-- The number of types. -/
def size (store : Store) : Nat := store.types.size

/-- The type that a handle denotes. -/
def entry (store : Store) (type : Handle) : Query Entry :=
  match store.types[type]? with
  | some entry => .ok entry
  | none => .error (.danglingHandle type)

/-- The first type of that name. Type parameters are not found by name. -/
def lookup? (store : Store) (name : String) : Option Handle :=
  store.types.findIdx? fun entry => !entry.isParameter && entry.name == name

/-- The written name of a type. -/
def typeName (store : Store) (type : Handle) : Query String :=
  return (← store.entry type).name

/-- The flags of a type. -/
def flags (store : Store) (type : Handle) : Query Flags :=
  return (← store.entry type).flags

/-- The direct base of a type. -/
def base? (store : Store) (type : Handle) : Query (Option Handle) :=
  return (← store.entry type).base

/-- All interfaces of a closed type. -/
def interfaces (store : Store) (type : Handle) : Query (List Handle) :=
  return (← store.entry type).interfaces

/-- The generic definition that a type is or instantiates. -/
def definition? (store : Store) (type : Handle) : Query (Option Handle) :=
  return (← store.entry type).definition? type

/-- The generic definition of a type, or the type itself if it has none. -/
def definitionOrSelf (store : Store) (type : Handle) : Query Handle :=
  return (← store.definition? type).getD type

/-- The arguments of an instantiation, or the parameters of a definition. -/
def arguments (store : Store) (type : Handle) : Query (List Handle) :=
  return (← store.entry type).arguments

/-- Element and rank of an array. -/
def array? (store : Store) (type : Handle) : Query (Option (Handle × Nat)) :=
  return (← store.entry type).array?

/-- The type parameter that a handle denotes. -/
def param? (store : Store) (type : Handle) : Query (Option TypeParam) :=
  return (← store.entry type).param?

/-- The integral type under an enum. -/
def underlying? (store : Store) (type : Handle) : Query (Option Handle) :=
  return (← store.entry type).underlying

/-- The kind of a primitive type. -/
def primitive? (store : Store) (type : Handle) : Query (Option Primitive) :=
  return (← store.entry type).primitive

/-- Whether a type mentions a type parameter, as recorded when it was interned. -/
def isOpen (store : Store) (type : Handle) : Query Bool :=
  return (← store.entry type).isOpen

/-- Whether a type mentions a type parameter, found by walking it to the given height. -/
def mentionsParamWithin (store : Store) : Nat → Handle → Query Bool
  | 0, _ => .error .outOfFuel
  | height + 1, type => do
      let entry ← store.entry type
      match entry.shape with
      | .parameter _ => return true
      | .array element _ => store.mentionsParamWithin height element
      | _ => entry.arguments.anyM (store.mentionsParamWithin height)

/-- Whether a type mentions a type parameter, found by walking it. Arguments are interned before
the types built from them, so a walk is never longer than the store. -/
def mentionsParam (store : Store) (type : Handle) : Query Bool :=
  store.mentionsParamWithin (store.size + 1) type

/-- Whether instances of the type are values. -/
def isValueType (store : Store) (type : Handle) : Query Bool :=
  return (← store.flags type).valueType

/-- Whether the type is neither a value type nor a type parameter. -/
def isReferenceType (store : Store) (type : Handle) : Query Bool := do
  let entry ← store.entry type
  return !entry.flags.valueType && !entry.isParameter

/-- Whether the type is an instantiation of the wrapper of optional values. -/
def isOptionalWrapper (store : Store) (type : Handle) : Query Bool := do
  match store.optionalWrapper, ← store.definition? type with
  | some wrapper, some definition => return wrapper == definition && wrapper != type
  | _, _ => return false

/-- Whether rank-one arrays implement the instantiations of this definition. -/
def isSequenceInterface (store : Store) (definition : Handle) : Bool :=
  store.sequenceInterfaces.contains definition

/-- Declared variance of a parameter of a definition; positions without one are invariant. -/
def declaredVariance (store : Store) (definition : Handle) (position : Nat) : Query Variance := do
  match (← store.arguments definition)[position]? with
  | some param => return ((← store.param? param).map (·.variance)).getD .invariant
  | none => return .invariant

/-- The signature of a callable. -/
def callable? (store : Store) (id : CallableId) : Option Signature := store.callables[id]?

/-- The first callable of that name. -/
def findCallable? (store : Store) (name : String) : Option CallableId :=
  store.callables.findIdx? (·.name == name)

/-- The name of a callable; one that does not exist has the empty name. -/
def callableName (store : Store) (id : CallableId) : String :=
  ((store.callable? id).map (·.name)).getD ""

end Store

end NominalGenerics
