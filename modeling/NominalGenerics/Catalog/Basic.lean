import NominalGenerics.Inference

/-!
# Catalogs

A catalog declares named types, generic callables, the types that play a role, and the options with
which calls are inferred. Types are referred to by type expressions, so a declaration may use types
declared after it.
-/

namespace NominalGenerics

namespace Catalog

/-- The types that play a role, by name. -/
structure Roles where
  root : String := "object"
  valueTypeRoot : Option String := none
  arrayRoot : Option String := none
  optionalWrapper : Option String := none
  sequenceInterfaces : List String := []
  deriving DecidableEq, Repr

/-- Kind of a declared type. -/
inductive Kind where
  | classType
  | interfaceType
  | structType
  | delegateType
  | primitive
  | enum
  | pointer
  deriving DecidableEq, Repr

/-- The name of a kind as messages write it. -/
def Kind.label : Kind → String
  | .classType => "Class"
  | .interfaceType => "Interface"
  | .structType => "Struct"
  | .delegateType => "Delegate"
  | .primitive => "Primitive"
  | .enum => "Enum"
  | .pointer => "Pointer"

/-- A declared type parameter. Constraints are `struct`, `class`, `new()` or type expressions. -/
structure TypeParamDecl where
  name : String
  /-- Of no effect for the type parameters of callables. -/
  variance : Variance := .invariant
  constraints : List String := []
  deriving DecidableEq, Repr

/-- A declared type. -/
structure TypeDecl where
  name : String
  kind : Kind
  params : List TypeParamDecl := []
  base : Option String := none
  interfaces : List String := []
  isAbstract : Bool := false
  /-- Overrides whether the kind has a constructor without parameters. -/
  defaultConstructor : Option Bool := none
  /-- Given for primitive types. -/
  primitive : Option Primitive := none
  /-- Given for enums. -/
  underlying : Option String := none
  deriving DecidableEq, Repr

/-- A declared parameter of a callable. -/
structure ParamDecl where
  type : String
  mode : PassingMode := .byValue
  deriving DecidableEq, Repr

/-- A declared callable. -/
structure CallableDecl where
  name : String
  typeParams : List TypeParamDecl := []
  params : List ParamDecl := []
  returns : Option String := none
  /-- The instantiation of the generic type that encloses the callable. -/
  declaringType : Option String := none
  deriving DecidableEq, Repr

end Catalog

/-- The content of a catalog. -/
structure Catalog where
  roles : Catalog.Roles := {}
  types : List Catalog.TypeDecl := []
  callables : List Catalog.CallableDecl := []
  options : InferenceOptions := {}
  deriving DecidableEq, Repr

end NominalGenerics
