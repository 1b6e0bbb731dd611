import NominalGenerics.Store.Closure

/-!
# Type expressions

A type expression names a type: a name, a generic name applied to arguments, or an array. It is
given meaning in a store and a scope of type parameters, where a name stands for the parameter of
that name if there is one, and for the declared type otherwise. Instantiations and arrays are
interned on the way, arguments before the types built from them.
-/

namespace NominalGenerics

/-- A type expression. -/
inductive TypeExpr where
  | named (name : String)
  | apply (name : String) (args : List TypeExpr)
  | array (element : TypeExpr) (rank : Nat)
  deriving Repr

/-- What a text should have held where it stops being a type expression. -/
inductive Expectation where
  | typeName
  | char (c : Char)
  | endOfText
  deriving DecidableEq, Repr

/-- Why a text names no type. -/
inductive TypeExprError where
  /-- The text is no type expression; `rest` is what stands where `expected` is missing. -/
  | malformed (text : String) (expected : Expectation) (rest : String)
  | unknownType (name : String)
  | notGeneric (name : String)
  | wrongArity (name : String) (declared given : Nat)
  deriving DecidableEq, Repr

/-- The text of an error. Offsets count bytes. -/
def TypeExprError.message : TypeExprError → String
  | .malformed text .typeName rest =>
      let offset := text.utf8ByteSize - rest.utf8ByteSize
      s!"expected a type name at offset {offset} in type `{text}`"
  | .malformed text (.char c) rest =>
      let offset := text.utf8ByteSize - rest.utf8ByteSize
      s!"expected `{c}` at offset {offset} in type `{text}`"
  | .malformed text .endOfText rest => s!"unexpected `{rest}` in type `{text}`"
  | .unknownType name => s!"unknown type `{name}`"
  | .notGeneric name => s!"`{name}` is not a generic type"
  | .wrongArity name declared given =>
      s!"`{name}` takes {declared} type argument(s), got {given}"

/-- Type parameters by name. The first of a name counts. -/
abbrev Scope := List (String × Handle)

/-- Interning that may find no type. Types interned before an error stay. -/
abbrev TypeExprM := ExceptT TypeExprError StoreM

namespace TypeExpr

/-- The type that a name stands for. -/
def resolve (scope : Scope) (name : String) : TypeExprM Handle := do
  match scope.lookup name with
  | some param => return param
  | none =>
      match (← getThe Store).lookup? name with
      | some type => return type
      | none => throw (.unknownType name)

/-- The type that a generic name applied to arguments stands for. -/
def instantiate (scope : Scope) (name : String) (args : List Handle) : TypeExprM Handle := do
  let definition ← resolve scope name
  let store ← getThe Store
  if (← store.definition? definition) = some definition then
    let declared := (← store.arguments definition).length
    if declared = args.length then
      Store.instantiate definition args
    else
      throw (.wrongArity name declared args.length)
  else
    throw (.notGeneric name)

mutual

/-- The type that an expression stands for. -/
def intern (scope : Scope) : TypeExpr → TypeExprM Handle
  | .named name => resolve scope name
  | .apply name args => do instantiate scope name (← internAll scope args)
  | .array element rank => do
      let element ← intern scope element
      Store.arrayOf element rank

/-- The types that some expressions stand for, in order. -/
def internAll (scope : Scope) : List TypeExpr → TypeExprM (List Handle)
  | [] => return []
  | expr :: rest => do
      let type ← intern scope expr
      return type :: (← internAll scope rest)

end

end TypeExpr

end NominalGenerics
