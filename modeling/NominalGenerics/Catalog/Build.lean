import NominalGenerics.Catalog.Basic
import NominalGenerics.Store.Declaration
import NominalGenerics.TypeExpr.Reader

/-!
# Building a store from a catalog

All names are declared before any type expression is read, enums last, since they need their
underlying types. Then bases, interfaces, flags and constraints are resolved in the order of the
catalog, roles are assigned and the store is finished. Callables come last.
-/

namespace NominalGenerics

namespace Catalog

/-- Why a catalog does not build. -/
inductive BuildError where
  | inType (name : String) (cause : BuildError)
  | inCallable (name : String) (cause : BuildError)
  | inOptionalWrapper (cause : BuildError)
  | inSequenceInterface (cause : BuildError)
  | repeatedType (name : String)
  | unknownType (name : String)
  /-- A role that needs a definition with one type parameter. -/
  | notSingleParameter (name : String)
  | genericValue (kind : Kind)
  | missingPrimitive
  | missingUnderlying
  | underlyingNotPrimitive (name : String)
  | repeatedCallable
  | declaringTypeNotGeneric (name : String)
  | expression (cause : TypeExprError)
  deriving DecidableEq, Repr

/-- The text of an error: where it arose, outermost first, and what it is. -/
def BuildError.message : BuildError → String
  | .inType name cause => s!"in type `{name}`: " ++ cause.message
  | .inCallable name cause => s!"in callable `{name}`: " ++ cause.message
  | .inOptionalWrapper cause => "optional wrapper: " ++ cause.message
  | .inSequenceInterface cause => "sequence interface: " ++ cause.message
  | .repeatedType name => s!"type `{name}` is declared twice"
  | .unknownType name => s!"unknown type `{name}`"
  | .notSingleParameter name =>
      s!"`{name}` must be a generic definition with one type parameter"
  | .genericValue kind => kind.label ++ " types cannot be generic"
  | .missingPrimitive => "primitive types need a `primitive` kind"
  | .missingUnderlying => "enum types need an `underlying` type"
  | .underlyingNotPrimitive name => s!"enum underlying type `{name}` is not a primitive"
  | .repeatedCallable => "callable is declared twice"
  | .declaringTypeNotGeneric name => s!"declaring type `{name}` is not generic"
  | .expression cause => cause.message

/-- Steps of building a store. -/
abbrev BuildM := ExceptT BuildError StoreM

/-- Says where the errors of some steps arise. -/
def within {α : Type} (place : BuildError → BuildError) (steps : BuildM α) : BuildM α :=
  ExceptT.adapt place steps

/-- The type that an expression names. -/
def typeOf (scope : Scope) (text : String) : BuildM Handle :=
  ExceptT.adapt .expression (parseType scope text)

/-- The type of a name. -/
def lookup (name : String) : BuildM Handle := do
  match (← getThe Store).lookup? name with
  | some type => return type
  | none => throw (.unknownType name)

/-- The definition of a name, which has one type parameter. -/
def singleParameterDefinition (name : String) : BuildM Handle := do
  let type ← lookup name
  let store ← getThe Store
  if (← store.definition? type) = some type ∧ (← store.arguments type).length = 1 then
    return type
  else
    throw (.notSingleParameter name)

/-- The kind of a type that may be generic. -/
def Kind.typeKind? : Kind → Option TypeKind
  | .classType => some .classType
  | .interfaceType => some .interfaceType
  | .structType => some .structType
  | .delegateType => some .delegateType
  | .primitive | .enum | .pointer => none

/-- Declares a primitive type, an enum or a pointer. -/
def declareValue (decl : TypeDecl) : BuildM Unit := do
  match decl.kind with
  | .primitive =>
      match decl.primitive with
      | some kind => discard <| Store.declarePrimitive decl.name kind
      | none => throw .missingPrimitive
  | .enum =>
      match decl.underlying with
      | some name =>
          let underlying ← lookup name
          if (← (← getThe Store).primitive? underlying).isSome then
            discard <| Store.declareEnum decl.name underlying
          else
            throw (.underlyingNotPrimitive name)
      | none => throw .missingUnderlying
  | _ => discard <| Store.declarePointer decl.name

/-- Declares the name of a type and of its type parameters. -/
def declareType (decl : TypeDecl) : BuildM Unit := do
  match decl.kind.typeKind? with
  | some kind =>
      if decl.params.isEmpty then
        discard <| Store.declare kind decl.name
      else
        discard <| Store.declareGeneric kind decl.name
          (decl.params.map fun param => (param.name, param.variance))
  | none =>
      if decl.params.isEmpty then
        declareValue decl
      else
        throw (.genericValue decl.kind)

/-- The first name that is declared twice: the earliest that already stands before its place. -/
def repeatedName? : (seen : List String) → List TypeDecl → Option String
  | _, [] => none
  | seen, decl :: rest =>
      if decl.name ∈ seen then some decl.name else repeatedName? (decl.name :: seen) rest

/-- Declares all types except the root, enums last. -/
def declareTypes (catalog : Catalog) : BuildM Unit := do
  match repeatedName? [] catalog.types with
  | some name => throw (.repeatedType name)
  | none =>
      let (enums, others) := catalog.types.partition (·.kind == .enum)
      (others ++ enums).forM fun decl => do
        if decl.name ≠ catalog.roles.root then
          within (.inType decl.name) (declareType decl)

/-- Reads a constraint: `struct`, `class`, `new()` or a type expression. -/
def parseConstraint (scope : Scope) (text : String) : TypeExprM Constraint := do
  let text := String.ofList (Text.trimBlank text.toList)
  if text = "struct" then
    return .valueType
  else if text = "class" then
    return .referenceType
  else if text = "new()" then
    return .defaultConstructible
  else
    return .base (← parseType scope text)

/-- Adds the declared constraints to type parameters. -/
def addConstraints (scope : Scope) (decls : List TypeParamDecl) (params : List Handle) :
    BuildM Unit :=
  (decls.zip params).forM fun (decl, param) =>
    decl.constraints.forM fun text => do
      let constraint ← ExceptT.adapt .expression (parseConstraint scope text)
      Store.addConstraint param constraint

/-- Resolves the base, the interfaces, the flags and the constraints of a declared type. -/
def resolveType (decl : TypeDecl) : BuildM Unit := do
  let type ← lookup decl.name
  let params ← (← getThe Store).arguments type
  let scope : Scope := (decl.params.map (·.name)).zip params
  if let some base := decl.base then
    Store.setBase type (← typeOf scope base)
  decl.interfaces.forM fun interface => do
    Store.addInterface type (← typeOf scope interface)
  if decl.isAbstract then
    Store.addFlags type { abstract := true }
  match decl.defaultConstructor with
  | some true => Store.addFlags type { defaultConstructor := true }
  | some false => Store.removeFlags type { defaultConstructor := true }
  | none => pure ()
  addConstraints scope decl.params params

/-- Assigns the roles. -/
def assignRoles (roles : Roles) : BuildM Unit := do
  if let some name := roles.valueTypeRoot then
    Store.setValueTypeRoot (← lookup name)
  if let some name := roles.arrayRoot then
    Store.setArrayRoot (← lookup name)
  if let some name := roles.optionalWrapper then
    Store.setOptionalWrapper (← within .inOptionalWrapper (singleParameterDefinition name))
  roles.sequenceInterfaces.forM fun name => do
    Store.addSequenceInterface (← within .inSequenceInterface (singleParameterDefinition name))

/-- The parameters of the definition of a declaring type, by name. -/
def enclosingScope (declaring : Handle) : BuildM Scope := do
  let store ← getThe Store
  match ← store.definition? declaring with
  | some definition =>
      (← store.arguments definition).mapM fun param => return (← store.typeName param, param)
  | none => throw (.declaringTypeNotGeneric (← store.typeName declaring))

/-- Declares a callable. Its own type parameters hide those of the enclosing type. -/
def declareCallable (decl : CallableDecl) : BuildM Unit := do
  if ((← getThe Store).findCallable? decl.name).isSome then
    throw .repeatedCallable
  else
    let declaring ← decl.declaringType.mapM (typeOf [])
    let names := decl.typeParams.map (·.name)
    let id ← Store.declareCallable decl.name names
    let own := (((← getThe Store).callable? id).map (·.typeParams)).getD []
    let enclosing ← match declaring with
      | some type => do
          let scope ← enclosingScope type
          Store.setDeclaringType id type
          pure scope
      | none => pure []
    let scope : Scope := names.zip own ++ enclosing
    addConstraints scope decl.typeParams own
    decl.params.forM fun param => do
      Store.addParameter id (← typeOf scope param.type) param.mode
    if let some returns := decl.returns then
      Store.setReturnType id (← typeOf scope returns)

/-- All steps of building the store of a catalog. -/
def buildSteps (catalog : Catalog) : BuildM Unit := do
  declareTypes catalog
  catalog.types.forM fun decl => within (.inType decl.name) (resolveType decl)
  assignRoles catalog.roles
  Store.finish
  catalog.callables.forM fun decl => within (.inCallable decl.name) (declareCallable decl)

/-- The finished store of a catalog. -/
def build (catalog : Catalog) : Query (Except BuildError Store) := do
  let (outcome, store) ← (buildSteps catalog).run.run (.ofRoot catalog.roles.root)
  return outcome.map fun _ => store

end Catalog

end NominalGenerics
