import NominalGenerics.Assignability

/-!
# Constraint checks

Type arguments are checked against the constraints of a generic declaration. The targets of base
constraints may mention the parameters of the declaration and, for a callable, those of the
enclosing type. They are related under a substitution, so that the store need not grow.
-/

namespace NominalGenerics

/-- A generic declaration. An instantiation stands for its definition. -/
inductive Declaration where
  | type (type : Handle)
  | callable (signature : Signature)
  deriving DecidableEq, Repr

namespace ConstraintCheck

variable (store : Store)

/-- Whether values of a type can be made without arguments. Abstract types never can; value types
that are not abstract always can. -/
def isDefaultConstructible (type : Handle) : Query Bool := do
  let flags ← store.flags type
  return !flags.abstract && (flags.valueType || flags.defaultConstructor)

/-- Whether an argument satisfies a constraint. -/
def satisfies (sub : Substitution) (arg : Handle) : Constraint → RelationM Bool
  | .valueType => do
      if ← store.isValueType arg then return !(← store.isOptionalWrapper arg) else return false
  | .referenceType => store.isReferenceType arg
  | .defaultConstructible => isDefaultConstructible store arg
  | .base target => Assignability.check store sub arg target

/-- Whether an argument satisfies all constraints of a type parameter. -/
def satisfiesAll (sub : Substitution) (param arg : Handle) : RelationM Bool := do
  match ← store.param? param with
  | some info => info.constraints.allM (satisfies store sub arg)
  | none => return true

/-- The type parameters of a declaration and the substitution that binds them to `args`. A type
that is not generic has neither. -/
def binding? (declaration : Declaration) (args : List Handle) :
    Query (Option (List Handle × Substitution)) := do
  match declaration with
  | .type type =>
      match ← store.definition? type with
      | some definition =>
          return some (← store.arguments definition,
            { typeOwner := some definition, typeArgs := args })
      | none => return none
  | .callable signature =>
      let (typeOwner, typeArgs) ← match signature.declaringType with
        | some declaring => pure (← store.definition? declaring, ← store.arguments declaring)
        | none => pure (none, [])
      return some (signature.typeParams,
        { typeOwner, typeArgs, callable := some signature.id, callableArgs := args })

end ConstraintCheck

/-- Whether `args` satisfy every constraint of a declaration. They are matched to its parameters
by position, and there must be as many. -/
def Store.satisfiesConstraints (store : Store) (declaration : Declaration) (args : List Handle) :
    Query Bool := do
  match ← ConstraintCheck.binding? store declaration args with
  | none => return args.isEmpty
  | some (params, sub) =>
      if params.length = args.length then
        ((params.zip args).allM fun (param, arg) =>
          ConstraintCheck.satisfiesAll store sub param arg).runFresh
      else
        return false

end NominalGenerics
