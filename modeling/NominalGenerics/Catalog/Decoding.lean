import NominalGenerics.Catalog.Basic
import NominalGenerics.Json.Decoding
import NominalGenerics.Json.Reader

/-!
# Catalogs in JSON

The written form of catalogs: the names of fields and choices, and which fields may be left out.
-/

namespace NominalGenerics

open Json (Decoder)

/-- Decodes a variance. -/
def Variance.decoder : Decoder Variance :=
  .choice
    [("invariant", .invariant), ("covariant", .covariant), ("out", .covariant),
      ("contravariant", .contravariant), ("in", .contravariant)]

/-- Decodes a passing mode. -/
def PassingMode.decoder : Decoder PassingMode :=
  .choice [("byvalue", .byValue), ("byref", .byRef), ("ref", .byRef), ("out", .out)]

/-- Decodes a primitive kind. -/
def Primitive.decoder : Decoder Primitive :=
  .choice (Primitive.all.map fun kind => (kind.name, kind))

/-- Decodes inference options. -/
def InferenceOptions.decoder : Decoder InferenceOptions := fun document => do
  match ← Decoder.fields ["skip_constraint_check", "bootstrap_from_constraints"] document with
  | [skip, bootstrap] =>
      return {
        skipConstraintCheck := ← Decoder.withDefault false .bool skip
        bootstrapFromConstraints := ← Decoder.withDefault false .bool bootstrap }
  | _ => none

namespace Catalog

/-- Decodes the roles of a catalog. -/
def Roles.decoder : Decoder Roles := fun document => do
  match ← Decoder.fields
      ["root", "value_type_root", "array_root", "optional_wrapper", "sequence_interfaces"]
      document with
  | [root, valueTypeRoot, arrayRoot, optionalWrapper, sequenceInterfaces] =>
      return {
        root := ← Decoder.withDefault "object" .string root
        valueTypeRoot := ← Decoder.withDefault none (.nullable .string) valueTypeRoot
        arrayRoot := ← Decoder.withDefault none (.nullable .string) arrayRoot
        optionalWrapper := ← Decoder.withDefault none (.nullable .string) optionalWrapper
        sequenceInterfaces := ← Decoder.withDefault [] (.list .string) sequenceInterfaces }
  | _ => none

/-- Decodes the kind of a declared type. -/
def Kind.decoder : Decoder Kind :=
  .choice
    [("class", .classType), ("interface", .interfaceType), ("struct", .structType),
      ("delegate", .delegateType), ("primitive", .primitive), ("enum", .enum),
      ("pointer", .pointer)]

/-- Decodes a declared type parameter. -/
def TypeParamDecl.decoder : Decoder TypeParamDecl := fun document => do
  match ← Decoder.fields ["name", "variance", "constraints"] document with
  | [name, variance, constraints] =>
      return {
        name := ← Decoder.required .string name
        variance := ← Decoder.withDefault .invariant Variance.decoder variance
        constraints := ← Decoder.withDefault [] (.list .string) constraints }
  | _ => none

/-- Decodes a declared type. -/
def TypeDecl.decoder : Decoder TypeDecl := fun document => do
  match ← Decoder.fields
      ["name", "kind", "params", "base", "interfaces", "abstract", "default_constructor",
        "primitive", "underlying"]
      document with
  | [name, kind, params, base, interfaces, isAbstract, defaultConstructor, primitive,
      underlying] =>
      return {
        name := ← Decoder.required .string name
        kind := ← Decoder.required Kind.decoder kind
        params := ← Decoder.withDefault [] (.list TypeParamDecl.decoder) params
        base := ← Decoder.withDefault none (.nullable .string) base
        interfaces := ← Decoder.withDefault [] (.list .string) interfaces
        isAbstract := ← Decoder.withDefault false .bool isAbstract
        defaultConstructor := ← Decoder.withDefault none (.nullable .bool) defaultConstructor
        primitive := ← Decoder.withDefault none (.nullable Primitive.decoder) primitive
        underlying := ← Decoder.withDefault none (.nullable .string) underlying }
  | _ => none

/-- Decodes a declared parameter of a callable. -/
def ParamDecl.decoder : Decoder ParamDecl := fun document => do
  match ← Decoder.fields ["type", "mode"] document with
  | [type, mode] =>
      return {
        type := ← Decoder.required .string type
        mode := ← Decoder.withDefault .byValue PassingMode.decoder mode }
  | _ => none

/-- Decodes a declared callable. -/
def CallableDecl.decoder : Decoder CallableDecl := fun document => do
  match ← Decoder.fields ["name", "type_params", "params", "returns", "declaring_type"]
      document with
  | [name, typeParams, params, returns, declaringType] =>
      return {
        name := ← Decoder.required .string name
        typeParams := ← Decoder.withDefault [] (.list TypeParamDecl.decoder) typeParams
        params := ← Decoder.withDefault [] (.list ParamDecl.decoder) params
        returns := ← Decoder.withDefault none (.nullable .string) returns
        declaringType := ← Decoder.withDefault none (.nullable .string) declaringType }
  | _ => none

/-- Decodes a catalog. -/
def decoder : Decoder Catalog := fun document => do
  match ← Decoder.fields ["roles", "types", "callables", "options"] document with
  | [roles, types, callables, options] =>
      return {
        roles := ← Decoder.withDefault {} Roles.decoder roles
        types := ← Decoder.withDefault [] (.list TypeDecl.decoder) types
        callables := ← Decoder.withDefault [] (.list CallableDecl.decoder) callables
        options := ← Decoder.withDefault {} InferenceOptions.decoder options }
  | _ => none

/-- Reads a catalog from JSON text. -/
def parse? (text : String) : Option Catalog := do
  decoder (← Json.parse? text)

end Catalog

end NominalGenerics
