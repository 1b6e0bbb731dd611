import NominalGenerics.Json.Basic

/-!
# Decoding JSON

A decoder turns a document into a value, or refuses it. A record is written as an object or as the
array of its fields in declared order. In an object, members that are no fields are ignored and a
field must not be repeated. A choice is written as its name or as an object whose only member has
that name and is null.
-/

namespace NominalGenerics.Json

/-- A decoder of values of type `α`. -/
abbrev Decoder (α : Type) := Json → Option α

namespace Decoder

variable {α : Type}

/-- Decodes a string. -/
def string : Decoder String
  | .string value => value
  | _ => none

/-- Decodes a truth value. -/
def bool : Decoder Bool
  | .bool value => some value
  | _ => none

/-- Decodes an array of values. -/
def list (item : Decoder α) : Decoder (List α)
  | .array items => items.mapM item
  | _ => none

/-- Decodes a value that may be null. -/
def nullable (value : Decoder α) : Decoder (Option α)
  | .null => some none
  | document => (value document).map some

/-- Decodes a choice by its name. -/
def choice (names : List (String × α)) : Decoder α
  | .string (some name) => names.lookup name
  | .object [(some name, .null)] => names.lookup name
  | _ => none

/-- The fields of a record, in the order of `names`, where they are given. -/
def fields (names : List String) : Decoder (List (Option Json))
  | .object members => do
      let keys ← members.mapM (·.1)
      if names.all fun name => keys.count name ≤ 1 then
        some (names.map fun name => members.lookup (some name))
      else
        none
  | .array items =>
      if items.length ≤ names.length then
        some (items.map some ++ List.replicate (names.length - items.length) none)
      else
        none
  | _ => none

/-- Decodes a field that must be given. -/
def required (value : Decoder α) (field : Option Json) : Option α := field.bind value

/-- Decodes a field that has a default. -/
def withDefault (default : α) (value : Decoder α) : Option Json → Option α
  | none => some default
  | some document => value document

end Decoder

end NominalGenerics.Json
