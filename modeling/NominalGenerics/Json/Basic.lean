/-!
# JSON documents

Catalogs are written in JSON. A document keeps the members of an object in order and with their
repetitions. Numbers play no part in catalogs, so a document does not keep their values.
-/

namespace NominalGenerics

/-- A JSON document. A string is missing if an escape in it names half of a surrogate pair, which
is no character. -/
inductive Json where
  | null
  | bool (value : Bool)
  | number
  | string (value : Option String)
  | array (items : List Json)
  | object (members : List (Option String × Json))
  deriving Repr, Inhabited

end NominalGenerics
