/-!
# Name pools

A name pool numbers names in the order in which they are first interned. The empty name has number
zero from the start, so a pool is never without a name, and a number once issued keeps its name.
-/

namespace NominalGenerics

/-- The distinct names interned so far, each under its index, and a table of their numbers. -/
structure NamePool where
  names : Array String
  numbers : List (String × Nat)
  deriving DecidableEq, Repr

namespace NamePool

/-- The count of numbers, which are 32-bit words. -/
def numberSpace : Nat := 0x100000000

/-- The pool that holds the empty name only. -/
def empty : NamePool := ⟨#[""], [("", 0)]⟩

/-- The number of an interned name. -/
def find? (pool : NamePool) (name : String) : Option Nat :=
  pool.numbers.lookup name

/-- The number of `name`, which joins the pool under the next number if it is new. -/
def intern (pool : NamePool) (name : String) : Nat × NamePool :=
  match pool.find? name with
  | some number => (number, pool)
  | none =>
      let number := pool.names.size % numberSpace
      (number, ⟨pool.names.push name, (name, number) :: pool.numbers⟩)

/-- Interns a name that is handed over, so that a new one joins the pool without a copy. -/
def internOwned (pool : NamePool) (name : String) : Nat × NamePool :=
  match pool.find? name with
  | some number => (number, pool)
  | none =>
      let number := pool.names.size % numberSpace
      (number, ⟨pool.names.push name, (name, number) :: pool.numbers⟩)

/-- The name of a number; a number never issued stands for the empty name. -/
def resolve (pool : NamePool) (number : Nat) : String :=
  pool.names[number]?.getD ""

/-- The number of names in the pool, the empty name included. -/
def size (pool : NamePool) : Nat := pool.names.size

/-- Whether the pool holds no name but the empty one. -/
def isEmpty (pool : NamePool) : Bool := pool.size ≤ 1

/-- Names of the library types that most catalogs declare. -/
def commonNames : List String :=
  ["object", "ValueType", "Array", "Enum", "string", "bool", "char", "int", "long", "double",
    "Nullable", "IEnumerable", "IReadOnlyCollection", "IReadOnlyList", "ICollection", "IList",
    "List", "Action", "Func", "T", "TKey", "TValue", "TResult"]

/-- Interns the common names in their listed order. -/
def internCommon (pool : NamePool) : NamePool :=
  commonNames.foldl (fun pool name => (pool.intern name).2) pool

end NamePool

end NominalGenerics
