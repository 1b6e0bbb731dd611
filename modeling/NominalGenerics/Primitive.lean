/-!
# Primitive kinds

The primitive value types and the fixed table of widenings between them.
-/

namespace NominalGenerics

/-- The kind of a primitive value type. -/
inductive Primitive where
  | bool
  | char
  | i8
  | u8
  | i16
  | u16
  | i32
  | u32
  | i64
  | u64
  | f32
  | f64
  | isize
  | usize
  deriving DecidableEq, Repr

namespace Primitive

/-- The written form of a primitive kind. -/
def name : Primitive → String
  | .bool => "bool"
  | .char => "char"
  | .i8 => "i8"
  | .u8 => "u8"
  | .i16 => "i16"
  | .u16 => "u16"
  | .i32 => "i32"
  | .u32 => "u32"
  | .i64 => "i64"
  | .u64 => "u64"
  | .f32 => "f32"
  | .f64 => "f64"
  | .isize => "isize"
  | .usize => "usize"

/-- All primitive kinds. -/
def all : List Primitive :=
  [.bool, .char, .i8, .u8, .i16, .u16, .i32, .u32, .i64, .u64, .f32, .f64, .isize, .usize]

/-- The kinds to which a kind widens, itself first. -/
def widensTo : Primitive → List Primitive
  | .bool => [.bool]
  | .char => [.char, .u16, .u32, .i32, .u64, .i64, .f32, .f64]
  | .i8 => [.i8, .i16, .i32, .i64, .f32, .f64]
  | .u8 => [.u8, .char, .u16, .i16, .u32, .i32, .u64, .i64, .f32, .f64]
  | .i16 => [.i16, .i32, .i64, .f32, .f64]
  | .u16 => [.u16, .u32, .i32, .u64, .i64, .f32, .f64]
  | .i32 => [.i32, .i64, .f32, .f64]
  | .u32 => [.u32, .u64, .i64, .f32, .f64]
  | .i64 => [.i64, .f32, .f64]
  | .u64 => [.u64, .f32, .f64]
  | .f32 => [.f32, .f64]
  | .f64 => [.f64]
  | .isize => [.isize]
  | .usize => [.usize]

/-- Whether values of `source` may stand for values of `target`. -/
def canWidenTo (source target : Primitive) : Bool := source.widensTo.contains target

/-- Whether the kind has the size of a pointer. -/
def isPointerSized : Primitive → Bool
  | .isize | .usize => true
  | _ => false

end Primitive

end NominalGenerics
