import NominalGenerics.Store.Basic

/-!
# Special casts of values

A call may pass a primitive or an enum where a wider primitive is declared, and a pointer or an
integer of pointer size where a pointer is declared, although the types are not assignable.
-/

namespace NominalGenerics.Store

/-- The primitive kind of a type, looking through an enum. -/
def valueKind? (store : Store) (type : Handle) : Query (Option Primitive) := do
  store.primitive? ((← store.underlying? type).getD type)

/-- Whether values of `source` pass for values of `target` by widening or pointer conversion. -/
def canSpecialCast (store : Store) (source target : Handle) : Query Bool := do
  let sourcePointer := (← store.flags source).pointer
  let targetPointer := (← store.flags target).pointer
  if sourcePointer && targetPointer then
    return true
  else
    let sourceKind ← store.valueKind? source
    if targetPointer then
      return sourceKind.any (·.isPointerSized)
    else
      match sourceKind, ← store.valueKind? target with
      | some source, some target => return source.canWidenTo target
      | _, _ => return false

/-- Whether a type is one whose values are specially cast at all. -/
def isSpecialCastSource (store : Store) (type : Handle) : Query Bool := do
  let entry ← store.entry type
  return entry.flags.pointer || entry.flags.enum || entry.primitive.isSome

end NominalGenerics.Store
