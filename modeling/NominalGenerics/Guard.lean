import NominalGenerics.Fault

/-!
# Guards of recursive walks

Walks over nested type arguments and over supertypes of untrusted declarations are bounded by a
guard. A `Guard` refuses a key that is already on the walk's path, a path that is too long and a
walk that has tried too many keys. A `DepthCounter` bounds the length of the path only.
-/

namespace NominalGenerics

/-- Bounds of a guarded walk: the longest path, and the number of keys it may try. -/
structure Limits where
  maxDepth : Nat
  maxIterations : Nat
  deriving DecidableEq, Repr

/-- Type nesting beyond which supertypes of an instantiation are not expanded. -/
def maxInstantiationDepth : Nat := 50

/-- The longest base-type chain that is followed. -/
def maxBaseChainLength : Nat := 256

namespace Limits

/-- Collection of bounds through nested type arguments. -/
def collection : Limits := ⟨100, 100000⟩

/-- Assignability between two types. -/
def assignability : Limits := ⟨100, 100000⟩

/-- Checks of declared constraints. -/
def constraintCheck : Limits := ⟨100, 100000⟩

/-- Closure of the interface sets of a store. -/
def supertypeClosure : Limits := ⟨maxInstantiationDepth, 1000000⟩

end Limits

/-- Answer of a guard to a walk that wants to visit a key. -/
inductive Admission where
  | entered
  /-- The key is already on the path. -/
  | cycle
  | depthExceeded
  | iterationExceeded
  deriving DecidableEq, Repr

/-- Whether the refusal is a limit and not a cycle. -/
def Admission.isExceeded : Admission → Bool
  | .depthExceeded | .iterationExceeded => true
  | .entered | .cycle => false

/-- A guard over keys of type `κ`. -/
structure Guard (κ : Type) where
  limits : Limits
  /-- The keys on the path, most recent first. -/
  visiting : List κ := []
  depth : Nat := 0
  /-- The number of attempts to enter, up to `Guard.iterationCeiling`. -/
  iterations : Nat := 0
  /-- Whether a limit was ever hit. -/
  exceeded : Bool := false
  deriving DecidableEq, Repr

namespace Guard

variable {κ : Type} [DecidableEq κ]

/-- The count of attempts stops growing at the largest 32-bit word. -/
def iterationCeiling : Nat := 0xffffffff

/-- A guard that visits nothing yet. -/
def ofLimits (limits : Limits) : Guard κ := { limits }

/-- Asks to visit `key`. The iteration limit is tested first, then the depth, then the path. -/
def enter (guard : Guard κ) (key : κ) : Admission × Guard κ :=
  let guard := { guard with iterations := min (guard.iterations + 1) iterationCeiling }
  if guard.limits.maxIterations < guard.iterations then
    (.iterationExceeded, { guard with exceeded := true })
  else if guard.limits.maxDepth ≤ guard.depth then
    (.depthExceeded, { guard with exceeded := true })
  else if key ∈ guard.visiting then
    (.cycle, guard)
  else
    (.entered, { guard with visiting := key :: guard.visiting, depth := guard.depth + 1 })

/-- Ends the visit of `key`, which must be on the path. -/
def leave (guard : Guard κ) (key : κ) : Except Fault (Guard κ) :=
  if key ∈ guard.visiting then
    .ok { guard with visiting := guard.visiting.erase key, depth := guard.depth - 1 }
  else
    .error .notVisited

/-- Gives the guard up, which must not visit any key. -/
def release (guard : Guard κ) : Except Fault Unit :=
  if guard.visiting.isEmpty then .ok () else .error (.keysLeft guard.visiting.length)

end Guard

/-- A bound on the depth of a walk that may meet the same key again. -/
structure DepthCounter where
  maxDepth : Nat
  depth : Nat := 0
  /-- Whether the limit was ever hit. -/
  exceeded : Bool := false
  deriving DecidableEq, Repr

namespace DepthCounter

/-- A counter at depth zero, of which only the depth limit counts. -/
def ofLimits (limits : Limits) : DepthCounter := { maxDepth := limits.maxDepth }

/-- Goes one step deeper unless the limit is reached. -/
def enter (counter : DepthCounter) : Bool × DepthCounter :=
  if counter.maxDepth ≤ counter.depth then
    (false, { counter with exceeded := true })
  else
    (true, { counter with depth := counter.depth + 1 })

/-- Comes back up one step. -/
def leave (counter : DepthCounter) : Except Fault DepthCounter :=
  if counter.depth = 0 then .error .depthUnderflow
  else .ok { counter with depth := counter.depth - 1 }

/-- Gives the counter up, which must be at depth zero. -/
def release (counter : DepthCounter) : Except Fault Unit :=
  if counter.depth = 0 then .ok () else .error (.depthLeft counter.depth)

end DepthCounter

end NominalGenerics
