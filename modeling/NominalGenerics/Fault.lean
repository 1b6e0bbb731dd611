/-!
# Faults

Most operations of the library answer with a value. A few have preconditions that their inputs
can break: a handle may denote no type, a guard may be left twice. Breaking one is a fault. Faults
are kept apart from ordinary negative answers, so "not assignable" and "no such type" never mix.
-/

namespace NominalGenerics

/-- A broken precondition. -/
inductive Fault where
  /-- A handle that denotes no type of the store. -/
  | danglingHandle (handle : Nat)
  /-- A bound type parameter for which there is no argument. -/
  | missingArgument (position : Nat)
  /-- An array of rank zero. -/
  | zeroRank
  /-- An inference call with fewer argument types than declared parameters. -/
  | tooFewArguments (declared given : Nat)
  /-- A guard left for a key that it is not visiting. -/
  | notVisited
  /-- A guard given up while it still visits `count` keys. -/
  | keysLeft (count : Nat)
  /-- A depth counter left at depth zero. -/
  | depthUnderflow
  /-- A depth counter given up at a positive depth. -/
  | depthLeft (depth : Nat)
  /-- A recursion or worklist that used up its fuel. -/
  | outOfFuel
  deriving DecidableEq, Repr

/-- The text of a fault, for the faults that have one. -/
def Fault.message? : Fault → Option String
  | .tooFewArguments declared given =>
      some s!"inference needs an argument type for each of the {declared} parameters, got {given}"
  | .notVisited =>
      some "RecursionGuard::leave() called with a key that is not being visited"
  | .keysLeft count => some s!"RecursionGuard dropped with {count} keys still being visited"
  | .depthUnderflow => some "DepthCounter::leave() called at depth 0"
  | .depthLeft depth => some s!"DepthCounter dropped at depth {depth}"
  | .danglingHandle _ | .missingArgument _ | .zeroRank | .outOfFuel => none

/-- Computations that answer a question and may fault. -/
abbrev Query := Except Fault

namespace Query

variable {α : Type}

/-- The first element that passes a test. Later elements are not tested. -/
def first? (test : α → Query Bool) : List α → Query (Option α)
  | [] => return none
  | a :: rest => do
      if ← test a then return some a else first? test rest

/-- The elements that pass a test. -/
def select (test : α → Query Bool) : List α → Query (List α)
  | [] => return []
  | a :: rest => do
      if ← test a then return a :: (← select test rest) else select test rest

end Query

end NominalGenerics
