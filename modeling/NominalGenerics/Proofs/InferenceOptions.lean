import NominalGenerics.Proofs.Fixing

/-!
# Options of inference

The options change how an inference call fixes parameters and whether it checks the constraints. A
call that succeeds does not depend on that: with more options set it goes through the same bounds
and returns the same types. Where fixing breaks off early and yet succeeds, every parameter got a
type, so there was nothing to break off for, and the bootstrap does not start.
-/

namespace NominalGenerics.Inference

variable {store : Store} {signature : Signature} {inferred inferred' : InferredBounds}

/-- A parameter that is fixed with breaking early is fixed without it. -/
theorem fixAt_of_breakEarly {position : Nat} {u : Unit} (breakEarly : Bool)
    (h : run (fixAt store true position) inferred = .ok (.ok u, inferred')) :
    run (fixAt store breakEarly position) inferred = .ok (.ok u, inferred') := by
  rw [run_fixAt] at h ⊢
  obtain ⟨type?, hfix, h⟩ := Query.bind_eq_ok.mp h
  rw [hfix, Query.ok_bind]
  cases type? with
  | none => cases Query.pure_eq_ok.mp h
  | some type => exact h

theorem positions_of_breakEarly {positions : List Nat} {u : Unit} (breakEarly : Bool)
    (h : run (positions.forM (fixAt store true)) inferred = .ok (.ok u, inferred')) :
    run (positions.forM (fixAt store breakEarly)) inferred = .ok (.ok u, inferred') := by
  induction positions generalizing inferred with
  | nil => exact h
  | cons position positions ih =>
      obtain ⟨_, mid, hfirst, hrest⟩ := run_bind_eq_ok.mp h
      exact run_bind_eq_ok.mpr ⟨_, mid, fixAt_of_breakEarly breakEarly hfirst, ih hrest⟩

/-- Fixing that succeeds with breaking early succeeds without it, with the same types. -/
theorem fixAll_of_breakEarly {u : Unit} (breakEarly : Bool)
    (h : run (fixAll store true) inferred = .ok (.ok u, inferred')) :
    run (fixAll store breakEarly) inferred = .ok (.ok u, inferred') := by
  rw [fixAll, run_get_bind] at h ⊢
  obtain ⟨_, mid, hpositions, hend⟩ := run_bind_eq_ok.mp h
  exact run_bind_eq_ok.mpr ⟨_, mid, positions_of_breakEarly breakEarly hpositions, hend⟩

theorem run_tryCatch_of_ok {α : Type} {steps : InferM α} {a : α}
    (handler : InferenceFailure → InferM α) (h : run steps inferred = .ok (.ok a, inferred')) :
    run (tryCatch steps handler) inferred = .ok (.ok a, inferred') := by
  rw [run_tryCatch, h]
  rfl

/-- Fixing that succeeds without the bootstrap succeeds with it, which then has nothing to do. -/
theorem fixOrBootstrap_of_bootstraps {bootstraps : Bool} {u : Unit} (more : Bool)
    (h : run (fixOrBootstrap store signature bootstraps) inferred = .ok (.ok u, inferred')) :
    run (fixOrBootstrap store signature (bootstraps || more)) inferred = .ok (.ok u, inferred') := by
  cases bootstraps with
  | true => exact h
  | false =>
      rw [fixOrBootstrap, run_tryCatch] at h
      obtain ⟨⟨outcome, mid⟩, hfixAll, h⟩ := Query.bind_eq_ok.mp h
      cases outcome with
      | error failure => cases h
      | ok u =>
          cases h
          exact run_tryCatch_of_ok _ (fixAll_of_breakEarly _ hfixAll)

/-- Types that the constraint check lets through are returned without it as well. -/
theorem checking_of_skips {types accepted : List Handle} {skips : Bool} (more : Bool)
    (h : run (do
        if skips then
          return types
        else if ← store.satisfiesConstraints (.callable signature) types then
          return types
        else
          throw .constraintViolation) inferred = .ok (.ok accepted, inferred')) :
    run (do
        if skips || more then
          return types
        else if ← store.satisfiesConstraints (.callable signature) types then
          return types
        else
          throw .constraintViolation) inferred = .ok (.ok accepted, inferred') := by
  cases skips with
  | true => exact h
  | false =>
      cases more with
      | false => exact h
      | true =>
          obtain ⟨satisfied, mid, hsatisfied, hend⟩ := run_bind_eq_ok.mp h
          obtain ⟨-, rfl⟩ := run_query_eq_ok.mp hsatisfied
          cases satisfied with
          | true => exact hend
          | false => cases hend

/-- Options only add success: a call that succeeds on a new context returns the same types, from the
same bounds, with more options set. -/
theorem infer_union {args types : List Handle} {options : InferenceOptions}
    (extra : InferenceOptions)
    (h : runFresh signature (infer store signature args options) = .ok (.ok types, inferred)) :
    runFresh signature (infer store signature args (options.union extra)) =
      .ok (.ok types, inferred) := by
  rw [runFresh, infer_eq] at h ⊢
  obtain ⟨_, collected, hcollect, h⟩ := run_bind_eq_ok.mp h
  obtain ⟨u, last, hfixing, hend⟩ := run_bind_eq_ok.mp h
  refine run_bind_eq_ok.mpr ⟨_, collected, hcollect, run_bind_eq_ok.mpr
    ⟨u, last, fixOrBootstrap_of_bootstraps extra.bootstrapFromConstraints hfixing, ?_⟩⟩
  rw [run_get_bind] at hend ⊢
  cases htypes : last.fixedTypes? with
  | none =>
      rw [htypes] at hend
      cases hend
  | some fixed =>
      rw [htypes] at hend
      exact checking_of_skips extra.skipConstraintCheck hend

/-- The operations of `copyStore`. -/
def copyOperations : List Operation :=
  [.declare .classType "string",
    .declareGeneric .interfaceType "Sequence" [("X", .covariant)],
    .declareGeneric .classType "List" [("Y", .invariant)],
    .instantiate 2 [5],
    .addInterface 4 6,
    .finish,
    .declareCallable "Copy" ["T", "U"],
    .instantiate 2 [8],
    .addConstraint 7 (.base 9),
    .addParameter 0 7 .byValue,
    .addParameter 0 8 .byValue,
    .instantiate 4 [1]]

/-- A store with lists as sequences and `Copy<T, U>(T, U)` where `T : Sequence<U>`. -/
def copyStore : Store := (Operation.runAll copyOperations (.ofRoot "object")).getD {}

/-- The callable of `copyStore`. -/
def copy : Signature :=
  { id := 0, name := "Copy", typeParams := [7, 8], params := [⟨7, .byValue⟩, ⟨8, .byValue⟩] }

/-- A list of strings and a string fix both parameters, so the options make no difference. -/
theorem infer_union_copy :
    ∃ inferred, runFresh copy (infer copyStore copy [10, 1] {}) = .ok (.ok [10, 1], inferred) ∧
      runFresh copy (infer copyStore copy [10, 1] (InferenceOptions.union {} ⟨true, true⟩)) =
        .ok (.ok [10, 1], inferred) := by
  have hinfer : runFresh copy (infer copyStore copy [10, 1] {}) =
      .ok (.ok [10, 1], ⟨[7, 8], [⟨[10], [], []⟩, ⟨[1], [], []⟩], [some 10, some 1]⟩) := by
    decide +kernel
  exact ⟨_, hinfer, infer_union ⟨true, true⟩ hinfer⟩

end NominalGenerics.Inference
