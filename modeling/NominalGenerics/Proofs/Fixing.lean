import NominalGenerics.Proofs.BoundCollection

/-!
# Fixing

The type that fixing picks for a type parameter meets all its bounds, and a successful inference
without bootstrap picks one for every parameter from the bounds that collection leaves. An inference
is a solution, `solve`, of which `accepted?` accepts the fixed types.
-/

namespace NominalGenerics

namespace Query

variable {α : Type} {test : α → Query Bool} {as : List α}

theorem of_allM_eq_true (h : as.allM test = .ok true) : ∀ a ∈ as, test a = .ok true := by
  induction as with
  | nil => simp
  | cons a as ih =>
      rw [List.allM] at h
      obtain ⟨b, hb, h⟩ := bind_eq_ok.mp h
      cases b with
      | false => cases h
      | true =>
          intro other hother
          rcases List.mem_cons.mp hother with rfl | hother
          · exact hb
          · exact ih h other hother

theorem of_first?_eq_some {a : α} (h : first? test as = .ok (some a)) :
    a ∈ as ∧ test a = .ok true := by
  induction as with
  | nil => cases h
  | cons b as ih =>
      obtain ⟨passed, hpassed, h⟩ := bind_eq_ok.mp h
      cases passed with
      | true =>
          cases h
          exact ⟨List.mem_cons_self, hpassed⟩
      | false => exact (ih h).imp_left (List.mem_cons_of_mem b)

end Query

namespace BoundSet

/-- The type is a witness that equals the exact ones and lies between the lower and the upper
ones. -/
structure Meets (assignable : Handle → Handle → Query Bool) (bounds : BoundSet) (type : Handle) :
    Prop where
  witness : ∃ flow, type ∈ bounds.side flow
  exact : ∀ witness ∈ bounds.exact, witness = type
  lower : ∀ witness ∈ bounds.lower, assignable witness type = .ok true
  upper : ∀ witness ∈ bounds.upper, assignable type witness = .ok true

/-- Fixing picks a type that meets the bounds. -/
theorem meets_of_fix? {assignable : Handle → Handle → Query Bool} {bounds : BoundSet}
    {type : Handle} (h : bounds.fix? assignable = .ok (some type)) :
    bounds.Meets assignable type := by
  unfold fix? at h
  split at h
  · next exact hexact =>
      obtain ⟨above, habove, h⟩ := Query.bind_eq_ok.mp h
      cases above with
      | false => cases h
      | true =>
          obtain ⟨below, hbelow, h⟩ := Query.bind_eq_ok.mp h
          cases below with
          | false => cases h
          | true =>
              cases h
              exact ⟨⟨.invariant, by simp [side, hexact]⟩, by simp [hexact],
                Query.of_allM_eq_true hbelow, Query.of_allM_eq_true habove⟩
  · cases h
  · next hexact =>
      obtain ⟨upper?, hupper, h⟩ := Query.bind_eq_ok.mp h
      cases upper? with
      | some upper =>
          obtain ⟨below, hbelow, h⟩ := Query.bind_eq_ok.mp h
          cases below with
          | false => cases h
          | true =>
              cases h
              obtain ⟨hmem, habove⟩ := Query.of_first?_eq_some hupper
              exact ⟨⟨.contravariant, hmem⟩, by simp [hexact], Query.of_allM_eq_true hbelow,
                Query.of_allM_eq_true habove⟩
      | none =>
          obtain ⟨lower?, hlower, h⟩ := Query.bind_eq_ok.mp h
          cases lower? with
          | none => cases h
          | some lower =>
              obtain ⟨above, habove, h⟩ := Query.bind_eq_ok.mp h
              cases above with
              | false => cases h
              | true =>
                  cases h
                  obtain ⟨hmem, hbelow⟩ := Query.of_first?_eq_some hlower
                  exact ⟨⟨.covariant, hmem⟩, by simp [hexact], Query.of_allM_eq_true hbelow,
                    Query.of_allM_eq_true habove⟩

end BoundSet

namespace Inference

variable {store : Store} {signature : Signature}

theorem run_bind_eq_ok {α β : Type} {first : InferM α} {next : α → InferM β} {b : β}
    {inferred inferred' : InferredBounds} :
    run (first >>= next) inferred = .ok (.ok b, inferred') ↔
      ∃ a mid, run first inferred = .ok (.ok a, mid) ∧ run (next a) mid = .ok (.ok b, inferred') := by
  rw [run_bind, Query.bind_eq_ok]
  constructor
  · rintro ⟨⟨outcome, mid⟩, hfirst, hnext⟩
    cases outcome with
    | error failure => cases hnext
    | ok a => exact ⟨a, mid, hfirst, hnext⟩
  · rintro ⟨a, mid, hfirst, hnext⟩
    exact ⟨(.ok a, mid), hfirst, hnext⟩

theorem run_get_bind {β : Type} (next : InferredBounds → InferM β) (inferred : InferredBounds) :
    run (get >>= next) inferred = run (next inferred) inferred := rfl

theorem run_query_eq_ok {α : Type} {x : Query α} {a : α} {inferred inferred' : InferredBounds} :
    run (liftM x : InferM α) inferred = .ok (.ok a, inferred') ↔ x = .ok a ∧ inferred' = inferred := by
  cases x with
  | error fault =>
      constructor
      · intro h
        cases h
      · rintro ⟨h, -⟩
        cases h
  | ok b =>
      constructor
      · intro h
        cases h
        exact ⟨rfl, rfl⟩
      · rintro ⟨h, rfl⟩
        cases h
        rfl

/-- Fixing a parameter stores what its bounds give. Breaking early only adds a failure. -/
theorem run_fixAt (breakEarly : Bool) (position : Nat) (inferred : InferredBounds) :
    run (fixAt store breakEarly position) inferred = (do
      let result ← (inferred.bounds[position]?.getD {}).fix? store.isAssignable
      return (if result.isNone && breakEarly then .error (.unfixable position) else .ok (),
        { inferred with fixed := inferred.fixed.set position result })) := by
  rw [fixAt, run_get_bind]
  dsimp only
  cases (inferred.bounds[position]?.getD {}).fix? store.isAssignable with
  | error fault => rfl
  | ok result => cases result <;> cases breakEarly <;> rfl

theorem fixAt_run {inferred inferred' : InferredBounds} {breakEarly : Bool} {position : Nat}
    {u : Unit} (hrun : run (fixAt store breakEarly position) inferred = .ok (.ok u, inferred')) :
    ∃ type?, inferred' = { inferred with fixed := inferred.fixed.set position type? } ∧
      (inferred.bounds[position]?.getD {}).fix? store.isAssignable = .ok type? := by
  rw [run_fixAt] at hrun
  obtain ⟨type?, hfix, hend⟩ := Query.bind_eq_ok.mp hrun
  exact ⟨type?, (Prod.mk.inj (Query.pure_eq_ok.mp hend)).2.symm, hfix⟩

/-- After fixing the parameters at some positions, the types there are those that their bounds
give. -/
theorem fixAll_positions {inferred inferred' : InferredBounds} {breakEarly : Bool}
    {positions : List Nat} {u : Unit}
    (hrun : run (positions.forM (fixAt store breakEarly)) inferred = .ok (.ok u, inferred')) :
    ∃ fixed, inferred' = { inferred with fixed } ∧ fixed.length = inferred.fixed.length ∧
      (∀ (i : Nat), i ∉ positions → fixed[i]? = inferred.fixed[i]?) ∧
      ∀ i ∈ positions, ∀ type?, fixed[i]? = some type? →
        (inferred.bounds[i]?.getD {}).fix? store.isAssignable = .ok type? := by
  induction positions generalizing inferred with
  | nil =>
      cases hrun
      exact ⟨_, rfl, rfl, fun _ _ => rfl, by simp⟩
  | cons position positions ih =>
      obtain ⟨_, mid, hfirst, hrest⟩ := run_bind_eq_ok.mp hrun
      obtain ⟨first?, rfl, hfix⟩ := fixAt_run hfirst
      obtain ⟨fixed, rfl, hlength, hother, hfixed⟩ := ih hrest
      refine ⟨fixed, rfl, by simpa using hlength, fun i hi => ?_, fun i hi type? htype => ?_⟩
      · simp only [List.mem_cons, not_or] at hi
        rw [hother i hi.2, List.getElem?_set_ne (Ne.symm hi.1)]
      · -- A position that comes again is fixed again, from the same bounds.
        by_cases hagain : i ∈ positions
        · exact hfixed i hagain type? htype
        · obtain rfl : i = position := (List.mem_cons.mp hi).resolve_right hagain
          rw [hother i hagain, List.getElem?_set_self'] at htype
          cases hold : inferred.fixed[i]? with
          | none => simp [hold] at htype
          | some old =>
              obtain rfl : first? = type? := by simpa [hold] using htype
              exact hfix

/-- Fixing all parameters that succeeds leaves none without a type, and the types are those that
the bounds give. -/
theorem fixAll_run {inferred inferred' : InferredBounds} {breakEarly : Bool} {u : Unit}
    (hrun : run (fixAll store breakEarly) inferred = .ok (.ok u, inferred')) :
    ∃ fixed, inferred' = { inferred with fixed } ∧ fixed.length = inferred.fixed.length ∧
      inferred'.unresolved = 0 ∧ ∀ i < inferred.typeParams.length, ∀ type?, fixed[i]? = some type? →
        (inferred.bounds[i]?.getD {}).fix? store.isAssignable = .ok type? := by
  rw [fixAll, run_get_bind] at hrun
  obtain ⟨_, mid, hpositions, hend⟩ := run_bind_eq_ok.mp hrun
  obtain ⟨fixed, rfl, hlength, -, hfixed⟩ := fixAll_positions hpositions
  rw [run_get_bind] at hend
  dsimp only at hend
  split at hend
  · cases hend
  · next hresolved =>
      cases hend
      exact ⟨fixed, rfl, hlength, of_not_not hresolved,
        fun i hi => hfixed i (List.mem_range.mpr hi)⟩

theorem run_tryCatch {α : Type} (steps : InferM α) (handler : InferenceFailure → InferM α)
    (inferred : InferredBounds) :
    run (tryCatch steps handler) inferred = (do
      match ← run steps inferred with
      | (.ok a, inferred') => return (.ok a, inferred')
      | (.error failure, inferred') => run (handler failure) inferred') := by
  change ((StateT.run (ExceptT.run steps) inferred) >>= _) = _
  refine bind_congr fun ⟨outcome, inferred'⟩ => ?_
  cases outcome <;> rfl

theorem recorded_of_mem_side {bounds : List BoundSet} {position : Nat} {type : Handle} {flow : Flow}
    (h : type ∈ (bounds[position]?.getD {}).side flow) : Recorded bounds position type flow := by
  cases hset : bounds[position]? with
  | some set => exact ⟨set, hset, by simpa [hset] using h⟩
  | none =>
      rw [hset] at h
      cases flow <;> cases h

theorem eq_map_some_of_mapM_id {fixed : List (Option Handle)} {types : List Handle}
    (h : fixed.mapM id = some types) : fixed = types.map some := by
  induction fixed generalizing types with
  | nil =>
      simp only [List.mapM_nil] at h
      cases h
      rfl
  | cons type? fixed ih =>
      simp only [List.mapM_cons, id, Option.bind_eq_bind, Option.bind_eq_some_iff] at h
      obtain ⟨type, rfl, rest, hrest, h⟩ := h
      cases h
      rw [ih hrest, List.map_cons]

/-- The types that inference without bootstrap finds meet the bounds that collection leaves, and
these accept the call. -/
theorem inferTypes?_run (hs : store.WellFormed) (hsignature : store.SignatureInRange signature)
    (hdeclaring : signature.declaringType = none) {args types : List Handle}
    (hargs : ∀ arg ∈ args, arg < store.size)
    (hinfer : store.inferTypes? signature args {} = .ok (some types)) :
    types.length = signature.typeParams.length ∧ (∀ type ∈ types, type < store.size) ∧
      ∃ bounds, Accepted store signature args (Recorded bounds) ∧
        ∀ (i : Nat) type, types[i]? = some type →
          (bounds[i]?.getD {}).Meets store.isAssignable type := by
  obtain ⟨⟨outcome, last⟩, hrun, hsome⟩ := Query.bind_eq_ok.mp hinfer
  cases outcome with
  | error failure => cases hsome
  | ok types' =>
      cases hsome
      obtain ⟨_, collected, hcollect, hrun⟩ := run_bind_eq_ok.mp hrun
      obtain ⟨_, fixedAll, hfix, hend⟩ := run_bind_eq_ok.mp hrun
      -- Without bootstrap a failure to fix is thrown again.
      rw [run_tryCatch] at hfix
      obtain ⟨⟨outcome, mid⟩, hfixAll, hfix⟩ := Query.bind_eq_ok.mp hfix
      cases outcome with
      | error failure => cases hfix
      | ok u =>
          cases hfix
          obtain ⟨bounds, rfl, hgrow, haccepted⟩ :=
            (collectBounds_achieves hs hsignature hdeclaring hargs _ _ rfl).1 _ _ hcollect
          obtain ⟨fixed, rfl, hlength, -, hfixes⟩ := fixAll_run hfixAll
          have hfixed : fixed = types.map some := by
            rw [run_get_bind] at hend
            split at hend
            · cases hend
            · next types' htypes =>
                obtain ⟨satisfied, _, -, hend⟩ := run_bind_eq_ok.mp hend
                cases satisfied with
                | false => cases hend
                | true =>
                    cases hend
                    exact eq_map_some_of_mapM_id htypes
          have hwidth : types.length = signature.typeParams.length := by
            simpa [hfixed, InferredBounds.ofTypeParams] using hlength
          have hmet : ∀ (i : Nat) type, types[i]? = some type →
              (bounds[i]?.getD {}).Meets store.isAssignable type := by
            intro i type htype
            have hi : i < signature.typeParams.length :=
              hwidth ▸ (List.getElem?_eq_some_iff.mp htype).1
            exact BoundSet.meets_of_fix? (hfixes i hi (some type) (by simp [hfixed, htype]))
          refine ⟨hwidth, fun type htype => ?_, bounds,
            haccepted rfl bounds (BoundsGrow.refl _ bounds), hmet⟩
          obtain ⟨i, hi⟩ := List.getElem?_of_mem htype
          obtain ⟨flow, hside⟩ := (hmet i type hi).witness
          refine (hgrow.fresh (recorded_of_mem_side hside)).resolve_left ?_
          -- The bounds with which collection starts are empty.
          rintro ⟨set, hset, hmem⟩
          obtain ⟨_, -, rfl⟩ := List.mem_map.mp (List.mem_of_getElem? hset)
          cases flow <;> cases hmem

/-- Fixing, with the bootstrap as a second attempt if that is asked for. -/
def fixOrBootstrap (store : Store) (signature : Signature) (bootstraps : Bool) : InferM Unit :=
  tryCatch (fixAll store (!bootstraps)) fun failure => do
    if bootstraps then
      bootstrap store signature
    else
      throw failure

theorem infer_eq (store : Store) (signature : Signature) (args : List Handle)
    (options : InferenceOptions) :
    infer store signature args options = (do
      collectBounds store signature args
      fixOrBootstrap store signature options.bootstrapFromConstraints
      let inferred ← get
      match inferred.fixedTypes? with
      | none => throw (.unresolved inferred.unresolved)
      | some types =>
          if options.skipConstraintCheck then
            return types
          else if ← store.satisfiesConstraints (.callable signature) types then
            return types
          else
            throw .constraintViolation) := rfl

/-- The steps of an inference up to the types that it fixes. -/
def solve (store : Store) (signature : Signature) (args : List Handle) (bootstraps : Bool) :
    InferM Unit := do
  collectBounds store signature args
  tryCatch (fixAll store (!bootstraps)) fun failure => do
    if bootstraps then
      bootstrap store signature
    else
      throw failure

/-- The types that the steps of an inference fix, unless they are to be checked and violate the
constraints. -/
def accepted? (store : Store) (signature : Signature) (skips : Bool) (inferred : InferredBounds) :
    Query (Option (List Handle)) := do
  match inferred.fixedTypes? with
  | none => return none
  | some types =>
      if skips then
        return some types
      else if ← store.satisfiesConstraints (.callable signature) types then
        return some types
      else
        return none

theorem fixedTypes?_of_accepted? {skips : Bool} {inferred : InferredBounds} {types : List Handle}
    (h : accepted? store signature skips inferred = .ok (some types)) :
    inferred.fixedTypes? = some types := by
  unfold accepted? at h
  split at h
  · cases h
  · next types' htypes =>
      split at h
      · cases h
        exact htypes
      · obtain ⟨satisfied, -, h⟩ := Query.bind_eq_ok.mp h
        cases satisfied with
        | false => cases h
        | true =>
            cases h
            exact htypes

theorem inferTypes?_eq (store : Store) (signature : Signature) (args : List Handle)
    (options : InferenceOptions) :
    store.inferTypes? signature args options = (do
      match ← run (solve store signature args options.bootstrapFromConstraints)
        (.ofTypeParams signature.typeParams) with
      | (.ok (), inferred) => accepted? store signature options.skipConstraintCheck inferred
      | (.error _, _) => return none) := by
  have hinfer : infer store signature args options = (do
      solve store signature args options.bootstrapFromConstraints
      let inferred ← get
      match inferred.fixedTypes? with
      | none => throw (.unresolved inferred.unresolved)
      | some types =>
          if options.skipConstraintCheck then
            return types
          else if ← store.satisfiesConstraints (.callable signature) types then
            return types
          else
            throw .constraintViolation) := by
    rw [solve, bind_assoc]
    rfl
  rw [Store.inferTypes?, runFresh, hinfer, run_bind, bind_assoc]
  congr 1
  funext ⟨outcome, inferred⟩
  cases outcome with
  | error failure => rfl
  | ok =>
      dsimp only
      rw [run_get_bind, accepted?]
      cases inferred.fixedTypes? with
      | none => rfl
      | some types =>
          cases options.skipConstraintCheck with
          | true => rfl
          | false =>
              dsimp only
              cases store.satisfiesConstraints (.callable signature) types with
              | error fault => rfl
              | ok answer => cases answer <;> rfl

end Inference

end NominalGenerics
