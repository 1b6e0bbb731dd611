import NominalGenerics.Inference
import NominalGenerics.Proofs.Matching

/-!
# Collection of bounds for a call

A call checks its concrete positions first and then matches the templates of the others. `Accepted`
collects what the positions of a call have to satisfy: a successful collection leaves bounds that
record it, and a call that satisfies it is never rejected.
-/

namespace NominalGenerics.Inference

open Collection (Matches collect_matches enclosingArgument)

variable {store : Store} {signature : Signature}

/-- The comparison from which the template of a parameter is matched. By-reference parameters, and
optional parameters that get an unwrapped argument, are compared exactly. -/
def parameterComparison (store : Store) (template arg : Handle) (mode : PassingMode) :
    Query Comparison := do
  let (target, flow) ← match ← unwrap? store template arg with
    | some inner => pure (inner, Flow.invariant)
    | none => pure (template, Flow.covariant)
  return ⟨arg, target, if mode.isByRef then .invariant else flow⟩

/-- The comparison from which the return template is matched. -/
def returnComparison (store : Store) (expected returns : Handle) : Query Comparison := do
  let (source, flow) ← match ← unwrap? store expected returns with
    | some inner => pure (inner, Flow.invariant)
    | none => pure (expected, Flow.contravariant)
  return ⟨source, returns, flow⟩

/-- What the steps do to bounds of a given number of parameters: they only add witnesses, `P` holds
of the bounds after success, and of any to which these grow, and they succeed if `Q` holds. -/
def Achieves (size width : Nat) (steps : InferM Unit) (P : List BoundSet → Prop) (Q : Prop) : Prop :=
  ∀ inferred : InferredBounds, inferred.bounds.length = width →
    (∀ outcome inferred', run steps inferred = .ok (outcome, inferred') →
      ∃ bounds, inferred' = { inferred with bounds } ∧ BoundsGrow size inferred.bounds bounds ∧
        (outcome = .ok () → ∀ later, BoundsGrow size bounds later → P later)) ∧
    (Q → ∃ inferred', run steps inferred = .ok (.ok (), inferred'))

theorem run_bind {α β : Type} (first : InferM α) (next : α → InferM β)
    (inferred : InferredBounds) :
    run (first >>= next) inferred = (do
      match ← run first inferred with
      | (.ok a, inferred') => run (next a) inferred'
      | (.error failure, inferred') => return (.error failure, inferred')) := by
  simp only [run, ExceptT.run_bind, StateT.run_bind]
  congr 1
  funext ⟨outcome, inferred'⟩
  cases outcome <;> rfl

section Steps

variable {size width : Nat} {P P' : List BoundSet → Prop} {Q Q' : Prop} {steps : InferM Unit}

theorem Achieves.imp (h : Achieves size width steps P Q) (hP : ∀ bounds, P bounds → P' bounds)
    (hQ : Q' → Q) : Achieves size width steps P' Q' := by
  intro inferred hwidth
  obtain ⟨hsound, hcomplete⟩ := h inferred hwidth
  refine ⟨fun outcome inferred' hrun => ?_, fun hq => hcomplete (hQ hq)⟩
  obtain ⟨bounds, hbounds, hgrow, hafter⟩ := hsound outcome inferred' hrun
  exact ⟨bounds, hbounds, hgrow, fun ho later hl => hP later (hafter ho later hl)⟩

theorem achieves_pure (hP : ∀ bounds, P bounds) : Achieves size width (pure ()) P Q := by
  intro inferred hwidth
  refine ⟨fun outcome inferred' hrun => ?_, fun _ => ⟨inferred, rfl⟩⟩
  cases hrun
  exact ⟨inferred.bounds, rfl, BoundsGrow.refl _ _, fun _ later _ => hP later⟩

theorem achieves_throw (failure : InferenceFailure) (hQ : ¬ Q) :
    Achieves size width (throw failure) P Q := by
  intro inferred hwidth
  refine ⟨fun outcome inferred' hrun => ?_, fun hq => absurd hq hQ⟩
  cases hrun
  exact ⟨inferred.bounds, rfl, BoundsGrow.refl _ _, by simp⟩

theorem achieves_fault (fault : Fault) (hQ : ¬ Q) :
    Achieves size width (throwThe Fault fault) P Q := by
  intro inferred hwidth
  refine ⟨fun outcome inferred' hrun => ?_, fun hq => absurd hq hQ⟩
  cases hrun

theorem achieves_read {α : Type} {x : Query α} {a : α} {f : α → InferM Unit} (hx : x = .ok a)
    (h : Achieves size width (f a) P Q) : Achieves size width (liftM x >>= f) P Q := by
  subst hx
  exact h

/-- A query that may fault. -/
theorem achieves_query {α : Type} {x : Query α} {f : α → InferM Unit}
    (h : ∀ a, x = .ok a → Achieves size width (f a) P Q) (hQ : Q → ∃ a, x = .ok a) :
    Achieves size width (liftM x >>= f) P Q := by
  cases hx : x with
  | ok a => exact h a hx
  | error fault =>
      intro inferred hwidth
      refine ⟨fun outcome inferred' hrun => ?_, fun hq => ?_⟩
      · cases hrun
      · obtain ⟨a, ha⟩ := hQ hq
        cases hx.symm.trans ha

/-- Steps one after the other achieve what both achieve. -/
theorem Achieves.seq {next : Unit → InferM Unit} (h : Achieves size width steps P Q)
    (h' : Achieves size width (next ()) P' Q') :
    Achieves size width (steps >>= next) (fun bounds => P bounds ∧ P' bounds) (Q ∧ Q') := by
  intro inferred hwidth
  obtain ⟨hsound, hcomplete⟩ := h inferred hwidth
  rw [run_bind]
  constructor
  · intro outcome' inferred₂ hrun
    obtain ⟨⟨outcome, inferred₁⟩, hfirst, hrun⟩ := Query.bind_eq_ok.mp hrun
    obtain ⟨bounds, rfl, hgrow, hafter⟩ := hsound outcome inferred₁ hfirst
    cases outcome with
    | error failure =>
        cases hrun
        exact ⟨bounds, rfl, hgrow, by simp⟩
    | ok u =>
        obtain ⟨bounds', rfl, hgrow', hafter'⟩ :=
          (h' { inferred with bounds } (hgrow.length.trans hwidth)).1 outcome' inferred₂ hrun
        refine ⟨bounds', rfl, hgrow.trans hgrow', fun ho later hl => ⟨?_, hafter' ho later hl⟩⟩
        exact hafter rfl later (hgrow'.trans hl)
  · rintro ⟨hq, hq'⟩
    obtain ⟨inferred₁, hfirst⟩ := hcomplete hq
    obtain ⟨bounds, rfl, hgrow, -⟩ := hsound _ inferred₁ hfirst
    obtain ⟨inferred₂, hsecond⟩ :=
      (h' { inferred with bounds } (hgrow.length.trans hwidth)).2 hq'
    exact ⟨inferred₂, by rw [hfirst, Query.ok_bind]; exact hsecond⟩

theorem achieves_forM {α : Type} {f : α → InferM Unit} {P : α → List BoundSet → Prop}
    {Q : α → Prop} {as : List α} (h : ∀ a ∈ as, Achieves size width (f a) (P a) (Q a)) :
    Achieves size width (as.forM f) (fun bounds => ∀ a ∈ as, P a bounds) (∀ a ∈ as, Q a) := by
  induction as with
  | nil => exact achieves_pure (by simp)
  | cons a as ih =>
      have hrest := ih fun b hb => h b (List.mem_cons_of_mem a hb)
      refine ((h a List.mem_cons_self).seq hrest).imp (fun bounds hboth b hb => ?_)
        fun hall => ⟨hall a List.mem_cons_self, fun b hb => hall b (List.mem_cons_of_mem a hb)⟩
      rcases List.mem_cons.mp hb with rfl | hb
      · exact hboth.1
      · exact hboth.2 b hb

end Steps

section Positions

variable {width : Nat} {arg expected returns : Handle} {param : Parameter} {index : Nat}

/-- Outside a generic type there are no enclosing arguments. -/
theorem enclosingArgument_of_plain (hdeclaring : ∀ declaring,
      signature.declaringType = some declaring → store.definition? declaring = .ok none)
    {type : Handle} (hlt : type < store.size) : enclosingArgument store signature type = .ok type := by
  obtain ⟨entry, hentry⟩ := Store.entry_of_lt hlt
  rw [enclosingArgument, Store.param?, Store.query_of_entry hentry (·.param?), Query.ok_bind]
  split
  · next declaring _ hdecl =>
      split
      · rw [hdeclaring declaring hdecl, Query.ok_bind, if_neg (by simp)]
        rfl
      · rfl
  · rfl

theorem enclosingArgument_of_none (hdeclaring : signature.declaringType = none) {type : Handle}
    (hlt : type < store.size) : enclosingArgument store signature type = .ok type :=
  enclosingArgument_of_plain (by simp [hdeclaring]) hlt

theorem unwrap?_total (hs : store.WellFormed) {wrapped other : Handle} (hw : wrapped < store.size)
    (ho : other < store.size) :
    ∃ result, unwrap? store wrapped other = .ok result ∧
      ∀ inner, result = some inner → inner < store.size ∧
        store.isOptionalWrapper wrapped = .ok true ∧ store.isOptionalWrapper other = .ok false ∧
        store.arguments wrapped = .ok [inner] := by
  obtain ⟨b, hb⟩ := Assignability.isOptionalWrapper_total hw
  obtain ⟨b', hb'⟩ := Assignability.isOptionalWrapper_total ho
  obtain ⟨args, hargs, hall⟩ := Collection.arguments_total hs hw
  rw [unwrap?, hb, Query.ok_bind]
  cases b with
  | false => exact ⟨none, rfl, by simp⟩
  | true =>
      rw [if_pos rfl, hb', Query.ok_bind]
      cases b' with
      | true => exact ⟨none, rfl, by simp⟩
      | false =>
          rw [if_neg (by simp), hargs, Query.ok_bind]
          split
          · next inner =>
              refine ⟨some inner, rfl, ?_⟩
              rintro _ ⟨rfl⟩
              exact ⟨hall inner List.mem_cons_self, rfl, rfl, rfl⟩
          · exact ⟨none, rfl, by simp⟩

theorem parameterComparison_total (hs : store.WellFormed) {template : Handle}
    (ht : template < store.size) (ha : arg < store.size) (mode : PassingMode) :
    ∃ c, parameterComparison store template arg mode = .ok c ∧ c.source < store.size ∧
      c.target < store.size := by
  obtain ⟨result, hresult, hinner⟩ := unwrap?_total hs ht ha
  rw [parameterComparison, hresult, Query.ok_bind]
  cases result with
  | none => exact ⟨_, rfl, ha, ht⟩
  | some inner => exact ⟨_, rfl, ha, (hinner inner rfl).1⟩

theorem returnComparison_total (hs : store.WellFormed) (he : expected < store.size)
    (hr : returns < store.size) :
    ∃ c, returnComparison store expected returns = .ok c ∧ c.source < store.size ∧
      c.target < store.size := by
  obtain ⟨result, hresult, hinner⟩ := unwrap?_total hs he hr
  rw [returnComparison, hresult, Query.ok_bind]
  cases result with
  | none => exact ⟨_, rfl, he, hr⟩
  | some inner => exact ⟨_, rfl, (hinner inner rfl).1, hr⟩

theorem run_collect {c : Comparison} {matched : Bool} {bounds : List BoundSet}
    {inferred : InferredBounds}
    (h : Collection.collect store signature c.source c.target c.flow inferred.bounds =
      .ok (matched, bounds)) :
    run (collect store signature c.source c.target c.flow) inferred =
      .ok (.ok matched, { inferred with bounds }) := by
  have hget : run (get : InferM InferredBounds) inferred = .ok (.ok inferred, inferred) := rfl
  have hlift : run (liftM (Collection.collect store signature c.source c.target c.flow
      inferred.bounds) : InferM (Bool × List BoundSet)) inferred =
        .ok (.ok (matched, bounds), inferred) := by
    rw [h]
    rfl
  rw [collect, run_bind, hget, Query.ok_bind]
  simp only
  rw [run_bind, hlift]
  rfl

/-- Matching one comparison, with a failure to throw if it does not match. -/
theorem collect_achieves (width : Nat) (hs : store.WellFormed) (hsignature : store.SignatureInRange signature)
    {c : Comparison} (hsource : c.source < store.size) (htarget : c.target < store.size)
    (failure : InferenceFailure) :
    Achieves store.size width
      (do if (← collect store signature c.source c.target c.flow) then return else throw failure)
      (fun bounds => Matches store signature (Recorded bounds) Limits.collection.maxDepth c)
      (Matches store signature (fun position _ _ => position < width)
        Limits.collection.maxDepth c) := by
  intro inferred hwidth
  obtain ⟨matched, bounds, hcollect, hgrow, hsound, hcomplete⟩ :=
    collect_matches hs hsignature c inferred.bounds hsource htarget
  rw [run_bind, run_collect hcollect, Query.ok_bind]
  cases matched with
  | true =>
      refine ⟨fun outcome inferred' h => ?_, fun _ => ⟨_, rfl⟩⟩
      cases h
      exact ⟨bounds, rfl, hgrow, fun _ later hl => hsound rfl later hl⟩
  | false =>
      refine ⟨fun outcome inferred' h => ?_, fun hq => absurd (hwidth ▸ hq) (hcomplete rfl)⟩
      cases h
      exact ⟨bounds, rfl, hgrow, by simp⟩

theorem checkParameter_achieves (hdeclaring : signature.declaringType = none)
    (ht : param.type < store.size) :
    Achieves store.size width (checkParameter store signature param arg index)
      (fun _ => store.isOpen param.type = .ok false → compatible store arg param.type = .ok true)
      (store.isOpen param.type = .ok false → compatible store arg param.type = .ok true) := by
  obtain ⟨form, hform⟩ := Store.form_isSome ht
  have hopen := Store.isOpen_of_form hform
  refine achieves_read (enclosingArgument_of_none hdeclaring ht) (achieves_read hopen ?_)
  cases htemplate : form.isOpen with
  | true =>
      refine achieves_pure fun _ hclosed => ?_
      cases (htemplate ▸ hopen).symm.trans hclosed
  | false =>
      rw [htemplate] at hopen
      refine achieves_query (fun accepted haccepted => ?_) fun hq => ⟨true, hq hopen⟩
      cases accepted with
      | true => exact achieves_pure fun _ _ => haccepted
      | false =>
          refine achieves_throw _ fun hq => ?_
          cases haccepted.symm.trans (hq hopen)

theorem checkReturn_achieves (hdeclaring : signature.declaringType = none)
    (hsignature : store.SignatureInRange signature) :
    Achieves store.size width (checkReturn store signature expected)
      (fun _ => ∃ returns, signature.returns = some returns ∧
        (store.isOpen returns = .ok false → compatible store returns expected = .ok true))
      (∃ returns, signature.returns = some returns ∧
        (store.isOpen returns = .ok false → compatible store returns expected = .ok true)) := by
  unfold checkReturn
  cases hreturns : signature.returns with
  | none => exact achieves_throw _ (by simp)
  | some returns =>
      have hlt := hsignature.returns returns hreturns
      obtain ⟨form, hform⟩ := Store.form_isSome hlt
      have hopen := Store.isOpen_of_form hform
      refine achieves_read (enclosingArgument_of_none hdeclaring hlt) (achieves_read hopen ?_)
      cases htemplate : form.isOpen with
      | true =>
          refine achieves_pure fun _ => ⟨returns, rfl, fun hclosed => ?_⟩
          cases (htemplate ▸ hopen).symm.trans hclosed
      | false =>
          rw [htemplate] at hopen
          refine achieves_query (fun accepted haccepted => ?_) ?_
          · cases accepted with
            | true => exact achieves_pure fun _ => ⟨returns, rfl, fun _ => haccepted⟩
            | false =>
                refine achieves_throw _ ?_
                rintro ⟨_, ⟨rfl⟩, hq⟩
                cases haccepted.symm.trans (hq hopen)
          · rintro ⟨_, ⟨rfl⟩, hq⟩
            exact ⟨true, hq hopen⟩

theorem collectParameter_achieves (hs : store.WellFormed)
    (hsignature : store.SignatureInRange signature) (hdeclaring : signature.declaringType = none)
    (ht : param.type < store.size) (ha : arg < store.size) :
    Achieves store.size width (collectParameter store signature param arg index)
      (fun bounds => store.isOpen param.type = .ok true →
        ∃ c, parameterComparison store param.type arg param.mode = .ok c ∧
          Matches store signature (Recorded bounds) Limits.collection.maxDepth c)
      (store.isOpen param.type = .ok true →
        ∃ c, parameterComparison store param.type arg param.mode = .ok c ∧
          Matches store signature (fun position _ _ => position < width)
            Limits.collection.maxDepth c) := by
  obtain ⟨form, hform⟩ := Store.form_isSome ht
  have hopen := Store.isOpen_of_form hform
  refine achieves_read (enclosingArgument_of_none hdeclaring ht) (achieves_read hopen ?_)
  cases htemplate : form.isOpen with
  | false =>
      refine achieves_pure fun _ htrue => ?_
      cases (htemplate ▸ hopen).symm.trans htrue
  | true =>
      rw [htemplate] at hopen
      obtain ⟨c, hc, hsource, htarget⟩ := parameterComparison_total hs ht ha param.mode
      obtain ⟨result, hresult, -⟩ := unwrap?_total hs ht ha
      refine achieves_read hresult ?_
      have hmatch := collect_achieves width hs hsignature hsource htarget
        (.unmatchedParameter index)
      have hcomparison := hc
      rw [parameterComparison, hresult, Query.ok_bind] at hc
      refine Achieves.imp (P := fun bounds => Matches store signature (Recorded bounds)
        Limits.collection.maxDepth c) (Q := Matches store signature
          (fun position _ _ => position < width) Limits.collection.maxDepth c) ?_
        (fun bounds h _ => ⟨c, hcomparison, h⟩) fun hq => ?_
      · cases result <;> cases hc <;> exact hmatch
      · obtain ⟨c', hc', hmatches⟩ := hq hopen
        cases hcomparison.symm.trans hc'
        exact hmatches

theorem collectReturn_achieves (hs : store.WellFormed)
    (hsignature : store.SignatureInRange signature) (he : expected < store.size)
    (hr : returns < store.size) :
    Achieves store.size width (collectReturn store signature expected returns)
      (fun bounds => ∃ c, returnComparison store expected returns = .ok c ∧
        Matches store signature (Recorded bounds) Limits.collection.maxDepth c)
      (∃ c, returnComparison store expected returns = .ok c ∧
        Matches store signature (fun position _ _ => position < width)
          Limits.collection.maxDepth c) := by
  obtain ⟨c, hc, hsource, htarget⟩ := returnComparison_total hs he hr
  obtain ⟨result, hresult, -⟩ := unwrap?_total hs he hr
  have hmatch := collect_achieves width hs hsignature hsource htarget .unmatchedReturn
  have hcomparison := hc
  rw [returnComparison, hresult, Query.ok_bind] at hc
  refine achieves_read hresult (Achieves.imp (P := fun bounds => Matches store signature
    (Recorded bounds) Limits.collection.maxDepth c) (Q := Matches store signature
      (fun position _ _ => position < width) Limits.collection.maxDepth c) ?_
    (fun bounds h => ⟨c, hcomparison, h⟩) fun hq => ?_)
  · cases result <;> cases hc <;> exact hmatch
  · obtain ⟨c', hc', hmatches⟩ := hq
    cases hcomparison.symm.trans hc'
    exact hmatches

end Positions

/-- The comparisons with which the collection of a call starts. -/
inductive Starts (store : Store) (signature : Signature) (args : List Handle) : Comparison → Prop
  | parameter {i : Nat} {param : Parameter} {arg : Handle} {c : Comparison}
      (hparam : signature.params[i]? = some param) (harg : args[i]? = some arg)
      (hc : parameterComparison store param.type arg param.mode = .ok c) :
      Starts store signature args c
  | result {expected returns : Handle} {c : Comparison}
      (hexpected : args[signature.params.length]? = some expected)
      (hreturns : signature.returns = some returns)
      (hc : returnComparison store expected returns = .ok c) : Starts store signature args c

/-- The comparisons that the collection of a call can come to. -/
inductive Reached (store : Store) (signature : Signature) (args : List Handle) : Comparison → Prop
  | start {c : Comparison} (hc : Starts store signature args c) : Reached store signature args c
  | nested {c d : Comparison} (hc : Reached store signature args c)
      (hnested : Collection.Nested store c d) : Reached store signature args d

section Checks

open Collection (Compound HasArray Elements Instances ArgumentAt Nested containerElement?)

/-- The elements that are compared for two types of which one is an array. -/
def elementComparisons (store : Store) (c : Comparison) : Query (List Comparison) := do
  match c.flow with
  | .invariant =>
      match ← store.array? c.source, ← store.array? c.target with
      | some (source, rank), some (target, rank') =>
          return if rank = rank' then [⟨source, target, .invariant⟩] else []
      | _, _ => return []
  | flow =>
      match ← store.array? (if flow = .contravariant then c.target else c.source) with
      | none => return []
      | some (_, rank) =>
          match ← containerElement? store c.source rank,
            ← containerElement? store c.target rank with
          | some source, some target =>
              return [⟨source, target, if ← store.isValueType source then .invariant else flow⟩]
          | _, _ => return []

/-- The arguments that are compared for two types that are no arrays. -/
def argumentComparisons (store : Store) (c : Comparison) : Query (List Comparison) := do
  let sourceDefinition ← store.definitionOrSelf c.source
  let targetDefinition ← store.definitionOrSelf c.target
  let compare (definition source target : Handle) : Query (List Comparison) := do
    ((← store.arguments source).zip (← store.arguments target)).zipIdx.mapM
      fun ((source, target), position) => do
        return ⟨source, target, c.flow.combine (← store.declaredVariance definition position)
          (← store.isValueType source)⟩
  match c.flow with
  | .invariant => compare sourceDefinition c.source c.target
  | .covariant =>
      match ← store.findImplementation c.source targetDefinition with
      | .found found => compare targetDefinition found c.target
      | _ => return []
  | .contravariant =>
      match ← store.findImplementation c.target sourceDefinition with
      | .found found => compare sourceDefinition c.source found
      | _ => return []

/-- The comparisons nested in a comparison. -/
def nestedComparisons (store : Store) (c : Comparison) : Query (List Comparison) := do
  if (← store.param? c.target).isNone && (← store.isOpen c.target) then
    if (← store.array? c.source).isSome || (← store.array? c.target).isSome then
      elementComparisons store c
    else
      argumentComparisons store c
  else
    return []

/-- The comparisons with which the collection of a call starts. -/
def startComparisons (store : Store) (signature : Signature) (args : List Handle) :
    Query (List Comparison) := do
  let parameters ← (signature.params.zip args).mapM fun (param, arg) =>
    parameterComparison store param.type arg param.mode
  match args[signature.params.length]?, signature.returns with
  | some expected, some returns => return parameters ++ [← returnComparison store expected returns]
  | _, _ => return parameters

variable {c d : Comparison} {cs ds : List Comparison} {args : List Handle}

theorem mem_elementComparisons (h : elementComparisons store c = .ok ds)
    (helements : Elements store c d) : d ∈ ds := by
  obtain ⟨source, target, flow⟩ := c
  obtain ⟨dsource, dtarget, dflow⟩ := d
  cases flow with
  | invariant =>
      obtain ⟨rfl, rank, hsource, htarget⟩ := helements
      simp only [elementComparisons, hsource, htarget, Query.ok_bind, if_true,
        Query.pure_eq_ok] at h
      simp [← h]
  | covariant | contravariant =>
      obtain ⟨element, rank, valueType, harray, hsource, htarget, hvalue, rfl⟩ := helements
      simp only [reduceCtorEq, if_true, if_false] at harray
      simp only [elementComparisons, reduceCtorEq, if_true, if_false, harray, hsource, htarget,
        hvalue, Query.ok_bind, Query.pure_eq_ok] at h
      simp [← h]

theorem mem_argumentComparisons (h : argumentComparisons store c = .ok ds) {definition : Handle}
    {sourceArgs targetArgs : List Handle} {position : Nat}
    (hinstances : Instances store c definition sourceArgs targetArgs)
    (hsource : sourceArgs[position]? = some d.source)
    (htarget : targetArgs[position]? = some d.target)
    (hargument : ArgumentAt store c.flow definition position d) : d ∈ ds := by
  obtain ⟨sourceDefinition, hsd, h⟩ := Query.bind_eq_ok.mp h
  obtain ⟨targetDefinition, htd, h⟩ := Query.bind_eq_ok.mp h
  have hmem : ((d.source, d.target), position) ∈ (sourceArgs.zip targetArgs).zipIdx := by
    rw [List.mk_mem_zipIdx_iff_getElem?, List.getElem?_zip_eq_some]
    exact ⟨hsource, htarget⟩
  obtain ⟨variance, valueType, hvariance, hvalue, hflow⟩ := hargument
  -- Whichever types are compared, the comparison at the position is among those of their arguments.
  have hcompare : (((sourceArgs.zip targetArgs).zipIdx.mapM fun ((source, target), position) => do
      return (⟨source, target, c.flow.combine (← store.declaredVariance definition position)
        (← store.isValueType source)⟩ : Comparison)) : Query (List Comparison)) = .ok ds →
      d ∈ ds := by
    intro hds
    obtain ⟨e, he, heq⟩ := Query.mem_of_mapM hds hmem
    simp only [hvariance, hvalue, Query.ok_bind, Query.pure_eq_ok, ← hflow] at heq
    subst heq
    exact he
  obtain ⟨source, target, flow⟩ := c
  cases flow with
  | invariant =>
      obtain ⟨hsd', -, hsargs, htargs⟩ := hinstances
      obtain rfl := Except.ok.inj (hsd'.symm.trans hsd)
      simp only [hsargs, htargs, Query.ok_bind] at h
      exact hcompare h
  | covariant =>
      obtain ⟨htd', htargs, found, hfound, hsargs⟩ := hinstances
      obtain rfl := Except.ok.inj (htd'.symm.trans htd)
      simp only [hfound, hsargs, htargs, Query.ok_bind] at h
      exact hcompare h
  | contravariant =>
      obtain ⟨hsd', hsargs, found, hfound, htargs⟩ := hinstances
      obtain rfl := Except.ok.inj (hsd'.symm.trans hsd)
      simp only [hfound, hsargs, htargs, Query.ok_bind] at h
      exact hcompare h

theorem mem_nestedComparisons (h : nestedComparisons store c = .ok ds) (hnested : Nested store c d) :
    d ∈ ds := by
  obtain ⟨param?, hparam?, h⟩ := Query.bind_eq_ok.mp h
  obtain ⟨isOpen, hopen, h⟩ := Query.bind_eq_ok.mp h
  have hcompound : Compound store c.target := by cases hnested <;> assumption
  obtain rfl := Except.ok.inj (hcompound.1.symm.trans hparam?)
  obtain rfl := Except.ok.inj (hcompound.2.symm.trans hopen)
  obtain ⟨s, hs, h⟩ := Query.bind_eq_ok.mp h
  obtain ⟨t, ht, h⟩ := Query.bind_eq_ok.mp h
  cases hnested with
  | element _ harray helements =>
      obtain ⟨_, _, hs', ht', harray⟩ := harray
      obtain rfl := Except.ok.inj (hs'.symm.trans hs)
      obtain rfl := Except.ok.inj (ht'.symm.trans ht)
      rw [if_pos harray] at h
      exact mem_elementComparisons h helements
  | argument _ harray hinstances hsource htarget hargument =>
      rw [if_neg fun hsome => harray ⟨s, t, hs, ht, hsome⟩] at h
      exact mem_argumentComparisons h hinstances hsource htarget hargument

theorem mem_startComparisons (h : startComparisons store signature args = .ok ds)
    (hstarts : Starts store signature args c) : c ∈ ds := by
  obtain ⟨parameters, hparameters, h⟩ := Query.bind_eq_ok.mp h
  cases hstarts with
  | @parameter i param arg _ hparam harg hc =>
      have hmem : (param, arg) ∈ signature.params.zip args :=
        List.mem_of_getElem? (List.getElem?_zip_eq_some.mpr ⟨hparam, harg⟩)
      obtain ⟨e, he, heq⟩ := Query.mem_of_mapM hparameters hmem
      obtain rfl := Except.ok.inj (hc.symm.trans heq)
      split at h
      · obtain ⟨_, -, h⟩ := Query.bind_eq_ok.mp h
        cases h
        exact List.mem_append_left _ he
      · cases h
        exact he
  | result hexpected hreturns hc =>
      simp only [hexpected, hreturns, hc, Query.ok_bind, Query.pure_eq_ok] at h
      simp [← h]

/-- Whether the comparisons include those with which a call starts, and with each one those nested in
it. -/
def covers (store : Store) (signature : Signature) (args : List Handle) (cs : List Comparison) :
    Bool :=
  let includes (x : Query (List Comparison)) : Bool :=
    match x with
    | .ok ds => ds.all (cs.contains ·)
    | .error _ => false
  includes (startComparisons store signature args) &&
    cs.all fun c => includes (nestedComparisons store c)

/-- Comparisons that cover a call are all that its collection can come to. -/
theorem mem_of_reached (h : covers store signature args cs = true)
    (hc : Reached store signature args c) : c ∈ cs := by
  simp only [covers, Bool.and_eq_true, List.all_eq_true] at h
  obtain ⟨hstarts, hnested⟩ := h
  induction hc with
  | start hc =>
      split at hstarts
      · next ds hds =>
          have hmem := List.all_eq_true.mp hstarts _ (mem_startComparisons hds hc)
          exact List.contains_iff_mem.mp hmem
      · cases hstarts
  | @nested c d _ hcd ih =>
      have hincludes := hnested c ih
      split at hincludes
      · next ds hds =>
          have hmem := List.all_eq_true.mp hincludes _ (mem_nestedComparisons hds hcd)
          exact List.contains_iff_mem.mp hmem
      · cases hincludes

end Checks

/-- What the positions of a call have to satisfy, over what recording a witness means: concrete
parameters accept their arguments, the other templates match them, and so for the result. -/
structure Accepted (store : Store) (signature : Signature) (args : List Handle)
    (record : Nat → Handle → Flow → Prop) : Prop where
  enough : signature.params.length ≤ args.length
  concrete : ∀ (i : Nat) param arg, signature.params[i]? = some param → args[i]? = some arg →
    store.isOpen param.type = .ok false → compatible store arg param.type = .ok true
  templates : ∀ (i : Nat) param arg, signature.params[i]? = some param → args[i]? = some arg →
    store.isOpen param.type = .ok true →
      ∃ c, parameterComparison store param.type arg param.mode = .ok c ∧
        Matches store signature record Limits.collection.maxDepth c
  result : ∀ expected, args[signature.params.length]? = some expected →
    ∃ returns, signature.returns = some returns ∧
      (store.isOpen returns = .ok false → compatible store returns expected = .ok true) ∧
      ∃ c, returnComparison store expected returns = .ok c ∧
        Matches store signature record Limits.collection.maxDepth c

/-- Collection succeeds exactly for the calls whose positions are accepted, up to what was recorded
before. -/
theorem collectBounds_achieves (hs : store.WellFormed)
    (hsignature : store.SignatureInRange signature) (hdeclaring : signature.declaringType = none)
    {args : List Handle} (hargs : ∀ arg ∈ args, arg < store.size) (width : Nat) :
    Achieves store.size width (collectBounds store signature args)
      (fun bounds => Accepted store signature args (Recorded bounds))
      (Accepted store signature args fun position _ _ => position < width) := by
  -- A position of the call, and what `forM` makes of statements about them.
  have hposition : ∀ p ∈ (signature.params.zip args).zipIdx,
      p.1.1.type < store.size ∧ p.1.2 < store.size := by
    intro p hp
    obtain ⟨hparam, harg⟩ := List.of_mem_zip (List.fst_mem_of_mem_zipIdx hp)
    exact ⟨hsignature.params _ hparam, hargs _ harg⟩
  have hforall : ∀ {R : Parameter → Handle → Prop},
      (∀ p ∈ (signature.params.zip args).zipIdx, R p.1.1 p.1.2) ↔
        ∀ (i : Nat) param arg, signature.params[i]? = some param → args[i]? = some arg →
          R param arg := by
    intro R
    exact forall_mem_zip_zipIdx (R := fun _ => R)
  have hchecks : Achieves store.size width
      ((signature.params.zip args).zipIdx.forM fun p =>
        checkParameter store signature p.1.1 p.1.2 p.2) _ _ :=
    achieves_forM fun p hp => checkParameter_achieves hdeclaring (hposition p hp).1
  have hcollects : Achieves store.size width
      ((signature.params.zip args).zipIdx.forM fun p =>
        collectParameter store signature p.1.1 p.1.2 p.2) _ _ :=
    achieves_forM fun p hp =>
      collectParameter_achieves hs hsignature hdeclaring (hposition p hp).1 (hposition p hp).2
  unfold collectBounds
  split
  · next hfew => exact achieves_fault _ fun h => absurd h.enough (Nat.not_le.mpr hfew)
  · next henough =>
      cases hexpected : args[signature.params.length]? with
      | none =>
          refine (hchecks.seq (hcollects.seq (achieves_pure (P := fun _ => True) (Q := True)
            fun _ => trivial))).imp ?_ ?_
          · rintro bounds ⟨hconcrete, htemplates, -⟩
            exact ⟨Nat.le_of_not_lt henough, hforall.mp hconcrete, hforall.mp htemplates,
              by simp [hexpected]⟩
          · exact fun h => ⟨hforall.mpr h.concrete, hforall.mpr h.templates, trivial⟩
      | some expected =>
          have he : expected < store.size := hargs expected (List.mem_of_getElem? hexpected)
          have hcheck : Achieves store.size width (checkReturn store signature expected) _ _ :=
            checkReturn_achieves hdeclaring hsignature
          cases hreturns : signature.returns with
          | none =>
              refine (hchecks.seq (hcheck.seq (hcollects.seq (achieves_pure (P := fun _ => True)
                (Q := True) fun _ => trivial)))).imp ?_ ?_
              · rintro bounds ⟨-, ⟨returns, hsome, -⟩, -⟩
                cases hreturns.symm.trans hsome
              · intro h
                obtain ⟨returns, hsome, -⟩ := h.result expected hexpected
                cases hreturns.symm.trans hsome
          | some returns =>
              have hreturn : Achieves store.size width
                  (collectReturn store signature expected returns) _ _ :=
                collectReturn_achieves hs hsignature he (hsignature.returns returns hreturns)
              refine (hchecks.seq (hcheck.seq (hcollects.seq hreturn))).imp ?_ ?_
              · rintro bounds ⟨hconcrete, ⟨_, hsome, hclosed⟩, htemplates, hmatches⟩
                obtain rfl := Option.some.inj (hreturns.symm.trans hsome)
                refine ⟨Nat.le_of_not_lt henough, hforall.mp hconcrete, hforall.mp htemplates, ?_⟩
                intro other hother
                obtain rfl := Option.some.inj (hexpected.symm.trans hother)
                exact ⟨returns, hreturns, hclosed, hmatches⟩
              · intro h
                obtain ⟨_, hsome, hclosed, hmatches⟩ := h.result expected hexpected
                obtain rfl := Option.some.inj (hreturns.symm.trans hsome)
                exact ⟨hforall.mpr h.concrete, ⟨returns, hreturns, hclosed⟩,
                  hforall.mpr h.templates, hmatches⟩

end NominalGenerics.Inference
