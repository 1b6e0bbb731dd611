import NominalGenerics.Proofs.InferenceProgress
import NominalGenerics.Proofs.Store.HashConsing

/-!
# Concrete positions of a call

A position of a call whose template mentions no type parameter records nothing. It only has to
accept its argument, and all such positions are checked before any bound is recorded. So an argument
that is refused at one of them decides the outcome, whatever the other arguments are, and leaves the
bounds and the fixed types as they were.

Collecting bounds is followed as two passes. The first consists of steps that keep the state
(`Tests`), the second of steps that fail only because a template does not match (`FailsOnly`).
-/

namespace NominalGenerics.Inference

open Collection (enclosingArgument enclosingArgument_total collect_matches)

variable {store : Store} {signature : Signature} {args : List Handle}

/-- Whether an argument may be passed where a concrete type is declared: it is assignable, or its
values are cast to that type. -/
def Accepts (store : Store) (source target : Handle) : Prop :=
  store.isAssignable source target = .ok true ∨
    store.isSpecialCastSource source = .ok true ∧ store.canSpecialCast source target = .ok true

/-- The declared type stands for a template that mentions no type parameter. -/
def StandsForConcrete (store : Store) (signature : Signature) (type template : Handle) : Prop :=
  enclosingArgument store signature type = .ok template ∧ store.mentionsParam template = .ok false

/-- A parameter with a concrete template that does not accept its argument. -/
def RefusesArgument (store : Store) (signature : Signature) (param : Parameter) (arg : Handle) :
    Prop :=
  ∃ template, StandsForConcrete store signature param.type template ∧ ¬ Accepts store arg template

/-- The parameter at a position of the call refuses its argument. -/
def RefusesAt (store : Store) (signature : Signature) (args : List Handle) (i : Nat) : Prop :=
  ∃ param arg, signature.params[i]? = some param ∧ args[i]? = some arg ∧
    RefusesArgument store signature param arg

/-- A result of the expected type cannot come from the call: it returns nothing, or a concrete type
that is not accepted where the expected type is declared. -/
def RefusesResult (store : Store) (signature : Signature) (expected : Handle) : Prop :=
  signature.returns = none ∨
    ∃ returns template, signature.returns = some returns ∧
      StandsForConcrete store signature returns template ∧ ¬ Accepts store template expected

section Steps

variable {α : Type} {steps : InferM Unit} {refused : Prop} {failure : InferenceFailure}

/-- The steps never change the state. They fail with the given failure if the test refuses, and
otherwise succeed. -/
def Tests (steps : InferM Unit) (refused : Prop) (failure : InferenceFailure) : Prop :=
  ∀ inferred, (¬ refused ∧ run steps inferred = .ok (.ok (), inferred)) ∨
    (refused ∧ run steps inferred = .ok (.error failure, inferred))

theorem tests_pure (h : ¬ refused) : Tests (pure ()) refused failure := fun _ => Or.inl ⟨h, rfl⟩

theorem tests_throw (h : refused) : Tests (throw failure) refused failure :=
  fun _ => Or.inr ⟨h, rfl⟩

theorem tests_read {x : Query α} {a : α} {next : α → InferM Unit} (hx : x = .ok a)
    (h : Tests (next a) refused failure) : Tests (liftM x >>= next) refused failure := by
  subst hx
  exact h

/-- A pass of tests over positions fails at the first position that refuses. -/
theorem tests_forM {f : α → Nat → InferM Unit} {refused : α → Prop}
    {failure : Nat → InferenceFailure} {as : List α} (start : Nat)
    (h : ∀ a ∈ as, ∀ index, Tests (f a index) (refused a) (failure index))
    (inferred : InferredBounds) :
    ((∀ a ∈ as, ¬ refused a) ∧
        run ((as.zipIdx start).forM fun p => f p.1 p.2) inferred = .ok (.ok (), inferred)) ∨
      ∃ i a, as[i]? = some a ∧ refused a ∧ (∀ j < i, ∀ b, as[j]? = some b → ¬ refused b) ∧
        run ((as.zipIdx start).forM fun p => f p.1 p.2) inferred =
          .ok (.error (failure (start + i)), inferred) := by
  induction as generalizing start with
  | nil => exact Or.inl ⟨by simp, rfl⟩
  | cons a as ih =>
      have hrun : run (((a :: as).zipIdx start).forM fun p => f p.1 p.2) inferred =
          run (f a start >>= fun _ => (as.zipIdx (start + 1)).forM fun p => f p.1 p.2)
            inferred := rfl
      rw [hrun, run_bind]
      rcases h a List.mem_cons_self start inferred with ⟨hfirst, hpass⟩ | ⟨hfirst, hfail⟩
      · rw [hpass, Query.ok_bind]
        rcases ih (start + 1) fun b hb => h b (List.mem_cons_of_mem a hb) with
          ⟨hrest, hpasses⟩ | ⟨i, b, hb, hrefused, hleast, hfails⟩
        · exact Or.inl ⟨List.forall_mem_cons.mpr ⟨hfirst, hrest⟩, hpasses⟩
        · refine Or.inr ⟨i + 1, b, hb, hrefused, fun j hj c hc => ?_, ?_⟩
          · cases j with
            | zero => exact Option.some.inj hc ▸ hfirst
            | succ j => exact hleast j (Nat.lt_of_succ_lt_succ hj) c hc
          · rw [← Nat.add_assoc, Nat.add_right_comm]
            exact hfails
      · refine Or.inr ⟨0, a, rfl, hfirst, fun j hj => absurd hj (Nat.not_lt_zero j), ?_⟩
        rw [hfail]
        rfl

/-- The steps come to an outcome from every state, and fail only in the given ways. -/
def FailsOnly (F : InferenceFailure → Prop) (steps : InferM Unit) : Prop :=
  ∀ inferred, ∃ outcome inferred', run steps inferred = .ok (outcome, inferred') ∧
    ∀ failure, outcome = .error failure → F failure

variable {F : InferenceFailure → Prop}

theorem failsOnly_pure : FailsOnly F (pure ()) := fun inferred =>
  ⟨.ok (), inferred, rfl, by rintro _ ⟨⟩⟩

theorem failsOnly_throw (h : F failure) : FailsOnly F (throw failure) := fun inferred =>
  ⟨.error failure, inferred, rfl, by rintro _ ⟨⟩; exact h⟩

theorem failsOnly_read {x : Query α} {a : α} {next : α → InferM Unit} (hx : x = .ok a)
    (h : FailsOnly F (next a)) : FailsOnly F (liftM x >>= next) := by
  subst hx
  exact h

theorem FailsOnly.seq {next : Unit → InferM Unit} (h : FailsOnly F steps)
    (h' : FailsOnly F (next ())) : FailsOnly F (steps >>= next) := by
  intro inferred
  obtain ⟨outcome, inferred', hrun, honly⟩ := h inferred
  rw [run_bind, hrun, Query.ok_bind]
  cases outcome with
  | error failure => exact ⟨.error failure, inferred', rfl, honly⟩
  | ok u => exact h' inferred'

theorem failsOnly_forM {f : α → InferM Unit} {as : List α} (h : ∀ a ∈ as, FailsOnly F (f a)) :
    FailsOnly F (as.forM f) := by
  induction as with
  | nil => exact failsOnly_pure
  | cons a as ih =>
      exact (h a List.mem_cons_self).seq (ih fun b hb => h b (List.mem_cons_of_mem a hb))

end Steps

section Checks

variable {source target arg expected type template : Handle} {param : Parameter}

theorem compatible_answers (hs : store.Reachable) (hsource : source < store.size)
    (htarget : target < store.size) :
    Query.Answers (compatible store source target) (Accepts store source target) := by
  obtain ⟨answer, hanswer⟩ := compatible_total hs hsource htarget
  refine ⟨answer, hanswer, ?_⟩
  obtain ⟨assignable, hassignable, -⟩ :=
    Assignability.isAssignable_decides hs.lawful.wellFormed hsource htarget
  rw [compatible, hassignable, Query.ok_bind] at hanswer
  cases assignable with
  | true =>
      cases hanswer
      simp [Accepts, hassignable]
  | false =>
      obtain ⟨cast, hcast, hanswer⟩ := Query.bind_eq_ok.mp hanswer
      cases cast with
      | true =>
          have hcasts : store.canSpecialCast source target = .ok answer := hanswer
          simp [Accepts, hassignable, hcast, hcasts]
      | false =>
          cases hanswer
          simp [Accepts, hassignable, hcast]

/-- The cached flag tells whether the template of a position mentions a type parameter. -/
theorem standsForConcrete_iff (hs : store.Reachable) (hlt : template < store.size)
    (htemplate : enclosingArgument store signature type = .ok template) {isOpen : Bool}
    (hopen : store.isOpen template = .ok isOpen) {other : Handle} :
    StandsForConcrete store signature type other ↔ other = template ∧ isOpen = false := by
  obtain ⟨walked, hcached, hwalked⟩ := hs.hashConsed.isOpen hlt
  obtain rfl : isOpen = walked := Except.ok.inj (hopen.symm.trans hcached)
  constructor
  · rintro ⟨hother, hclosed⟩
    obtain rfl : template = other := Except.ok.inj (htemplate.symm.trans hother)
    exact ⟨rfl, Except.ok.inj (hwalked.symm.trans hclosed)⟩
  · rintro ⟨rfl, rfl⟩
    exact ⟨htemplate, hwalked⟩

/-- The check of a position whose declared type stands for a template: a concrete one has to accept
the source where the target is declared. -/
theorem accept_tests (hs : store.Reachable) (htemplate : template < store.size)
    (henclosing : enclosingArgument store signature type = .ok template)
    (hsource : source < store.size) (htarget : target < store.size)
    (failure : InferenceFailure) :
    Tests (do
        if ← store.isOpen template then return
        else if ← compatible store source target then return
        else throw failure)
      (StandsForConcrete store signature type template ∧ ¬ Accepts store source target)
      failure := by
  obtain ⟨form, hform⟩ := Store.form_isSome htemplate
  have hopen := Store.isOpen_of_form hform
  have hconcrete : StandsForConcrete store signature type template ↔ _ :=
    standsForConcrete_iff hs htemplate henclosing hopen
  obtain ⟨accepted, haccepted, haccepts⟩ := compatible_answers hs hsource htarget
  refine tests_read hopen ?_
  cases hform : form.isOpen with
  | true => exact tests_pure (by simp [hconcrete, hform])
  | false =>
      refine tests_read haccepted ?_
      cases accepted with
      | true => exact tests_pure fun h => h.2 (haccepts.mp rfl)
      | false => exact tests_throw ⟨hconcrete.mpr ⟨rfl, hform⟩, fun h => nomatch haccepts.mpr h⟩

theorem Tests.congr {steps : InferM Unit} {refused refused' : Prop} {failure : InferenceFailure}
    (h : Tests steps refused failure) (hiff : refused ↔ refused') :
    Tests steps refused' failure := by
  rwa [propext hiff] at h

theorem checkParameter_tests (hs : store.Reachable) (hsignature : store.SignatureInRange signature)
    (hparam : param.type < store.size) (harg : arg < store.size) (index : Nat) :
    Tests (checkParameter store signature param arg index)
      (RefusesArgument store signature param arg) (.incompatibleArgument index) := by
  obtain ⟨template, htemplate, hlt⟩ :=
    enclosingArgument_total hs.lawful.wellFormed hsignature hparam
  refine (tests_read htemplate (accept_tests hs hlt htemplate harg hlt _)).congr ?_
  constructor
  · exact fun h => ⟨template, h⟩
  · rintro ⟨other, hother, hrefused⟩
    obtain rfl : template = other := Except.ok.inj (htemplate.symm.trans hother.1)
    exact ⟨hother, hrefused⟩

theorem checkReturn_tests (hs : store.Reachable) (hsignature : store.SignatureInRange signature)
    (hexpected : expected < store.size) :
    Tests (checkReturn store signature expected) (RefusesResult store signature expected)
      .incompatibleReturn := by
  unfold checkReturn
  cases hreturns : signature.returns with
  | none => exact tests_throw (Or.inl hreturns)
  | some returns =>
      obtain ⟨template, htemplate, hlt⟩ := enclosingArgument_total hs.lawful.wellFormed hsignature
        (hsignature.returns returns hreturns)
      refine (tests_read htemplate (accept_tests hs hlt htemplate hlt hexpected _)).congr ?_
      constructor
      · exact fun h => Or.inr ⟨returns, template, hreturns, h⟩
      · rintro (hnone | ⟨other, other', hother, hconcrete, hrefused⟩)
        · cases hreturns.symm.trans hnone
        · obtain rfl : returns = other := Option.some.inj (hreturns.symm.trans hother)
          obtain rfl : template = other' :=
            Except.ok.inj (htemplate.symm.trans hconcrete.1)
          exact ⟨hconcrete, hrefused⟩

end Checks

section Recording

variable {source target arg expected returns : Handle} {param : Parameter} {index : Nat}

/-- A failure of the recording pass. -/
def IsMismatch (failure : InferenceFailure) : Prop :=
  failure = .unmatchedReturn ∨ ∃ index, failure = .unmatchedParameter index

theorem match_failsOnly (hs : store.Reachable) (hsignature : store.SignatureInRange signature)
    (hsource : source < store.size) (htarget : target < store.size) (flow : Flow)
    {failure : InferenceFailure} (hfailure : IsMismatch failure) :
    FailsOnly IsMismatch
      (do if ← collect store signature source target flow then return else throw failure) := by
  intro inferred
  obtain ⟨matched, bounds, hcollect, -⟩ := collect_matches hs.lawful.wellFormed hsignature
    ⟨source, target, flow⟩ inferred.bounds hsource htarget
  have hrun := run_collect (c := ⟨source, target, flow⟩) hcollect
  rw [run_bind, show run (collect store signature source target flow) inferred = _ from hrun,
    Query.ok_bind]
  cases matched with
  | true => exact failsOnly_pure _
  | false => exact failsOnly_throw hfailure _

theorem collectParameter_failsOnly (hs : store.Reachable)
    (hsignature : store.SignatureInRange signature) (hparam : param.type < store.size)
    (harg : arg < store.size) :
    FailsOnly IsMismatch (collectParameter store signature param arg index) := by
  have hwf := hs.lawful.wellFormed
  obtain ⟨template, htemplate, hlt⟩ := enclosingArgument_total hwf hsignature hparam
  obtain ⟨form, hform⟩ := Store.form_isSome hlt
  obtain ⟨inner?, hunwrap, hinner⟩ := unwrap?_total hwf hlt harg
  have hmismatch : IsMismatch (.unmatchedParameter index) := Or.inr ⟨index, rfl⟩
  refine failsOnly_read htemplate (failsOnly_read (Store.isOpen_of_form hform) ?_)
  split
  · refine failsOnly_read hunwrap ?_
    cases inner? with
    | none => exact match_failsOnly hs hsignature harg hlt _ hmismatch
    | some inner => exact match_failsOnly hs hsignature harg (hinner inner rfl).1 _ hmismatch
  · exact failsOnly_pure

theorem collectReturn_failsOnly (hs : store.Reachable)
    (hsignature : store.SignatureInRange signature) (hexpected : expected < store.size)
    (hreturns : returns < store.size) :
    FailsOnly IsMismatch (collectReturn store signature expected returns) := by
  obtain ⟨inner?, hunwrap, hinner⟩ := unwrap?_total hs.lawful.wellFormed hexpected hreturns
  have hmismatch : IsMismatch .unmatchedReturn := Or.inl rfl
  refine failsOnly_read hunwrap ?_
  cases inner? with
  | none => exact match_failsOnly hs hsignature hexpected hreturns _ hmismatch
  | some inner => exact match_failsOnly hs hsignature (hinner inner rfl).1 hreturns _ hmismatch

end Recording

section Passes

/-- The pass that checks the concrete positions. -/
def checkPositions (store : Store) (signature : Signature) (args : List Handle) : InferM Unit := do
  (signature.params.zip args).zipIdx.forM fun ((param, arg), index) =>
    checkParameter store signature param arg index
  if let some expected := args[signature.params.length]? then
    checkReturn store signature expected

/-- The pass that records bounds. -/
def recordPositions (store : Store) (signature : Signature) (args : List Handle) :
    InferM Unit := do
  (signature.params.zip args).zipIdx.forM fun ((param, arg), index) =>
    collectParameter store signature param arg index
  if let (some expected, some returns) := (args[signature.params.length]?, signature.returns) then
    collectReturn store signature expected returns

theorem collectBounds_eq (hlength : signature.params.length ≤ args.length) :
    collectBounds store signature args = (do
      checkPositions store signature args
      recordPositions store signature args) := by
  rw [collectBounds, if_neg (Nat.not_lt.mpr hlength), checkPositions, recordPositions, bind_assoc]
  cases args[signature.params.length]? <;> rfl

theorem recordPositions_failsOnly (hs : store.Reachable)
    (hsignature : store.SignatureInRange signature) (hargs : ∀ arg ∈ args, arg < store.size) :
    FailsOnly IsMismatch (recordPositions store signature args) := by
  refine (failsOnly_forM fun p hp => ?_).seq ?_
  · obtain ⟨hparam, harg⟩ := List.of_mem_zip (List.fst_mem_of_mem_zipIdx hp)
    exact collectParameter_failsOnly hs hsignature (hsignature.params _ hparam) (hargs _ harg)
  · cases hexpected : args[signature.params.length]? with
    | none => exact failsOnly_pure
    | some expected =>
        cases hreturns : signature.returns with
        | none => exact failsOnly_pure
        | some returns =>
            exact collectReturn_failsOnly hs hsignature
              (hargs expected (List.mem_of_getElem? hexpected)) (hsignature.returns _ hreturns)

/-- The three ends of the pass of checks, none of which changes the state. -/
theorem checkPositions_cases (hs : store.Reachable)
    (hsignature : store.SignatureInRange signature) (hargs : ∀ arg ∈ args, arg < store.size)
    (inferred : InferredBounds) :
    (∃ i, RefusesAt store signature args i ∧ (∀ j < i, ¬ RefusesAt store signature args j) ∧
      run (checkPositions store signature args) inferred =
        .ok (.error (.incompatibleArgument i), inferred)) ∨
    (∀ i, ¬ RefusesAt store signature args i) ∧
      ((∃ expected, args[signature.params.length]? = some expected ∧
          RefusesResult store signature expected ∧
          run (checkPositions store signature args) inferred =
            .ok (.error .incompatibleReturn, inferred)) ∨
        (∀ expected, args[signature.params.length]? = some expected →
            ¬ RefusesResult store signature expected) ∧
          run (checkPositions store signature args) inferred = .ok (.ok (), inferred)) := by
  have htests : ∀ p ∈ signature.params.zip args, ∀ index,
      Tests (checkParameter store signature p.1 p.2 index)
        (RefusesArgument store signature p.1 p.2) (.incompatibleArgument index) := by
    intro p hp index
    obtain ⟨hparam, harg⟩ := List.of_mem_zip hp
    exact checkParameter_tests hs hsignature (hsignature.params _ hparam) (hargs _ harg) index
  rcases tests_forM 0 htests inferred with
    ⟨hnone, hrun⟩ | ⟨i, ⟨param, arg⟩, hat, hrefused, hleast, hrun⟩
  · have hnowhere : ∀ i, ¬ RefusesAt store signature args i := by
      rintro i ⟨param, arg, hparam, harg, hrefused⟩
      exact hnone (param, arg)
        (List.mem_of_getElem? (List.getElem?_zip_eq_some.mpr ⟨hparam, harg⟩)) hrefused
    refine Or.inr ⟨hnowhere, ?_⟩
    rw [checkPositions, run_bind, show run _ inferred = _ from hrun, Query.ok_bind]
    cases hexpected : args[signature.params.length]? with
    | none => exact Or.inr ⟨by simp, rfl⟩
    | some expected =>
        rcases checkReturn_tests hs hsignature (hargs expected (List.mem_of_getElem? hexpected))
          inferred with ⟨haccepted, hrun⟩ | ⟨hrefused, hrun⟩
        · exact Or.inr ⟨by rintro _ ⟨⟩; exact haccepted, hrun⟩
        · exact Or.inl ⟨expected, rfl, hrefused, hrun⟩
  · obtain ⟨hparam, harg⟩ := List.getElem?_zip_eq_some.mp hat
    refine Or.inl ⟨i, ⟨param, arg, hparam, harg, hrefused⟩, ?_, ?_⟩
    · rintro j hj ⟨param, arg, hparam, harg, hrefused⟩
      exact hleast j hj (param, arg) (List.getElem?_zip_eq_some.mpr ⟨hparam, harg⟩) hrefused
    · rw [checkPositions, run_bind, show run _ inferred = _ from hrun, Nat.zero_add]
      rfl

/-- Collecting bounds, from any state and with an argument for each parameter, comes to an outcome.
It blames the argument of the first concrete parameter that does not accept its own, if there is
one; otherwise the result, if one is expected and the call cannot give it. In both cases nothing has
been recorded. It blames them in no other case. -/
theorem collectBounds_incompatible (hs : store.Reachable)
    (hsignature : store.SignatureInRange signature) (hargs : ∀ arg ∈ args, arg < store.size)
    (hlength : signature.params.length ≤ args.length) (inferred : InferredBounds) :
    ∃ outcome inferred',
      run (collectBounds store signature args) inferred = .ok (outcome, inferred') ∧
      (∀ i, outcome = .error (.incompatibleArgument i) ↔
        RefusesAt store signature args i ∧ ∀ j < i, ¬ RefusesAt store signature args j) ∧
      (outcome = .error .incompatibleReturn ↔
        (∀ i, ¬ RefusesAt store signature args i) ∧
          ∃ expected, args[signature.params.length]? = some expected ∧
            RefusesResult store signature expected) ∧
      ((∃ i, outcome = .error (.incompatibleArgument i)) ∨ outcome = .error .incompatibleReturn →
        inferred' = inferred) := by
  rw [collectBounds_eq hlength, run_bind]
  rcases checkPositions_cases hs hsignature hargs inferred with
    ⟨i, hrefused, hleast, hrun⟩ |
    ⟨hnowhere, ⟨expected, hexpected, hrefused, hrun⟩ | ⟨haccepted, hrun⟩⟩
  · rw [hrun, Query.ok_bind]
    refine ⟨.error (.incompatibleArgument i), inferred, rfl, fun j => ⟨?_, ?_⟩,
      ⟨by rintro ⟨⟩, fun h => absurd hrefused (h.1 i)⟩, fun _ => rfl⟩
    · rintro ⟨⟩
      exact ⟨hrefused, hleast⟩
    · rintro ⟨hrefused', hleast'⟩
      have hle : j ≤ i := Nat.le_of_not_lt fun hlt => hleast' i hlt hrefused
      have hge : i ≤ j := Nat.le_of_not_lt fun hlt => hleast j hlt hrefused'
      rw [Nat.le_antisymm hge hle]
  · rw [hrun, Query.ok_bind]
    exact ⟨.error .incompatibleReturn, inferred, rfl,
      fun j => ⟨by rintro ⟨⟩, fun h => absurd h.1 (hnowhere j)⟩,
      ⟨fun _ => ⟨hnowhere, expected, hexpected, hrefused⟩, fun _ => rfl⟩, fun _ => rfl⟩
  · rw [hrun, Query.ok_bind]
    obtain ⟨outcome, inferred', hrecord, hmismatch⟩ :=
      recordPositions_failsOnly hs hsignature hargs inferred
    have hargument : ∀ i, outcome ≠ .error (.incompatibleArgument i) := fun i h => by
      simpa [IsMismatch] using hmismatch _ h
    have hresult : outcome ≠ .error .incompatibleReturn := fun h => by
      simpa [IsMismatch] using hmismatch _ h
    refine ⟨outcome, inferred', hrecord, fun i => ?_, ?_, ?_⟩
    · exact ⟨fun h => absurd h (hargument i), fun h => absurd h.1 (hnowhere i)⟩
    · refine ⟨fun h => absurd h hresult, ?_⟩
      rintro ⟨-, expected, hexpected, hrefused⟩
      exact absurd hrefused (haccepted expected hexpected)
    · rintro (⟨i, h⟩ | h)
      · exact absurd h (hargument i)
      · exact absurd h hresult

end Passes

/-- A callable that takes anything and a string. -/
def tagOperations : List Operation :=
  [.declarePrimitive "int" .i32,
    .declare .classType "string",
    .finish,
    .declareCallable "Tag" ["T"],
    .addParameter 0 3 .byValue,
    .addParameter 0 2 .byValue]

/-- The store that `tagOperations` build: `Tag<T>(T, string)`. -/
def tagStore : Store := (Operation.runAll tagOperations (.ofRoot "object")).getD {}

/-- The callable of `tagStore`. -/
def tag : Signature :=
  { id := 0, name := "Tag", typeParams := [3], params := [⟨3, .byValue⟩, ⟨2, .byValue⟩] }

/-- A call of `Tag` that has recorded a string. -/
def tagged : InferredBounds :=
  { typeParams := [3], bounds := [{ lower := [2] }], fixed := [none] }

/-- An integer is no string. Although the other argument would be recorded, it is not. -/
theorem collectBounds_incompatible_tag :
    run (collectBounds tagStore tag [1, 1]) tagged =
      .ok (.error (.incompatibleArgument 1), tagged) := by
  have hreachable : tagStore.Reachable := (Store.Reachable.ofRoot "object").runAll
    (by decide +kernel : Operation.runAll tagOperations (.ofRoot "object") = some tagStore)
  have hcallable : tagStore.HasCallable tag :=
    (by decide +kernel : tagStore.callables[0]? = some tag)
  have hrefused : RefusesAt tagStore tag [1, 1] 1 := by
    refine ⟨⟨2, .byValue⟩, 1, rfl, rfl, 2, ⟨by decide +kernel, by decide +kernel⟩, ?_⟩
    rintro (hassignable | ⟨-, hcast⟩)
    · exact absurd hassignable (by decide +kernel)
    · exact absurd hcast (by decide +kernel)
  have hfirst : ∀ j < 1, ¬ RefusesAt tagStore tag [1, 1] j := by
    rintro j hj ⟨param, arg, hparam, -, template, ⟨htemplate, hclosed⟩, -⟩
    obtain rfl : j = 0 := Nat.lt_one_iff.mp hj
    obtain rfl : ⟨3, .byValue⟩ = param := Option.some.inj hparam
    obtain rfl : 3 = template := Except.ok.inj
      ((by decide +kernel : Collection.enclosingArgument tagStore tag 3 = .ok 3).symm.trans
        htemplate)
    exact absurd hclosed (by decide +kernel)
  obtain ⟨outcome, inferred', hrun, hargument, -, hkept⟩ := collectBounds_incompatible hreachable
    (hreachable.lawful.wellFormed.inRange.signatures hcallable)
    (by decide +kernel : ∀ arg ∈ [1, 1], arg < tagStore.size) (by decide) tagged
  obtain rfl := (hargument 1).mpr ⟨hrefused, hfirst⟩
  rw [hrun, hkept (Or.inl ⟨1, rfl⟩)]

end NominalGenerics.Inference
