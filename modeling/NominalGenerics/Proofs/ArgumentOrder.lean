import NominalGenerics.Proofs.Simulation
import NominalGenerics.Proofs.UniformCollection

/-!
# The order of arguments

The order in which a call lists its parameters and arguments does not change the types that are
inferred. Each position records witnesses of its own, or fails. So another order records the same
witnesses in another order, and each bound set has the same members. If assignability is
antisymmetric, they determine the type that fixing picks.

The bootstrap is left out, because it goes on to match constraints against the types fixed so far.
-/

namespace NominalGenerics

namespace Inference

open Collection (enclosingArgument enclosingArgument_total)

variable {store : Store} {signature : Signature} {width : Nat}

/-- What steps do to bounds for a given number of type parameters: they record the witnesses found,
whatever has been recorded before, or they fail. -/
def Yields (width : Nat) (steps : InferM Unit) (found? : Option (List WitnessAt)) : Prop :=
  ∀ inferred : InferredBounds, inferred.bounds.length = width →
    match found? with
    | some found => run steps inferred =
        .ok (.ok (), { inferred with bounds := recordAll inferred.bounds found })
    | none => ∃ failure inferred', run steps inferred = .ok (.error failure, inferred')

section Steps

variable {found? found?' : Option (List WitnessAt)} {steps : InferM Unit}

theorem yields_pure : Yields width (pure ()) (some []) := fun _ _ => rfl

theorem yields_throw (failure : InferenceFailure) : Yields width (throw failure) none :=
  fun inferred _ => ⟨failure, inferred, rfl⟩

theorem yields_read {α : Type} {x : Query α} {a : α} {f : α → InferM Unit} (hx : x = .ok a)
    (h : Yields width (f a) found?) : Yields width (liftM x >>= f) found? := by
  subst hx
  exact h

/-- The witnesses of two steps, if both succeed. -/
def both (found? found?' : Option (List WitnessAt)) : Option (List WitnessAt) := do
  return (← found?) ++ (← found?')

theorem Yields.seq {next : Unit → InferM Unit} (h : Yields width steps found?)
    (h' : Yields width (next ()) found?') :
    Yields width (steps >>= next) (both found? found?') := by
  intro inferred hwidth
  have hfirst := h inferred hwidth
  cases found? with
  | none =>
      obtain ⟨failure, inferred', hrun⟩ := hfirst
      refine ⟨failure, inferred', ?_⟩
      rw [run_bind, hrun]
      rfl
  | some found =>
      have hgo : run (steps >>= next) inferred =
          run (next ()) { inferred with bounds := recordAll inferred.bounds found } := by
        rw [run_bind, show run steps inferred = _ from hfirst]
        rfl
      have hsecond := h' { inferred with bounds := recordAll inferred.bounds found }
        (length_recordAll.trans hwidth)
      cases found?' with
      | none =>
          obtain ⟨failure, inferred', hrun⟩ := hsecond
          exact ⟨failure, inferred', hgo.trans hrun⟩
      | some found' =>
          refine hgo.trans (hsecond.trans ?_)
          rw [recordAll_append]

/-- The witnesses of all positions, if all succeed. -/
def gather {α : Type} (g : α → Option (List WitnessAt)) (as : List α) :
    Option (List WitnessAt) :=
  as.foldr (fun a found? => both (g a) found?) (some [])

theorem yields_forM {α : Type} {f : α × Nat → InferM Unit} {g : α → Option (List WitnessAt)}
    {as : List α} (start : Nat) (h : ∀ a ∈ as, ∀ index, Yields width (f (a, index)) (g a)) :
    Yields width ((as.zipIdx start).forM f) (gather g as) := by
  induction as generalizing start with
  | nil => exact yields_pure
  | cons a as ih =>
      exact (h a List.mem_cons_self start).seq
        (ih (start + 1) fun b hb => h b (List.mem_cons_of_mem a hb))

end Steps

/-- The same witnesses, up to their order, or a failure on both sides. -/
abbrev Reordered : Option (List WitnessAt) → Option (List WitnessAt) → Prop :=
  Option.Rel List.Perm

section Reordering

variable {found? found?' other? other?' : Option (List WitnessAt)}

theorem Reordered.refl (found? : Option (List WitnessAt)) : Reordered found? found? := by
  cases found? with
  | none => exact .none
  | some found => exact .some (.refl found)

theorem Reordered.trans (h : Reordered found? found?') (h' : Reordered found?' other?) :
    Reordered found? other? := by
  cases h with
  | none => exact h'
  | some hperm =>
      cases h' with
      | some hperm' => exact .some (hperm.trans hperm')

theorem Reordered.both (h : Reordered found? found?') (h' : Reordered other? other?') :
    Reordered (both found? other?) (Inference.both found?' other?') := by
  cases h with
  | none => exact .none
  | some hperm =>
      cases h' with
      | none => exact .none
      | some hperm' => exact .some (hperm.append hperm')

theorem gather_perm {α : Type} (g : α → Option (List WitnessAt)) {as bs : List α}
    (h : as.Perm bs) : Reordered (gather g as) (gather g bs) := by
  induction h with
  | nil => exact .refl _
  | cons a _ ih => exact (Reordered.refl (g a)).both ih
  | swap a b as =>
      show Reordered (both (g b) (both (g a) (gather g as)))
        (both (g a) (both (g b) (gather g as)))
      cases g a with
      | none => cases g b <;> exact .none
      | some found =>
          cases g b with
          | none => exact .none
          | some found' =>
              cases gather g as with
              | none => exact .none
              | some rest => exact .some (List.perm_append_comm_assoc found' found rest)
  | trans _ _ ih ih' => exact ih.trans ih'

end Reordering

section Positions

variable {source target arg expected returns : Handle} {param : Parameter}

/-- Matching a template, with a failure to throw if it does not match. -/
theorem match_yields (hs : store.Reachable) (hsignature : store.SignatureInRange signature)
    (width : Nat) (hsource : source < store.size) (htarget : target < store.size) (flow : Flow) :
    ∃ found?, ∀ failure, Yields width
      (do if ← collect store signature source target flow then return else throw failure)
      found? := by
  obtain ⟨matched, found, hrecords⟩ :=
    Collection.collect_records hs.lawful.wellFormed hsignature width hsource htarget flow
  refine ⟨if matched then some found else none, fun failure inferred hwidth => ?_⟩
  have hrun := run_collect (c := ⟨source, target, flow⟩) (hrecords inferred.bounds hwidth)
  rw [run_bind, show run (collect store signature source target flow) inferred = _ from hrun,
    Query.ok_bind]
  cases matched with
  | true => rfl
  | false => exact ⟨failure, _, rfl⟩

/-- Accepting a concrete type where another is declared, with a failure to throw otherwise. -/
theorem accept_yields (hs : store.Reachable) (width : Nat) {template : Handle}
    (htemplate : template < store.size) (hsource : source < store.size)
    (htarget : target < store.size) :
    ∃ found?, ∀ failure, Yields width
      (do if ← store.isOpen template then return
          else if ← compatible store source target then return
          else throw failure) found? := by
  obtain ⟨form, hform⟩ := Store.form_isSome htemplate
  obtain ⟨accepted, haccepted⟩ := compatible_total hs hsource htarget
  refine ⟨if form.isOpen || accepted then some [] else none, fun failure => ?_⟩
  refine yields_read (Store.isOpen_of_form hform) ?_
  cases form.isOpen with
  | true => exact yields_pure
  | false =>
      refine yields_read haccepted ?_
      cases accepted with
      | true => exact yields_pure
      | false => exact yields_throw failure

theorem checkParameter_yields (hs : store.Reachable)
    (hsignature : store.SignatureInRange signature) (width : Nat)
    (hparam : param.type < store.size) (harg : arg < store.size) :
    ∃ found?, ∀ index, Yields width (checkParameter store signature param arg index) found? := by
  obtain ⟨template, htemplate, hlt⟩ :=
    enclosingArgument_total hs.lawful.wellFormed hsignature hparam
  obtain ⟨found?, h⟩ := accept_yields hs width hlt harg hlt
  exact ⟨found?, fun index => yields_read htemplate (h _)⟩

/-- An argument is matched against the template, or against the type that the template wraps. -/
theorem matchParameter_yields (hs : store.Reachable)
    (hsignature : store.SignatureInRange signature) (width : Nat) (harg : arg < store.size)
    {template : Handle} (htemplate : template < store.size) {inner? : Option Handle}
    (hinner : ∀ inner, inner? = some inner → inner < store.size) :
    ∃ found?, ∀ index, Yields width (do
      let (target, flow) ← match inner? with
        | some inner => pure (inner, Flow.invariant)
        | none => pure (template, Flow.covariant)
      let flow := if param.mode.isByRef then .invariant else flow
      if ← collect store signature arg target flow then
        return
      else
        throw (.unmatchedParameter index)) found? := by
  cases inner? with
  | none =>
      obtain ⟨found?, h⟩ := match_yields hs hsignature width harg htemplate
        (if param.mode.isByRef then .invariant else .covariant)
      exact ⟨found?, fun index => h _⟩
  | some inner =>
      obtain ⟨found?, h⟩ := match_yields hs hsignature width harg (hinner inner rfl)
        (if param.mode.isByRef then .invariant else .invariant)
      exact ⟨found?, fun index => h _⟩

theorem collectParameter_yields (hs : store.Reachable)
    (hsignature : store.SignatureInRange signature) (width : Nat)
    (hparam : param.type < store.size) (harg : arg < store.size) :
    ∃ found?, ∀ index, Yields width (collectParameter store signature param arg index) found? := by
  have hwf := hs.lawful.wellFormed
  obtain ⟨template, htemplate, hlt⟩ := enclosingArgument_total hwf hsignature hparam
  obtain ⟨form, hform⟩ := Store.form_isSome hlt
  cases hopen : form.isOpen with
  | false =>
      refine ⟨some [], fun index => yields_read htemplate
        (yields_read (Store.isOpen_of_form hform) ?_)⟩
      rw [hopen]
      exact yields_pure
  | true =>
      obtain ⟨inner?, hunwrap, hinner⟩ := unwrap?_total hwf hlt harg
      obtain ⟨found?, hfound⟩ := matchParameter_yields hs hsignature width harg hlt
        fun inner h => (hinner inner h).1
      refine ⟨found?, fun index => yields_read htemplate
        (yields_read (Store.isOpen_of_form hform) ?_)⟩
      rw [hopen]
      exact yields_read hunwrap (hfound index)

theorem checkReturn_yields (hs : store.Reachable) (hsignature : store.SignatureInRange signature)
    (width : Nat) (hexpected : expected < store.size) :
    ∃ found?, Yields width (checkReturn store signature expected) found? := by
  unfold checkReturn
  cases hreturns : signature.returns with
  | none => exact ⟨none, yields_throw _⟩
  | some returns =>
      obtain ⟨template, htemplate, hlt⟩ := enclosingArgument_total hs.lawful.wellFormed hsignature
        (hsignature.returns returns hreturns)
      obtain ⟨found?, h⟩ := accept_yields hs width hlt hlt hexpected
      exact ⟨found?, yields_read htemplate (h _)⟩

theorem collectReturn_yields (hs : store.Reachable) (hsignature : store.SignatureInRange signature)
    (width : Nat) (hexpected : expected < store.size) (hreturns : returns < store.size) :
    ∃ found?, Yields width (collectReturn store signature expected returns) found? := by
  obtain ⟨inner?, hunwrap, hinner⟩ := unwrap?_total hs.lawful.wellFormed hexpected hreturns
  cases inner? with
  | none =>
      obtain ⟨found?, h⟩ := match_yields hs hsignature width hexpected hreturns .contravariant
      exact ⟨found?, yields_read hunwrap (h _)⟩
  | some inner =>
      obtain ⟨found?, h⟩ :=
        match_yields hs hsignature width (hinner inner rfl).1 hreturns .invariant
      exact ⟨found?, yields_read hunwrap (h _)⟩

end Positions

section Calls

/-- The same callable with other parameters. -/
def withParams (signature : Signature) (calls : List (Parameter × Handle)) : Signature :=
  { signature with params := calls.map Prod.fst }

variable {calls calls' : List (Parameter × Handle)} {rest : List Handle}

theorem collectWithin_withParams (fuel : Nat) (source target : Handle) (flow : Flow) :
    Collection.collectWithin store (withParams signature calls) fuel source target flow =
      Collection.collectWithin store signature fuel source target flow := by
  induction fuel generalizing source target flow with
  | zero => rfl
  | succ fuel ih =>
      have hcollect : Collection.collectWithin store (withParams signature calls) fuel =
          Collection.collectWithin store signature fuel := by
        funext source target flow
        exact ih source target flow
      rw [Collection.collectWithin, Collection.collectWithin, hcollect]
      rfl

theorem collect_withParams (source target : Handle) (flow : Flow) :
    collect store (withParams signature calls) source target flow =
      collect store signature source target flow := by
  unfold collect Collection.collect
  simp only [collectWithin_withParams]

theorem collectParameter_withParams (param : Parameter) (arg : Handle) (index : Nat) :
    collectParameter store (withParams signature calls) param arg index =
      collectParameter store signature param arg index := by
  unfold collectParameter
  simp only [collect_withParams]
  rfl

theorem collectReturn_withParams (expected returns : Handle) :
    collectReturn store (withParams signature calls) expected returns =
      collectReturn store signature expected returns := by
  unfold collectReturn
  simp only [collect_withParams]

theorem zip_fst_snd : (calls.map Prod.fst).zip (calls.map Prod.snd ++ rest) = calls := by
  induction calls with
  | nil => rfl
  | cons call calls ih => simp [ih]

@[simp] theorem both_nil (found? : Option (List WitnessAt)) : both (some []) found? = found? := by
  cases found? <;> rfl

/-- A parameter with the type of its argument, both types of the store. -/
def TypesIn (store : Store) (call : Parameter × Handle) : Prop :=
  call.1.type < store.size ∧ call.2 < store.size

/-- If each position has witnesses of its own, whatever its index, a function gives them. -/
theorem exists_yields {f : Parameter × Handle → Nat → InferM Unit} {P : Parameter × Handle → Prop}
    (h : ∀ call, P call → ∃ found?, ∀ index, Yields width (f call index) found?) :
    ∃ g : Parameter × Handle → Option (List WitnessAt),
      ∀ call, P call → ∀ index, Yields width (f call index) (g call) := by
  have hfound : ∀ call, ∃ found?, P call → ∀ index, Yields width (f call index) found? := by
    intro call
    by_cases hcall : P call
    · obtain ⟨found?, hfound⟩ := h call hcall
      exact ⟨found?, fun _ => hfound⟩
    · exact ⟨none, fun h => absurd h hcall⟩
  choose g hg using hfound
  exact ⟨g, hg⟩

/-- Collecting from a call, given by its positions and what follows the arguments. -/
theorem collectBounds_withParams (calls : List (Parameter × Handle)) (rest : List Handle) :
    collectBounds store (withParams signature calls) (calls.map Prod.snd ++ rest) = (do
      calls.zipIdx.forM fun p =>
        checkParameter store (withParams signature calls) p.1.1 p.1.2 p.2
      if let some expected := rest[0]? then
        checkReturn store (withParams signature calls) expected
      calls.zipIdx.forM fun p =>
        collectParameter store (withParams signature calls) p.1.1 p.1.2 p.2
      if let (some expected, some returns) := (rest[0]?, signature.returns) then
        collectReturn store (withParams signature calls) expected returns) := by
  have hparams : (withParams signature calls).params = calls.map Prod.fst := rfl
  have hexpected : (calls.map Prod.snd ++ rest)[(calls.map Prod.fst).length]? = rest[0]? := by
    rw [List.getElem?_append_right (by simp)]
    simp
  rw [collectBounds, hparams, if_neg (by simp), zip_fst_snd, hexpected]
  rfl

/-- What a call records, position by position: neither the answers nor the witnesses of a position
depend on the others. -/
theorem collectBounds_yields (hs : store.Reachable) (hsignature : store.SignatureInRange signature)
    (width : Nat) (hrest : ∀ type ∈ rest, type < store.size) :
    ∃ (check collect : Parameter × Handle → Option (List WitnessAt))
      (checkResult collectResult : Option (List WitnessAt)), ∀ calls : List (Parameter × Handle),
      (∀ call ∈ calls, TypesIn store call) →
      Yields width
        (collectBounds store (withParams signature calls) (calls.map Prod.snd ++ rest))
        (both (gather check calls) (both checkResult (both (gather collect calls)
          collectResult))) := by
  obtain ⟨check, hcheck⟩ := exists_yields fun call (hcall : TypesIn store call) =>
    checkParameter_yields hs hsignature width hcall.1 hcall.2
  obtain ⟨collect, hcollect⟩ := exists_yields fun call (hcall : TypesIn store call) =>
    collectParameter_yields hs hsignature width hcall.1 hcall.2
  have hcheckAll : ∀ calls : List (Parameter × Handle),
      (∀ call ∈ calls, TypesIn store call) →
      Yields width (calls.zipIdx.forM fun p =>
        checkParameter store (withParams signature calls) p.1.1 p.1.2 p.2) (gather check calls) :=
    fun calls hcalls => yields_forM 0 fun call hcall index =>
      hcheck call (hcalls call hcall) index
  have hcollectAll : ∀ calls : List (Parameter × Handle),
      (∀ call ∈ calls, TypesIn store call) →
      Yields width (calls.zipIdx.forM fun p =>
        collectParameter store (withParams signature calls) p.1.1 p.1.2 p.2)
        (gather collect calls) :=
    fun calls hcalls => yields_forM 0 fun call hcall index => by
      rw [collectParameter_withParams]
      exact hcollect call (hcalls call hcall) index
  cases hexpected : rest[0]? with
  | none =>
      refine ⟨check, collect, some [], some [], fun calls hcalls => ?_⟩
      rw [collectBounds_withParams, hexpected, both_nil]
      exact (hcheckAll calls hcalls).seq ((hcollectAll calls hcalls).seq yields_pure)
  | some expected =>
      have he := hrest expected (List.mem_of_getElem? hexpected)
      obtain ⟨checkResult, hcheckResult⟩ := checkReturn_yields hs hsignature width he
      cases hreturns : signature.returns with
      | none =>
          refine ⟨check, collect, checkResult, some [], fun calls hcalls => ?_⟩
          rw [collectBounds_withParams, hexpected, hreturns]
          exact (hcheckAll calls hcalls).seq (hcheckResult.seq
            ((hcollectAll calls hcalls).seq yields_pure))
      | some returns =>
          obtain ⟨collectResult, hcollectResult⟩ := collectReturn_yields hs hsignature width he
            (hsignature.returns returns hreturns)
          refine ⟨check, collect, checkResult, collectResult, fun calls hcalls => ?_⟩
          rw [collectBounds_withParams, hexpected, hreturns]
          refine (hcheckAll calls hcalls).seq (hcheckResult.seq
            ((hcollectAll calls hcalls).seq ?_))
          dsimp only
          rw [collectReturn_withParams]
          exact hcollectResult

/-- In another order, a call records the same witnesses in another order. -/
theorem collectBounds_reordered (hs : store.Reachable)
    (hsignature : store.SignatureInRange signature) (width : Nat)
    (hcalls : ∀ call ∈ calls, TypesIn store call)
    (hrest : ∀ type ∈ rest, type < store.size) (hperm : calls.Perm calls') :
    ∃ found? found?', Reordered found? found?' ∧
      Yields width (collectBounds store (withParams signature calls) (calls.map Prod.snd ++ rest))
        found? ∧
      Yields width
        (collectBounds store (withParams signature calls') (calls'.map Prod.snd ++ rest))
        found?' := by
  obtain ⟨check, collect, checkResult, collectResult, hyields⟩ :=
    collectBounds_yields hs hsignature width hrest
  refine ⟨_, _, ?_, hyields calls hcalls,
    hyields calls' fun call hcall => hcalls call (hperm.mem_iff.mpr hcall)⟩
  exact (gather_perm check hperm).both ((Reordered.refl checkResult).both
    ((gather_perm collect hperm).both (Reordered.refl collectResult)))

end Calls

section Fixing

open MonadRelation

/-- States of a call that fix the same types: they have fixed the same so far, and their bounds
reduce to the same types. -/
structure Same (store : Store) (inferred inferred' : InferredBounds) : Prop where
  typeParams : inferred.typeParams = inferred'.typeParams
  fixed : inferred.fixed = inferred'.fixed
  bounds : ∀ i : Nat, (inferred.bounds[i]?.getD {}).fix? store.isAssignable =
    (inferred'.bounds[i]?.getD {}).fix? store.isAssignable

theorem Same.symm {inferred inferred' : InferredBounds} (h : Same store inferred inferred') :
    Same store inferred' inferred :=
  ⟨h.typeParams.symm, h.fixed.symm, fun i => (h.bounds i).symm⟩

/-- Inferences that go through states that fix the same types. -/
abbrev fixing (store : Store) : MonadRelation InferM InferM :=
  (query.withState (Same store)).withError InferenceFailure

theorem fixing_get : (fixing store).Rel (Same store) (get : InferM InferredBounds) get :=
  (query.withState (Same store)).withError_lift query.withState_get

theorem fixing_query {α : Type} (x : Query α) :
    (fixing store).Rel (· = ·) (liftM x : InferM α) (liftM x) :=
  (query.withState (Same store)).withError_lift (lift_query (query_refl x))

theorem fixing_throw {α : Type} (failure : InferenceFailure) :
    (fixing store).Rel (· = ·) (throw failure : InferM α) (throw failure) :=
  (query.withState (Same store)).withError_throw failure

theorem fixAt_same (breakEarly : Bool) (position : Nat) :
    (fixing store).Rel (· = ·) (fixAt store breakEarly position)
      (fixAt store breakEarly position) := by
  refine (fixing store).bind fixing_get fun inferred inferred' hsame => ?_
  dsimp only
  rw [hsame.bounds position]
  refine (fixing store).bind (fixing_query _) ?_
  rintro type? _ rfl
  have hstore : (fixing store).Rel (· = ·)
      (modify fun inferred => { inferred with fixed := inferred.fixed.set position type? } :
        InferM PUnit)
      (modify fun inferred => { inferred with fixed := inferred.fixed.set position type? }) := by
    refine (query.withState (Same store)).withError_lift (query.withState_modify ?_)
    exact fun i j hij => ⟨hij.typeParams, by rw [hij.fixed], hij.bounds⟩
  refine (fixing store).bind hstore fun _ _ _ => ?_
  exact (fixing store).branch rfl (fixing_throw _) ((fixing store).pure rfl)

theorem fixAll_same (breakEarly : Bool) :
    (fixing store).Rel (· = ·) (fixAll store breakEarly) (fixAll store breakEarly) := by
  refine (fixing store).bind fixing_get fun inferred inferred' hsame => ?_
  rw [hsame.typeParams]
  refine (fixing store).bind ((fixing store).forM (List.forall₂_same.mpr fun _ _ => rfl) ?_) ?_
  · rintro position _ rfl
    exact fixAt_same breakEarly position
  rintro _ _ -
  refine (fixing store).bind fixing_get fun last last' hlast => ?_
  rw [InferredBounds.unresolved, InferredBounds.unresolved, hlast.fixed]
  exact (fixing store).ite Iff.rfl (fun _ => fixing_throw _) fun _ => (fixing store).pure rfl

/-- The state of a call that has recorded the witnesses. -/
def witnessed (typeParams : List Handle) (found : List WitnessAt) : InferredBounds :=
  { InferredBounds.ofTypeParams typeParams with
    bounds := recordAll (InferredBounds.ofTypeParams typeParams).bounds found }

/-- Where assignability is antisymmetric, the same witnesses in another order fix the same types. -/
theorem same_of_perm (hs : store.WellFormed)
    (hantisymm : ∀ a b, a < store.size → b < store.size → store.isAssignable a b = .ok true →
      store.isAssignable b a = .ok true → a = b)
    {typeParams : List Handle} {found found' : List WitnessAt} (hperm : found.Perm found')
    (hlt : ∀ {position type flow},
      Recorded (witnessed typeParams found).bounds position type flow → type < store.size) :
    Same store (witnessed typeParams found) (witnessed typeParams found') := by
  refine ⟨rfl, rfl, fun i => ?_⟩
  unfold witnessed at hlt ⊢
  have hwidth : (InferredBounds.ofTypeParams typeParams).bounds.length = typeParams.length := by
    simp [InferredBounds.ofTypeParams]
  generalize hempty : (InferredBounds.ofTypeParams typeParams).bounds = empty at hlt hwidth ⊢
  dsimp only
  by_cases hi : i < typeParams.length
  · have hnone : ∀ flow, (empty[i]?.getD {}).side flow = [] := by
      intro flow
      rw [← hempty]
      simp only [InferredBounds.ofTypeParams, List.getElem?_map]
      cases typeParams[i]? <;> cases flow <;> rfl
    have hside : ∀ (found : List WitnessAt) (flow : Flow),
        ((recordAll empty found)[i]?.getD {}).side flow =
          Witnesses.addAll [] (typesAt found i flow) := fun found flow => by
      rw [side_recordAll (hwidth.symm ▸ hi), hnone]
    have hmem : ∀ flow type, type ∈ ((recordAll empty found)[i]?.getD {}).side flow ↔
        type ∈ ((recordAll empty found')[i]?.getD {}).side flow := fun flow type => by
      rw [hside, hside, Witnesses.mem_addAll, Witnesses.mem_addAll,
        (typesAt_perm hperm i flow).mem_iff]
    have hcompact : ∀ found, ((recordAll empty found)[i]?.getD {}).exact.Compact := fun found => by
      rw [show ((recordAll empty found)[i]?.getD {}).exact = _ from hside found .invariant]
      exact Witnesses.compact_nil.addAll _
    have hrange : ∀ flow, ∀ type ∈ ((recordAll empty found)[i]?.getD {}).side flow,
        type < store.size := fun flow type htype => hlt (recorded_of_mem_side htype)
    rw [fix?_pick hs hrange,
      fix?_pick hs fun flow type htype => hrange flow type ((hmem flow type).mpr htype)]
    refine congrArg Except.ok (BoundSet.pick_congr hmem (hcompact found) (hcompact found') ?_)
    intro flow a ha b hb hab hba
    have halt := hrange flow a ha
    have hblt := hrange flow b hb
    exact hantisymm a b halt hblt (by rw [isAssignable_holds hs halt hblt, hab])
      (by rw [isAssignable_holds hs hblt halt, hba])
  · have hout : ∀ found, (recordAll empty found)[i]? = none := fun found =>
      List.getElem?_eq_none (by rw [length_recordAll, hwidth]; exact Nat.le_of_not_lt hi)
    rw [hout, hout]

end Fixing

section Order

open MonadRelation

variable {calls calls' : List (Parameter × Handle)} {rest : List Handle}
  {options : InferenceOptions}

/-- The types that a call without bootstrap fixes from the witnesses that its positions record. -/
def fixFrom (store : Store) (signature : Signature) (skips : Bool) (found : List WitnessAt) :
    Query (Option (List Handle)) := do
  match ← run (fixAll store true) (witnessed signature.typeParams found) with
  | (.ok (), inferred) => accepted? store signature skips inferred
  | (.error _, _) => return none

theorem inferTypes?_of_yields {args : List Handle} {found? : Option (List WitnessAt)}
    (hoptions : options.bootstrapFromConstraints = false)
    (hyields : Yields signature.typeParams.length (collectBounds store signature args) found?) :
    store.inferTypes? signature args options =
      found?.elim (.ok none) (fixFrom store signature options.skipConstraintCheck) := by
  have hwidth : (InferredBounds.ofTypeParams signature.typeParams).bounds.length =
      signature.typeParams.length := by simp [InferredBounds.ofTypeParams]
  have hcollect := hyields (.ofTypeParams signature.typeParams) hwidth
  rw [inferTypes?_eq, hoptions, solve, run_bind]
  cases found? with
  | none =>
      obtain ⟨failure, inferred, hrun⟩ := hcollect
      rw [hrun]
      rfl
  | some found =>
      dsimp only at hcollect
      rw [hcollect, Query.ok_bind]
      dsimp only [Option.elim]
      rw [run_tryCatch, Bool.not_false, bind_assoc, fixFrom]
      refine bind_congr fun answer => ?_
      obtain ⟨outcome, inferred⟩ := answer
      cases outcome <;> rfl

/-- States that fix the same types lead to the same accepted types. The constraints do not depend on
the parameters of the callable. -/
theorem fixFrom_same {skips : Bool} {found found' : List WitnessAt}
    (hsame : Same store (witnessed signature.typeParams found)
      (witnessed signature.typeParams found')) :
    fixFrom store (withParams signature calls) skips found =
      fixFrom store signature skips found' := by
  have hend : query.Rel (· = ·) (fixFrom store (withParams signature calls) skips found)
      (fixFrom store signature skips found') := by
    refine query.bind (fixAll_same true _ _ hsame) ?_
    rintro ⟨_, inferred⟩ ⟨_, inferred'⟩ ⟨houtcome, hlast⟩
    cases houtcome with
    | error failure => exact query.pure rfl
    | ok _ =>
        have haccepted : accepted? store (withParams signature calls) skips inferred =
            accepted? store signature skips inferred' := by
          rw [accepted?, accepted?, InferredBounds.fixedTypes?, InferredBounds.fixedTypes?,
            hlast.fixed]
          rfl
        dsimp only
        rw [haccepted]
        exact query_refl _
  exact hend.eq

/-- The order in which a call lists its parameters and their arguments does not change the types
that are inferred, if assignability is antisymmetric and there is no bootstrap. The expected result
stays behind the arguments. -/
theorem inferTypes?_perm (hs : store.Reachable)
    (hantisymm : ∀ a b, a < store.size → b < store.size → store.isAssignable a b = .ok true →
      store.isAssignable b a = .ok true → a = b)
    (hsignature : store.SignatureInRange signature)
    (hparams : signature.params = calls.map Prod.fst)
    (hperm : calls.Perm calls') (hargs : ∀ arg ∈ calls.map Prod.snd ++ rest, arg < store.size)
    (hoptions : options.bootstrapFromConstraints = false) :
    store.inferTypes? { signature with params := calls'.map Prod.fst }
        (calls'.map Prod.snd ++ rest) options =
      store.inferTypes? signature (calls.map Prod.snd ++ rest) options := by
  have hwf := hs.lawful.wellFormed
  have hcalls : ∀ call ∈ calls, TypesIn store call := by
    intro call hcall
    have hparam : call.1 ∈ signature.params := hparams ▸ List.mem_map_of_mem hcall
    exact ⟨hsignature.params call.1 hparam,
      hargs call.2 (List.mem_append_left rest (List.mem_map_of_mem hcall))⟩
  obtain ⟨found?, found?', hreordered, hyields, hyields'⟩ := collectBounds_reordered hs hsignature
    signature.typeParams.length hcalls
    (fun type htype => hargs type (List.mem_append_right _ htype)) hperm
  have hsame : withParams signature calls = signature := by rw [withParams, ← hparams]
  rw [hsame] at hyields
  have hinfer' : store.inferTypes? { signature with params := calls'.map Prod.fst }
      (calls'.map Prod.snd ++ rest) options = _ :=
    inferTypes?_of_yields hoptions
      (show Yields (withParams signature calls').typeParams.length _ found?' from hyields')
  rw [hinfer', inferTypes?_of_yields hoptions hyields]
  cases hreordered with
  | none => rfl
  | @some found found' hfound =>
      refine fixFrom_same (same_of_perm hwf hantisymm hfound ?_).symm
      have hlength : signature.params.length ≤ (calls.map Prod.snd ++ rest).length := by
        simp [hparams]
      have hcollect := hyields (.ofTypeParams signature.typeParams)
        (by simp [InferredBounds.ofTypeParams])
      obtain ⟨htracks, -⟩ := (collectBounds_concludes hs hsignature hargs hlength
        (tracks_ofTypeParams store signature)).of_run hcollect
      intro _ _ _ hrecorded
      exact htracks.witnesses hrecorded

/-- Dogs among animals, and a callable that takes animals and a source of them. -/
def mixOperations : List Operation :=
  [.declare .classType "Animal",
    .declare .classType "Dog",
    .setBase 2 1,
    .declareGeneric .interfaceType "Source" [("X", .covariant)],
    .finish,
    .declareCallable "Mix" ["T"],
    .instantiate 3 [5],
    .addParameter 0 5 .byValue,
    .addParameter 0 6 .byValue,
    .addParameter 0 5 .byValue,
    .setReturnType 0 5,
    .instantiate 3 [1]]

/-- The store that `mixOperations` build. -/
def mixStore : Store := (Operation.runAll mixOperations (.ofRoot "object")).getD {}

/-- The callable of `mixStore`: `Mix<T>(T, Source<T>, T)` returns a `T`. -/
def mix : Signature :=
  { id := 0
    name := "Mix"
    typeParams := [5]
    params := [⟨5, .byValue⟩, ⟨6, .byValue⟩, ⟨5, .byValue⟩]
    returns := some 5 }

/-- From a dog, a source of animals and an animal, an animal is inferred where an animal is
expected, and so it is if the last parameter and its argument come first. -/
theorem inferTypes?_perm_mix :
    mixStore.inferTypes?
      { mix with params := [⟨5, .byValue⟩, ⟨5, .byValue⟩, ⟨6, .byValue⟩] } [1, 2, 7, 1] {} =
        .ok (some [1]) := by
  have hreachable : mixStore.Reachable := (Store.Reachable.ofRoot "object").runAll
    (by decide +kernel : Operation.runAll mixOperations (.ofRoot "object") = some mixStore)
  have hcallable : mixStore.HasCallable mix :=
    (by decide +kernel : mixStore.callables[0]? = some mix)
  have hantisymm : ∀ a < mixStore.size, ∀ b < mixStore.size,
      mixStore.isAssignable a b = .ok true → mixStore.isAssignable b a = .ok true → a = b := by
    decide +kernel
  have hperm : [(⟨5, .byValue⟩, 2), (⟨6, .byValue⟩, 7), (⟨5, .byValue⟩, 1)].Perm
      [((⟨5, .byValue⟩, 1) : Parameter × Handle), (⟨5, .byValue⟩, 2), (⟨6, .byValue⟩, 7)] := by
    decide
  have hinfer : mixStore.inferTypes? mix [2, 7, 1, 1] {} = .ok (some [1]) := by decide +kernel
  exact (inferTypes?_perm hreachable (fun a b ha hb => hantisymm a ha b hb)
    (hreachable.lawful.wellFormed.inRange.signatures hcallable) rfl hperm
    (by decide +kernel : ∀ arg ∈ [2, 7, 1, 1], arg < mixStore.size) rfl).trans hinfer

end Order

end Inference

end NominalGenerics
