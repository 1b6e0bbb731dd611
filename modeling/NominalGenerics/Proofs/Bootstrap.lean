import NominalGenerics.Proofs.UniformCollection

/-!
# The constraint bootstrap

The bootstrap repeats one pass: it matches the constraint targets of fixed parameters against their
types, which records bounds, and fixes all parameters again. A pass can change the type of a
parameter or leave it without one. Two facts hold nevertheless.

* `Passes` describes the repetition without a bound on the number of passes. Each pass that is not
  the last leaves fewer parameters without a type, so there are at most as many passes as such
  parameters, and one.
* No step of an inference takes a witness back (`Gaining`). The types that are fixed in the end come
  from the last bounds, so they also satisfy the bounds that the arguments recorded.
-/

namespace NominalGenerics

theorem Witnesses.prefix_addAll (witnesses : Witnesses) (types : List Handle) :
    witnesses <+: witnesses.addAll types := by
  induction types generalizing witnesses with
  | nil => exact List.prefix_rfl
  | cons type types ih =>
      refine List.IsPrefix.trans ?_ (ih (witnesses.add type))
      unfold add
      split
      · exact List.prefix_rfl
      · exact List.prefix_append _ _

namespace BoundSet

/-- Each side of the later bound set begins with that side of the earlier one. -/
def GrownFrom (later earlier : BoundSet) : Prop :=
  ∀ flow, earlier.side flow <+: later.side flow

theorem GrownFrom.refl (bounds : BoundSet) : bounds.GrownFrom bounds := fun _ => List.prefix_rfl

theorem GrownFrom.trans {a b c : BoundSet} (hcb : c.GrownFrom b) (hba : b.GrownFrom a) :
    c.GrownFrom a :=
  fun flow => (hba flow).trans (hcb flow)

/-- The type equals the exact witnesses and lies between the lower and the upper ones. -/
structure SatisfiedBy (assignable : Handle → Handle → Query Bool) (bounds : BoundSet)
    (type : Handle) : Prop where
  exact : ∀ witness ∈ bounds.exact, witness = type
  lower : ∀ witness ∈ bounds.lower, assignable witness type = .ok true
  upper : ∀ witness ∈ bounds.upper, assignable type witness = .ok true

/-- What is fixed from a bound set satisfies the sets that it has grown from. -/
theorem GrownFrom.satisfiedBy {assignable : Handle → Handle → Query Bool} {later earlier : BoundSet}
    {type : Handle} (h : later.GrownFrom earlier)
    (hfix : later.fix? assignable = .ok (some type)) : earlier.SatisfiedBy assignable type :=
  have hmeets := meets_of_fix? hfix
  { exact witness hmem := hmeets.exact witness ((h .invariant).subset hmem)
    lower witness hmem := hmeets.lower witness ((h .covariant).subset hmem)
    upper witness hmem := hmeets.upper witness ((h .contravariant).subset hmem) }

end BoundSet

theorem recordAll_grown (bounds : List BoundSet) (found : List WitnessAt) :
    List.Forall₂ BoundSet.GrownFrom (recordAll bounds found) bounds := by
  refine forall₂_iff_getElem?.mpr ⟨length_recordAll, fun i later earlier hlater hearlier flow => ?_⟩
  have hside : ((recordAll bounds found)[i]?.getD {}).side flow =
      ((bounds[i]?.getD {}).side flow).addAll (typesAt found i flow) :=
    side_recordAll (List.getElem?_eq_some_iff.mp hearlier).1 flow
  rw [hlater, hearlier, Option.getD_some, Option.getD_some] at hside
  rw [hside]
  exact Witnesses.prefix_addAll _ _

namespace Collection

/-- Whatever the store, a match that ends has recorded witnesses. -/
theorem collect_recorded {store : Store} {signature : Signature} {source target : Handle}
    {flow : Flow} {bounds bounds' : List BoundSet} {matched : Bool}
    (h : Collection.collect store signature source target flow bounds = .ok (matched, bounds')) :
    ∃ found, bounds' = recordAll bounds found := by
  have huniform : Uniform bounds.length
      (collectWithin store signature Limits.collection.maxDepth source target flow) :=
    collectWithin_uniform _ _ _ _
  obtain ⟨⟨_, collector⟩, hrun, hend⟩ := Query.bind_eq_ok.mp h
  obtain ⟨_, -, hend⟩ := Query.bind_eq_ok.mp hend
  cases hend
  rcases huniform (.ofLimits Limits.collection) with
    ⟨fault, hfault⟩ | ⟨matched', depth, found, hfound⟩
  · cases hrun.symm.trans (hfault bounds rfl)
  · cases hrun.symm.trans (hfound bounds rfl)
    exact ⟨found, rfl⟩

end Collection

namespace InferredBounds

/-- There is a bound set and a place for a type for each type parameter. -/
structure Aligned (inferred : InferredBounds) : Prop where
  bounds : inferred.bounds.length = inferred.typeParams.length
  fixed : inferred.fixed.length = inferred.typeParams.length

theorem aligned_ofTypeParams (typeParams : List Handle) : (ofTypeParams typeParams).Aligned where
  bounds := List.length_map _
  fixed := List.length_map _

/-- The later state is about the same type parameters and has all witnesses of the earlier one. -/
structure GrownFrom (later earlier : InferredBounds) : Prop where
  typeParams : later.typeParams = earlier.typeParams
  places : later.fixed.length = earlier.fixed.length
  bounds : List.Forall₂ BoundSet.GrownFrom later.bounds earlier.bounds

theorem GrownFrom.refl (inferred : InferredBounds) : inferred.GrownFrom inferred where
  typeParams := rfl
  places := rfl
  bounds := List.forall₂_same.mpr fun _ _ => .refl _

theorem GrownFrom.trans {a b c : InferredBounds} (hcb : c.GrownFrom b) (hba : b.GrownFrom a) :
    c.GrownFrom a where
  typeParams := hcb.typeParams.trans hba.typeParams
  places := hcb.places.trans hba.places
  bounds := forall₂_of_common (R := flip BoundSet.GrownFrom) hcb.bounds.flip hba.bounds
    fun _ _ _ _ hlater hearlier => BoundSet.GrownFrom.trans hlater hearlier

theorem GrownFrom.aligned {later earlier : InferredBounds} (h : later.GrownFrom earlier)
    (haligned : earlier.Aligned) : later.Aligned where
  bounds := by rw [h.bounds.length_eq, h.typeParams, haligned.bounds]
  fixed := by rw [h.places, h.typeParams, haligned.fixed]

end InferredBounds

namespace Inference

variable {store : Store} {signature : Signature} {inferred inferred' : InferredBounds}

/-- The steps keep all witnesses, however they end. -/
def Gaining {α : Type} (steps : InferM α) : Prop :=
  ∀ inferred outcome inferred', run steps inferred = .ok (outcome, inferred') →
    inferred'.GrownFrom inferred

section Steps

variable {α β : Type} {steps : InferM α}

theorem gaining_pure (a : α) : Gaining (pure a) := by
  rintro inferred _ _ ⟨⟩
  exact .refl inferred

theorem gaining_throw (failure : InferenceFailure) : Gaining (throw failure : InferM α) := by
  rintro inferred _ _ ⟨⟩
  exact .refl inferred

theorem gaining_fault (fault : Fault) : Gaining (throwThe Fault fault : InferM α) := by
  rintro inferred _ _ ⟨⟩

theorem Gaining.bind {next : α → InferM β} (h : Gaining steps) (hnext : ∀ a, Gaining (next a)) :
    Gaining (steps >>= next) := by
  intro inferred outcome inferred' hrun
  rw [run_bind] at hrun
  obtain ⟨⟨first, mid⟩, hfirst, hrun⟩ := Query.bind_eq_ok.mp hrun
  cases first with
  | error failure =>
      cases hrun
      exact h _ _ _ hfirst
  | ok a => exact (hnext a _ _ _ hrun).trans (h _ _ _ hfirst)

theorem gaining_read {x : Query α} {next : α → InferM β} (hnext : ∀ a, Gaining (next a)) :
    Gaining (liftM x >>= next) := by
  intro inferred outcome inferred' hrun
  cases x with
  | error fault => cases hrun
  | ok a => exact hnext a _ _ _ hrun

theorem gaining_get {next : InferredBounds → InferM β} (hnext : ∀ a, Gaining (next a)) :
    Gaining (get >>= next) :=
  fun inferred _ _ hrun => hnext inferred _ _ _ hrun

theorem gaining_forM {f : α → InferM Unit} {as : List α} (hf : ∀ a ∈ as, Gaining (f a)) :
    Gaining (as.forM f) := by
  induction as with
  | nil => exact gaining_pure ()
  | cons a as ih =>
      exact (hf a List.mem_cons_self).bind fun _ => ih fun b hb => hf b (List.mem_cons_of_mem a hb)

theorem Gaining.tryCatch {handler : InferenceFailure → InferM α} (h : Gaining steps)
    (hhandler : ∀ failure, Gaining (handler failure)) : Gaining (tryCatch steps handler) := by
  intro inferred outcome inferred' hrun
  rw [run_tryCatch] at hrun
  obtain ⟨⟨first, mid⟩, hfirst, hrun⟩ := Query.bind_eq_ok.mp hrun
  cases first with
  | error failure => exact (hhandler failure _ _ _ hrun).trans (h _ _ _ hfirst)
  | ok a =>
      cases hrun
      exact h _ _ _ hfirst

end Steps

section Collecting

theorem collect_gaining (source target : Handle) (flow : Flow) :
    Gaining (collect store signature source target flow) := by
  intro inferred outcome inferred' hrun
  cases hcollect : Collection.collect store signature source target flow inferred.bounds with
  | error fault =>
      rw [collect, run_get_bind, hcollect] at hrun
      cases hrun
  | ok result =>
      obtain ⟨matched, bounds⟩ := result
      cases (run_collect (c := ⟨source, target, flow⟩) hcollect).symm.trans hrun
      obtain ⟨found, rfl⟩ := Collection.collect_recorded hcollect
      exact ⟨rfl, rfl, recordAll_grown _ _⟩

/-- Matching a template, with a failure to throw if it does not match. -/
theorem match_gaining (source target : Handle) (flow : Flow) (failure : InferenceFailure) :
    Gaining (do if ← collect store signature source target flow then return else throw failure) :=
  (collect_gaining source target flow).bind fun matched => by
    cases matched with
    | true => exact gaining_pure ()
    | false => exact gaining_throw failure

theorem checkParameter_gaining (param : Parameter) (arg : Handle) (index : Nat) :
    Gaining (checkParameter store signature param arg index) := by
  refine gaining_read fun template => gaining_read fun isOpen => ?_
  split
  · exact gaining_pure ()
  · refine gaining_read fun accepted => ?_
    split
    · exact gaining_pure ()
    · exact gaining_throw _

theorem checkReturn_gaining (expected : Handle) :
    Gaining (checkReturn store signature expected) := by
  unfold checkReturn
  split
  · exact gaining_throw _
  · refine gaining_read fun template => gaining_read fun isOpen => ?_
    split
    · exact gaining_pure ()
    · refine gaining_read fun accepted => ?_
      split
      · exact gaining_pure ()
      · exact gaining_throw _

theorem collectParameter_gaining (param : Parameter) (arg : Handle) (index : Nat) :
    Gaining (collectParameter store signature param arg index) := by
  refine gaining_read fun template => gaining_read fun isOpen => ?_
  split
  · refine gaining_read fun inner? => ?_
    cases inner? with
    | none => exact match_gaining _ _ _ _
    | some inner => exact match_gaining _ _ _ _
  · exact gaining_pure ()

theorem collectReturn_gaining (expected returns : Handle) :
    Gaining (collectReturn store signature expected returns) := by
  refine gaining_read fun inner? => ?_
  cases inner? with
  | none => exact match_gaining _ _ _ _
  | some inner => exact match_gaining _ _ _ _

theorem collectBounds_gaining (args : List Handle) :
    Gaining (collectBounds store signature args) := by
  have hchecks : Gaining ((signature.params.zip args).zipIdx.forM fun p =>
      checkParameter store signature p.1.1 p.1.2 p.2) :=
    gaining_forM fun p _ => checkParameter_gaining p.1.1 p.1.2 p.2
  have hcollects : Gaining ((signature.params.zip args).zipIdx.forM fun p =>
      collectParameter store signature p.1.1 p.1.2 p.2) :=
    gaining_forM fun p _ => collectParameter_gaining p.1.1 p.1.2 p.2
  unfold collectBounds
  split
  · exact gaining_fault _
  · cases args[signature.params.length]? with
    | none => exact hchecks.bind fun _ => hcollects.bind fun _ => gaining_pure ()
    | some expected =>
        refine hchecks.bind fun _ => (checkReturn_gaining expected).bind fun _ =>
          hcollects.bind fun _ => ?_
        cases signature.returns with
        | none => exact gaining_pure ()
        | some returns => exact collectReturn_gaining expected returns

end Collecting

section Fixing

theorem fixAt_gaining (breakEarly : Bool) (position : Nat) :
    Gaining (fixAt store breakEarly position) := by
  intro inferred outcome inferred' hrun
  rw [run_fixAt] at hrun
  obtain ⟨type?, -, hend⟩ := Query.bind_eq_ok.mp hrun
  obtain ⟨-, rfl⟩ := Prod.mk.inj (Query.pure_eq_ok.mp hend)
  exact ⟨rfl, List.length_set, (InferredBounds.GrownFrom.refl inferred).bounds⟩

theorem fixAll_gaining (breakEarly : Bool) : Gaining (fixAll store breakEarly) := by
  refine gaining_get fun inferred => ?_
  refine (gaining_forM fun position _ => fixAt_gaining breakEarly position).bind fun _ => ?_
  refine gaining_get fun fixed => ?_
  dsimp only
  split
  · exact gaining_throw _
  · exact gaining_pure ()

theorem feedConstraints_gaining (position : Nat) :
    Gaining (feedConstraints store signature position) := by
  refine gaining_get fun inferred => ?_
  split
  · refine gaining_read fun info? => ?_
    split
    · exact gaining_forM fun target _ => match_gaining _ _ _ _
    · exact gaining_pure ()
  · exact gaining_pure ()

end Fixing

section Passes

/-- One pass of the bootstrap, and whether every parameter has a type after it. -/
def pass (store : Store) (signature : Signature) : InferM Bool := do
  (List.range (← get).typeParams.length).forM (feedConstraints store signature)
  tryCatch (do fixAll store false; return true) fun _ => return false

theorem pass_gaining : Gaining (pass store signature) := by
  refine gaining_get fun inferred => ?_
  refine (gaining_forM fun position _ => feedConstraints_gaining position).bind fun _ => ?_
  exact ((fixAll_gaining false).bind fun _ => gaining_pure true).tryCatch fun _ =>
    gaining_pure false

variable (store signature) in
/-- The passes of the bootstrap from a state: `Passes n inferred result` if it ends with `result`
after `n` of them. It goes on after a pass that leaves fewer parameters without a type, but not all
of them with one. -/
inductive Passes : Nat → InferredBounds → Query (Except InferenceFailure Unit × InferredBounds) →
    Prop where
  | fault {inferred : InferredBounds} {fault : Fault}
      (hpass : run (pass store signature) inferred = .error fault) :
      Passes 1 inferred (.error fault)
  | mismatch {inferred after : InferredBounds} {failure : InferenceFailure}
      (hpass : run (pass store signature) inferred = .ok (.error failure, after)) :
      Passes 1 inferred (.ok (.error failure, after))
  | fixed {inferred after : InferredBounds}
      (hpass : run (pass store signature) inferred = .ok (.ok true, after)) :
      Passes 1 inferred (.ok (.ok (), after))
  | stuck {inferred after : InferredBounds}
      (hpass : run (pass store signature) inferred = .ok (.ok false, after))
      (hstuck : inferred.unresolved ≤ after.unresolved) :
      Passes 1 inferred (.ok (.error (.unresolved after.unresolved), after))
  | again {inferred after : InferredBounds} {n : Nat}
      {result : Query (Except InferenceFailure Unit × InferredBounds)}
      (hpass : run (pass store signature) inferred = .ok (.ok false, after))
      (hfewer : after.unresolved < inferred.unresolved) (hrest : Passes n after result) :
      Passes (n + 1) inferred result

variable {n : Nat} {result : Query (Except InferenceFailure Unit × InferredBounds)}

/-- All passes but the last leave fewer parameters without a type. -/
theorem Passes.le_unresolved (h : Passes store signature n inferred result) :
    n ≤ inferred.unresolved + 1 := by
  induction h with
  | again _ hfewer _ ih => omega
  | _ => omega

/-- The bootstrap in terms of its first pass. -/
theorem run_bootstrapPasses (fuel : Nat) (inferred : InferredBounds) :
    run (bootstrapPasses store signature (fuel + 1)) inferred = (do
      match ← run (pass store signature) inferred with
      | (.ok true, after) => return (.ok (), after)
      | (.ok false, after) =>
          if inferred.unresolved ≤ after.unresolved then
            return (.error (.unresolved after.unresolved), after)
          else
            run (bootstrapPasses store signature fuel) after
      | (.error failure, after) => return (.error failure, after)) := by
  rw [bootstrapPasses, run_get_bind, run_get_bind, pass, run_get_bind, run_bind, run_bind,
    bind_assoc]
  refine bind_congr fun ⟨outcome, fed⟩ => ?_
  cases outcome with
  | error failure => rfl
  | ok u =>
      dsimp only
      rw [run_tryCatch, run_tryCatch, run_bind, bind_assoc, bind_assoc]
      refine bind_congr fun ⟨outcome, after⟩ => ?_
      cases outcome with
      | ok u => rfl
      | error failure =>
          change run (if inferred.unresolved ≤ after.unresolved then _ else _) after =
            if inferred.unresolved ≤ after.unresolved then _ else _
          split <;> rfl

/-- The bootstrap goes through passes, and does not run out of fuel. -/
theorem passes_bootstrapPasses {fuel : Nat} (hfuel : inferred.unresolved < fuel) :
    ∃ n, Passes store signature n inferred
      (run (bootstrapPasses store signature fuel) inferred) := by
  induction fuel generalizing inferred with
  | zero => exact absurd hfuel (Nat.not_lt_zero _)
  | succ fuel ih =>
      rw [run_bootstrapPasses]
      cases hpass : run (pass store signature) inferred with
      | error fault => exact ⟨1, .fault hpass⟩
      | ok ended =>
          obtain ⟨outcome, after⟩ := ended
          rw [Query.ok_bind]
          cases outcome with
          | error failure => exact ⟨1, .mismatch hpass⟩
          | ok everyFixed =>
              cases everyFixed with
              | true => exact ⟨1, .fixed hpass⟩
              | false =>
                  dsimp only
                  split
                  · next hstuck => exact ⟨1, .stuck hpass hstuck⟩
                  · next hfewer =>
                      obtain ⟨n, hrest⟩ := ih (show after.unresolved < fuel by omega)
                      exact ⟨n + 1, .again hpass (Nat.lt_of_not_le hfewer) hrest⟩

/-- Passes from a state end in one way, which is that of the bootstrap. -/
theorem Passes.eq_bootstrapPasses (h : Passes store signature n inferred result) {fuel : Nat}
    (hfuel : inferred.unresolved < fuel) :
    result = run (bootstrapPasses store signature fuel) inferred := by
  induction h generalizing fuel with
  | fault hpass | mismatch hpass | fixed hpass =>
      obtain ⟨fuel, rfl⟩ := Nat.exists_eq_succ_of_ne_zero (Nat.ne_zero_of_lt hfuel)
      rw [run_bootstrapPasses, hpass]
      rfl
  | stuck hpass hstuck =>
      obtain ⟨fuel, rfl⟩ := Nat.exists_eq_succ_of_ne_zero (Nat.ne_zero_of_lt hfuel)
      rw [run_bootstrapPasses, hpass]
      exact (if_pos hstuck).symm
  | again hpass hfewer _ ih =>
      obtain ⟨fuel, rfl⟩ := Nat.exists_eq_succ_of_ne_zero (Nat.ne_zero_of_lt hfuel)
      rw [run_bootstrapPasses, hpass]
      exact (ih (by omega)).trans (if_neg (Nat.not_le_of_lt hfewer)).symm

theorem Passes.gaining (h : Passes store signature n inferred result)
    {outcome : Except InferenceFailure Unit} {last : InferredBounds}
    (hresult : result = .ok (outcome, last)) : last.GrownFrom inferred := by
  induction h with
  | fault => cases hresult
  | mismatch hpass | fixed hpass | stuck hpass =>
      cases hresult
      exact pass_gaining _ _ _ hpass
  | again hpass _ _ ih => exact (ih hresult).trans (pass_gaining _ _ _ hpass)

end Passes

section Results

/-- Every type parameter has a type, and it is the one that the bounds of the parameter give. -/
def FixedFrom (store : Store) (inferred : InferredBounds) (types : List Handle) : Prop :=
  inferred.fixedTypes? = some types ∧
    List.Forall₂ (fun bounds type => bounds.fix? store.isAssignable = .ok (some type))
      inferred.bounds types

theorem fixedTypes?_of_resolved (h : inferred.unresolved = 0) :
    ∃ types, inferred.fixedTypes? = some types := by
  rw [InferredBounds.unresolved, List.countP_eq_zero] at h
  rw [InferredBounds.fixedTypes?]
  generalize inferred.fixed = fixed at h
  induction fixed with
  | nil => exact ⟨[], rfl⟩
  | cons type? fixed ih =>
      obtain ⟨types, htypes⟩ := ih fun type? hmem => h type? (List.mem_cons_of_mem _ hmem)
      cases type? with
      | none => exact absurd rfl (h none List.mem_cons_self)
      | some type => exact ⟨type :: types, by simp [List.mapM_cons, htypes]⟩

/-- Fixing that succeeds fixes every type parameter from its bounds. -/
theorem fixedFrom_of_fixAll {breakEarly : Bool} {u : Unit} (haligned : inferred.Aligned)
    (hrun : run (fixAll store breakEarly) inferred = .ok (.ok u, inferred')) :
    ∃ types, FixedFrom store inferred' types := by
  obtain ⟨fixed, rfl, hlength, hresolved, hfixes⟩ := fixAll_run hrun
  obtain ⟨types, htypes⟩ := fixedTypes?_of_resolved hresolved
  have hfixed : fixed = types.map some := eq_map_some_of_mapM_id htypes
  have hwidth : inferred.bounds.length = types.length := by
    rw [haligned.bounds, ← haligned.fixed, ← hlength, hfixed, List.length_map]
  refine ⟨types, htypes, forall₂_iff_getElem?.mpr ⟨hwidth, fun i bounds type hbounds htype => ?_⟩⟩
  have hi : i < inferred.typeParams.length :=
    haligned.bounds ▸ (List.getElem?_eq_some_iff.mp hbounds).1
  simpa [hbounds] using hfixes i hi (some type) (by simp [hfixed, htype])

theorem fixedFrom_of_pass (haligned : inferred.Aligned)
    (hpass : run (pass store signature) inferred = .ok (.ok true, inferred')) :
    ∃ types, FixedFrom store inferred' types := by
  rw [pass, run_get_bind] at hpass
  obtain ⟨_, fed, hfeed, hfix⟩ := run_bind_eq_ok.mp hpass
  rw [run_tryCatch] at hfix
  obtain ⟨⟨outcome, after⟩, hfixAll, hend⟩ := Query.bind_eq_ok.mp hfix
  cases outcome with
  | error failure => cases hend
  | ok answer =>
      cases hend
      obtain ⟨u, mid, hfixAll, hanswer⟩ := run_bind_eq_ok.mp hfixAll
      cases hanswer
      have hgrown := gaining_forM (fun position _ => feedConstraints_gaining position) _ _ _ hfeed
      exact fixedFrom_of_fixAll (hgrown.aligned haligned) hfixAll

theorem Passes.fixedFrom {n : Nat}
    {result : Query (Except InferenceFailure Unit × InferredBounds)}
    (h : Passes store signature n inferred result) (haligned : inferred.Aligned) {u : Unit}
    {last : InferredBounds} (hresult : result = .ok (.ok u, last)) :
    ∃ types, FixedFrom store last types := by
  induction h with
  | fault => cases hresult
  | mismatch => cases hresult
  | fixed hpass =>
      cases hresult
      exact fixedFrom_of_pass haligned hpass
  | stuck => cases hresult
  | again hpass _ _ ih => exact ih ((pass_gaining _ _ _ hpass).aligned haligned) hresult

theorem run_bootstrap (store : Store) (signature : Signature) (inferred : InferredBounds) :
    run (bootstrap store signature) inferred =
      run (bootstrapPasses store signature (inferred.unresolved + 1)) inferred := by
  rw [bootstrap, run_get_bind]

theorem passes_bootstrap (store : Store) (signature : Signature) (inferred : InferredBounds) :
    ∃ n, Passes store signature n inferred (run (bootstrap store signature) inferred) := by
  rw [run_bootstrap]
  exact passes_bootstrapPasses (Nat.lt_succ_self _)

theorem bootstrap_gaining : Gaining (bootstrap store signature) := fun inferred _ _ hrun =>
  have ⟨_, hpasses⟩ := passes_bootstrap store signature inferred
  hpasses.gaining hrun

theorem fixOrBootstrap_gaining (bootstraps : Bool) :
    Gaining (fixOrBootstrap store signature bootstraps) := by
  refine (fixAll_gaining _).tryCatch fun failure => ?_
  cases bootstraps with
  | true => exact bootstrap_gaining
  | false => exact gaining_throw failure

theorem fixedFrom_of_fixOrBootstrap {bootstraps : Bool} {u : Unit} (haligned : inferred.Aligned)
    (hrun : run (fixOrBootstrap store signature bootstraps) inferred = .ok (.ok u, inferred')) :
    ∃ types, FixedFrom store inferred' types := by
  rw [fixOrBootstrap, run_tryCatch] at hrun
  obtain ⟨⟨outcome, mid⟩, hfixAll, hrun⟩ := Query.bind_eq_ok.mp hrun
  cases outcome with
  | ok u =>
      cases hrun
      exact fixedFrom_of_fixAll haligned hfixAll
  | error failure =>
      cases bootstraps with
      | false => cases hrun
      | true =>
          obtain ⟨n, hpasses⟩ := passes_bootstrap store signature mid
          exact hpasses.fixedFrom ((fixAll_gaining _ _ _ _ hfixAll).aligned haligned) hrun

/-- A successful inference collects the bounds of its arguments and fixes its types from bounds that
have grown from these. -/
theorem infer_fixes {args types : List Handle} {options : InferenceOptions}
    (haligned : inferred.Aligned)
    (hinfer : run (infer store signature args options) inferred = .ok (.ok types, inferred')) :
    ∃ collected, run (collectBounds store signature args) inferred = .ok (.ok (), collected) ∧
      inferred'.GrownFrom collected ∧ FixedFrom store inferred' types := by
  rw [infer_eq] at hinfer
  obtain ⟨_, collected, hcollect, hrun⟩ := run_bind_eq_ok.mp hinfer
  obtain ⟨_, last, hfixing, hend⟩ := run_bind_eq_ok.mp hrun
  have haligned := (collectBounds_gaining args _ _ _ hcollect).aligned haligned
  obtain ⟨fixed, htypes, hfixed⟩ := fixedFrom_of_fixOrBootstrap haligned hfixing
  have hreturned : inferred' = last ∧ types = fixed := by
    rw [run_get_bind, htypes] at hend
    dsimp only at hend
    split at hend
    · cases hend
      exact ⟨rfl, rfl⟩
    · obtain ⟨satisfied, mid, hsatisfied, hend⟩ := run_bind_eq_ok.mp hend
      obtain ⟨-, rfl⟩ := run_query_eq_ok.mp hsatisfied
      cases satisfied with
      | false => cases hend
      | true =>
          cases hend
          exact ⟨rfl, rfl⟩
  obtain ⟨rfl, rfl⟩ := hreturned
  exact ⟨collected, hcollect, fixOrBootstrap_gaining _ _ _ _ hfixing, htypes, hfixed⟩

theorem infer_gaining (args : List Handle) (options : InferenceOptions) :
    Gaining (infer store signature args options) := by
  rw [infer_eq]
  refine (collectBounds_gaining args).bind fun _ => (fixOrBootstrap_gaining _).bind fun _ =>
    gaining_get fun inferred => ?_
  split
  · exact gaining_throw _
  · split
    · exact gaining_pure _
    · refine gaining_read fun satisfied => ?_
      split
      · exact gaining_pure _
      · exact gaining_throw _

/-- The bootstrap of a state with a place for each type parameter.

* It goes through passes, at most as many as there are parameters without a type, and one; there is
  no other way to go through them. From a state of an inference call it ends without a fault.
* If it succeeds, every parameter has the type that its last bounds give.
* No pass takes a witness back.
* Whenever an inference call succeeds, with the bootstrap or without, its types satisfy the bounds
  that its arguments recorded. -/
theorem bootstrap_respects_bounds (store : Store) (signature : Signature)
    {inferred : InferredBounds} (haligned : inferred.Aligned) :
    (∃ n, Passes store signature n inferred (run (bootstrap store signature) inferred)) ∧
      (∀ n result, Passes store signature n inferred result →
        n ≤ inferred.unresolved + 1 ∧ result = run (bootstrap store signature) inferred) ∧
      (store.Reachable → store.HasCallable signature →
        Tracks store signature inferred.bounds inferred →
        ∃ outcome last, run (bootstrap store signature) inferred = .ok (outcome, last)) ∧
      (∀ last, run (bootstrap store signature) inferred = .ok (.ok (), last) →
        ∃ types, types.length = inferred.typeParams.length ∧ FixedFrom store last types) ∧
      (Gaining (pass store signature) ∧ Gaining (bootstrap store signature) ∧
        ∀ args options, Gaining (infer store signature args options)) ∧
      ∀ args options types last,
        run (infer store signature args options) inferred = .ok (.ok types, last) →
        ∃ collected, run (collectBounds store signature args) inferred = .ok (.ok (), collected) ∧
          List.Forall₂ (BoundSet.SatisfiedBy store.isAssignable) collected.bounds types := by
  refine ⟨passes_bootstrap store signature inferred, fun n result hpasses => ?_, ?_, ?_,
    ⟨pass_gaining, bootstrap_gaining, infer_gaining⟩, ?_⟩
  · rw [run_bootstrap]
    exact ⟨hpasses.le_unresolved, hpasses.eq_bootstrapPasses (Nat.lt_succ_self _)⟩
  · intro hs hcallable htracks
    obtain ⟨outcome, last, hrun, -⟩ :=
      bootstrapPasses_concludes hs hcallable htracks (Nat.lt_succ_self _)
    exact ⟨outcome, last, (run_bootstrap store signature inferred).trans hrun⟩
  · intro last hrun
    obtain ⟨n, hpasses⟩ := passes_bootstrap store signature inferred
    obtain ⟨types, htypes, hfixed⟩ := hpasses.fixedFrom haligned hrun
    have hlast := bootstrap_gaining _ _ _ hrun
    refine ⟨types, ?_, htypes, hfixed⟩
    rw [← hfixed.length_eq, (hlast.aligned haligned).bounds, hlast.typeParams]
  · intro args options types last hinfer
    obtain ⟨collected, hcollect, hgrown, -, hfixed⟩ := infer_fixes haligned hinfer
    exact ⟨collected, hcollect, forall₂_of_common hgrown.bounds hfixed
      fun _ _ _ _ hgrown hfix => hgrown.satisfiedBy hfix⟩

/-- The operations of `widenStore`. -/
def widenOperations : List Operation :=
  [.declare .classType "string",
    .declareGeneric .interfaceType "Sequence" [("X", .covariant)],
    .declareGeneric .classType "List" [("Y", .invariant)],
    .instantiate 2 [5],
    .addInterface 4 6,
    .finish,
    .declareCallable "Widen" ["T", "U", "V"],
    .instantiate 2 [8],
    .instantiate 2 [9],
    .addConstraint 7 (.base 10),
    .addConstraint 7 (.base 11),
    .addParameter 0 7 .byValue,
    .addParameter 0 8 .byValue,
    .instantiate 4 [0]]

/-- A store with lists as sequences and `Widen<T, U, V>(T, U)` where
`T : Sequence<U>, Sequence<V>`. -/
def widenStore : Store := (Operation.runAll widenOperations (.ofRoot "object")).getD {}

/-- The callable of `widenStore`. -/
def widen : Signature :=
  { id := 0, name := "Widen", typeParams := [7, 8, 9], params := [⟨7, .byValue⟩, ⟨8, .byValue⟩] }

/-- The state after the arguments `List<object>` and `string` of `widen` were matched. -/
def widenCollected : InferredBounds where
  typeParams := [7, 8, 9]
  bounds := [⟨[12], [], []⟩, ⟨[1], [], []⟩, {}]
  fixed := [none, none, none]

/-- The first pass fixes `List<object>` for `T` and `string` for `U`. The second finds `object` for
`V`, and for `U` too, to which the argument `string` is still assignable. -/
theorem bootstrap_respects_bounds_widen :
    (∃ n ≤ 4, Passes widenStore widen n widenCollected
      (run (bootstrap widenStore widen) widenCollected)) ∧
      (∃ outcome last, run (bootstrap widenStore widen) widenCollected = .ok (outcome, last)) ∧
      (∃ last types, run (bootstrap widenStore widen) widenCollected = .ok (.ok (), last) ∧
        types.length = 3 ∧ FixedFrom widenStore last types) ∧
      List.Forall₂ (BoundSet.SatisfiedBy widenStore.isAssignable) widenCollected.bounds
        [12, 0, 0] := by
  have hreachable : widenStore.Reachable := (Store.Reachable.ofRoot "object").runAll
    (by decide +kernel : Operation.runAll widenOperations (.ofRoot "object") = some widenStore)
  have hcallable : widenStore.HasCallable widen :=
    (by decide +kernel : widenStore.callables[0]? = some widen)
  have hcollect : run (collectBounds widenStore widen [12, 1]) (.ofTypeParams widen.typeParams) =
      .ok (.ok (), widenCollected) := by decide +kernel
  have htracks : Tracks widenStore widen widenCollected.bounds widenCollected :=
    ((collectBounds_concludes hreachable
      (hreachable.lawful.wellFormed.inRange.signatures hcallable) (by decide +kernel) (by decide)
      (tracks_ofTypeParams widenStore widen)).of_run hcollect).1.rebase
  have hbootstrap := bootstrap_respects_bounds widenStore widen
    (show widenCollected.Aligned from ⟨rfl, rfl⟩)
  refine ⟨?_, hbootstrap.2.2.1 hreachable hcallable htracks, ?_, ?_⟩
  · obtain ⟨n, hpasses⟩ := hbootstrap.1
    exact ⟨n, (hbootstrap.2.1 n _ hpasses).1, hpasses⟩
  · have hrun : run (bootstrap widenStore widen) widenCollected = .ok (.ok (), ⟨[7, 8, 9],
        [⟨[12], [], []⟩, ⟨[1, 0], [], []⟩, ⟨[0], [], []⟩], [some 12, some 0, some 0]⟩) := by
      decide +kernel
    obtain ⟨types, hlength, hfixed⟩ := hbootstrap.2.2.2.1 _ hrun
    exact ⟨_, types, hrun, hlength, hfixed⟩
  · have hinfer : run (infer widenStore widen [12, 1] ⟨false, true⟩) (.ofTypeParams widen.typeParams) =
        .ok (.ok [12, 0, 0], ⟨[7, 8, 9],
          [⟨[12], [], []⟩, ⟨[1, 0], [], []⟩, ⟨[0], [], []⟩], [some 12, some 0, some 0]⟩) := by
      decide +kernel
    obtain ⟨collected, hcollected, hsatisfied⟩ :=
      (bootstrap_respects_bounds widenStore widen
        (InferredBounds.aligned_ofTypeParams widen.typeParams)).2.2.2.2.2 _ _ _ _ hinfer
    cases hcollect.symm.trans hcollected
    exact hsatisfied

end Results

end Inference

end NominalGenerics
