import NominalGenerics.Proofs.InferenceProgress
import NominalGenerics.Proofs.RelatedTemplates
import NominalGenerics.Proofs.Specialization
import NominalGenerics.Proofs.Store.Progress

/-!
# By-reference parameters

An argument passed by reference is matched exactly: its type is the template of the parameter with
the inferred types put in for the type parameters of the callable, whatever the shape of the
template and however the types were fixed. A template that mentions no type parameter is not matched
at all. It only has to accept the argument.

`inferTypes?_exact` states both. The first rests on one induction over the levels of a match in
which everything is compared exactly.
-/

namespace NominalGenerics.Inference

open Collection (Matches MatchStep Compound HasArray Instances eq_of_relateConcrete)

variable {store : Store} {signature : Signature} {types : List Handle}

section Templates

variable {source target : Handle} {bounds : List BoundSet}

/-- An instantiation replaces another of its definition if the arguments replace the arguments. -/
theorem replaced_of_instances (hs : store.WellFormed) {params : List Handle}
    (hparams : store.CallableParams params) (hsource : source < store.size)
    (htarget : target < store.size) (hcompound : Compound store target)
    (harray : ¬ HasArray store source target) {definition : Handle}
    {sourceArgs targetArgs : List Handle}
    (hinstances : Instances store ⟨source, target, .invariant⟩ definition sourceArgs targetArgs)
    (hlength : sourceArgs.length = targetArgs.length)
    (hargs : ∀ (i : Nat) x y, sourceArgs[i]? = some x → targetArgs[i]? = some y →
      store.Replaced true params types y x) :
    store.Replaced true params types target source := by
  obtain ⟨happlies, hsapplies⟩ := hinstances.applies hs hsource htarget hcompound harray
  exact Store.replaced_applies hs.coherent hparams happlies hsapplies hlength.symm
    fun i y x hy hx => hargs i x y hx hy

/-- A closed type that matches a template exactly is the template with the inferred types put in, if
these equal their exact witnesses. -/
theorem replaced_of_matches (hs : store.WellFormed) (hcallable : store.HasCallable signature)
    (hdeclaring : signature.declaringType = none)
    (hlength : types.length = signature.typeParams.length)
    (hexact : ∀ (i : Nat) type, types[i]? = some type →
      ∀ witness ∈ (bounds[i]?.getD {}).exact, witness = type)
    {levels : Nat}
    (hmatch : Matches store signature (Recorded bounds) levels ⟨source, target, .invariant⟩)
    (hclosed : store.isOpen source = .ok false) (htarget : target < store.size) :
    store.Replaced true signature.typeParams types target source := by
  have hparams : store.CallableParams signature.typeParams := by
    intro param hparam
    obtain ⟨position, hat⟩ := hcallable.paramAt hs.coherent hparam
    exact ⟨signature.id, position, hat⟩
  induction levels generalizing source target with
  | zero => exact hmatch.elim
  | succ levels ih =>
      obtain ⟨sform, hsform, hsclosed⟩ := Store.form_of_isOpen hclosed
      have hstays : store.isOpen target = .ok false →
          store.Replaced true signature.typeParams types target target := fun htclosed =>
        Store.replaced_of_avoids hs.coherent htarget
          (Store.outside_of_closed hs.coherent hcallable htclosed).2
      cases hmatch with
      | @own info hparam howner hrecord =>
          have hposition := hcallable.position_of_owner hs.coherent hparam howner
          obtain ⟨type, htype⟩ := getElem?_of_length_eq hlength hposition
          obtain ⟨set, hset, hmem⟩ := hrecord
          obtain rfl : source = type :=
            hexact info.position type htype source (by rw [hset]; exact hmem)
          exact .bound (Store.idxOf?_of_paramAt (hs.coherent.callables hcallable).2 hposition) htype
      | foreign hparam _ hbound hrelated =>
          -- The type parameters of another declaration are not closed.
          cases (enclosingArgument_of_none hdeclaring htarget).symm.trans hbound
          obtain rfl : source = target := eq_of_relateConcrete hrelated
          cases hclosed.symm.trans ((Store.paramAt_of_param? hparam).isOpen hs.coherent)
      | concrete _ htclosed hrelated =>
          obtain rfl : source = target := eq_of_relateConcrete hrelated
          exact hstays htclosed
      | @elements d _ _ helements hmatch =>
          obtain ⟨dsource, dtarget, dflow⟩ := d
          obtain ⟨hdflow, rank, hsource, hdtarget⟩ := helements
          dsimp only at hdflow hsource hdtarget
          subst hdflow
          have hsarray := Store.isArray_of_array? hsource
          have htarray := Store.isArray_of_array? hdtarget
          obtain ⟨_, hself, hshape, -⟩ := hsarray.exists_form
          obtain rfl := Option.some.inj (hsform.symm.trans hself)
          obtain ⟨part, hpart, hpartOpen, -⟩ := hs.coherent.element hsform hshape
          obtain ⟨tform, htform, htshape, -⟩ := htarray.exists_form
          obtain ⟨tpart, htpart, -⟩ := hs.coherent.element htform htshape
          refine hparams.parameters.replaced_isArray htarray hsarray (ih hmatch ?_ ?_)
          · rw [Store.isOpen_of_form hpart, hpartOpen, hsclosed]
          · exact Store.form_lt htpart
      | ambiguous _ _ hambiguous => exact hambiguous.elim
      | @arguments definition sourceArgs targetArgs hcompound harray hinstances hargs =>
          have hsource := Store.form_lt hsform
          refine replaced_of_instances hs hparams hsource htarget hcompound harray hinstances
            hargs.1 fun i x y hx hy => ?_
          obtain ⟨flow, ⟨variance, valueType, -, -, hflow⟩, hcase⟩ := hargs.2 i x y hx hy
          rw [Flow.combine_invariant] at hflow
          dsimp only at hflow
          subst hflow
          have hylt := (hinstances.lt hs hsource htarget).2 y (List.mem_of_getElem? hy)
          rcases hcase with ⟨-, hmatch⟩ | ⟨hyclosed, hrelated⟩
          · refine ih hmatch ?_ hylt
            obtain ⟨-, -, hsargs, -⟩ := hinstances
            rw [Store.arguments_of_form hsform, Except.ok.injEq] at hsargs
            subst hsargs
            obtain ⟨part, hpart, hpartClosed⟩ :=
              hs.coherent.argument hsform (List.mem_of_getElem? hx)
            rw [Store.isOpen_of_form hpart, (hpartClosed hsclosed).1]
          · obtain rfl := eq_of_relateConcrete hrelated
            exact Store.replaced_of_avoids hs.coherent hylt
              (Store.outside_of_closed hs.coherent hcallable hyclosed).2

end Templates

/-- What a type becomes when types are put in for type parameters is what substitution returns. -/
theorem substitute_of_replaced {params : List Handle} {type result : Handle} (hs : store.Coherent)
    (hlength : params.length ≤ types.length) (htypes : ∀ type ∈ types, type < store.size)
    (hlt : type < store.size) (h : store.Replaced true params types type result) :
    ∃ store', (Store.substitute params types type).run store = .ok (result, store') := by
  obtain ⟨result', store', hrun, -⟩ := Store.substitute_returns hs hlength htypes hlt
  obtain ⟨hs', hgrown, -, h'⟩ := Store.substitute_run hs htypes hrun
  obtain rfl := (h.mono hgrown.extends).functional hs' h'
  exact ⟨store', hrun⟩

/-- The comparison of a by-reference parameter whose template is no optional wrapper. -/
theorem parameterComparison_byRef {template arg : Handle} {mode : PassingMode} {c : Comparison}
    (hmode : mode.isByRef = true) (hwrapper : store.isOptionalWrapper template = .ok false)
    (hc : parameterComparison store template arg mode = .ok c) :
    c = ⟨arg, template, .invariant⟩ := by
  rw [parameterComparison, unwrap?, hwrapper] at hc
  simp only [Query.ok_bind, Bool.false_eq_true, if_false, pure_bind, hmode, if_true] at hc
  exact (Query.pure_eq_ok.mp hc).symm

/-- An argument passed by reference has the type that substitution makes of the template of its
parameter, unless that mentions no type parameter; then the template accepts the argument. -/
theorem inferTypes?_exact (hs : store.Reachable) (hcallable : store.HasCallable signature)
    (hdeclaring : signature.declaringType = none) {args : List Handle}
    (hargs : ∀ arg ∈ args, store.isOpen arg = .ok false) {options : InferenceOptions}
    (hinfer : store.inferTypes? signature args options = .ok (some types)) {i : Nat}
    {param : Parameter} {arg : Handle} (hparam : signature.params[i]? = some param)
    (harg : args[i]? = some arg) (hmode : param.mode.isByRef = true)
    (hwrapper : store.isOptionalWrapper param.type = .ok false) :
    (store.isOpen param.type = .ok true →
      ∃ store', (Store.substitute signature.typeParams types param.type).run store =
        .ok (arg, store')) ∧
      (store.isOpen param.type = .ok false → compatible store arg param.type = .ok true) := by
  have hwf := hs.lawful.wellFormed
  have hsignature := hwf.inRange.signatures hcallable
  have hlt : ∀ arg ∈ args, arg < store.size := by
    intro arg harg
    obtain ⟨form, hform, -⟩ := Store.form_of_isOpen (hargs arg harg)
    exact Store.form_lt hform
  obtain ⟨collected, last, hcollect, htracks, hmet, hfixed⟩ :=
    inferTypes?_met hs hcallable hlt hinfer
  obtain ⟨bounds, rfl, -, haccepted⟩ :=
    (collectBounds_achieves hwf hsignature hdeclaring hlt _ _ rfl).1 _ _ hcollect
  have haccepted := haccepted rfl last.bounds htracks.grown
  have hplt := hsignature.params param (List.mem_of_getElem? hparam)
  have hlength : types.length = signature.typeParams.length := by
    rw [← htracks.places, hfixed, List.length_map]
  have hrange : ∀ type ∈ types, type < store.size := fun type htype =>
    htracks.fixed type (hfixed ▸ List.mem_map_of_mem htype)
  refine ⟨fun hopen => ?_, haccepted.concrete i param arg hparam harg⟩
  obtain ⟨c, hc, hmatch⟩ := haccepted.templates i param arg hparam harg hopen
  obtain rfl := parameterComparison_byRef hmode hwrapper hc
  refine substitute_of_replaced hwf.coherent (Nat.le_of_eq hlength.symm) hrange hplt
    (replaced_of_matches hwf hcallable hdeclaring hlength (fun j type htype => ?_) hmatch
      (hargs arg (List.mem_of_getElem? harg)) hplt)
  exact (hmet j type (by simp [hfixed, htype])).exact

/-- Lists as sequences, and a callable whose second type parameter only a constraint mentions. -/
def fillOperations : List Operation :=
  [.declare .classType "string",
    .declareGeneric .interfaceType "Sequence" [("X", .covariant)],
    .declareGeneric .classType "List" [("Y", .invariant)],
    .instantiate 2 [5],
    .addInterface 4 6,
    .finish,
    .declareCallable "Fill" ["T", "U"],
    .instantiate 2 [8],
    .addConstraint 7 (.base 9),
    .arrayOf 7 1,
    .addParameter 0 10 .byRef,
    .addParameter 0 0 .out,
    .instantiate 4 [1],
    .arrayOf 11 1]

/-- The store that `fillOperations` build: `Fill<T, U>(ref T[], out object)` where
`T : Sequence<U>`. -/
def fillStore : Store := (Operation.runAll fillOperations (.ofRoot "object")).getD {}

/-- The callable of `fillStore`. -/
def fill : Signature :=
  { id := 0, name := "Fill", typeParams := [7, 8], params := [⟨10, .byRef⟩, ⟨0, .out⟩] }

/-- The bootstrap finds `string` for `U`. An array of lists is `T[]` with `List<string>` for `T`; a
string, passed where an object is declared, is accepted although it is no `object`. -/
theorem inferTypes?_exact_fill :
    (∃ store', (Store.substitute [7, 8] [11, 1] 10).run fillStore = .ok (13, store')) ∧
      compatible fillStore 1 0 = .ok true := by
  have hreachable : fillStore.Reachable := (Store.Reachable.ofRoot "object").runAll
    (by decide +kernel : Operation.runAll fillOperations (.ofRoot "object") = some fillStore)
  have hcallable : fillStore.HasCallable fill :=
    (by decide +kernel : fillStore.callables[0]? = some fill)
  have hclosed : ∀ arg ∈ [13, 1], fillStore.isOpen arg = .ok false := by decide +kernel
  have hinfer : fillStore.inferTypes? fill [13, 1] ⟨false, true⟩ = .ok (some [11, 1]) := by
    decide +kernel
  constructor
  · exact (inferTypes?_exact hreachable hcallable rfl hclosed hinfer
      (rfl : fill.params[0]? = some ⟨10, .byRef⟩) rfl rfl (by decide +kernel)).1
      (by decide +kernel)
  · exact (inferTypes?_exact hreachable hcallable rfl hclosed hinfer
      (rfl : fill.params[1]? = some ⟨0, .out⟩) rfl rfl (by decide +kernel)).2
      (by decide +kernel)

end NominalGenerics.Inference
