import NominalGenerics.Proofs.RelatedTemplates
import NominalGenerics.Proofs.Store.Reachable

/-!
# Completeness of collection

A call that some type arguments make well typed is not rejected while bounds are collected, so that
rejection is left to fixing. This holds as far as the collector covers the rules of assignability.
-/

namespace NominalGenerics.Inference

open Assignability Collection
open Substitution (Identical)

variable {store : Store} {signature : Signature} {args types : List Handle}

/-- Below the wrapper of optional values are its own instantiations only. -/
structure WrapperSealed (store : Store) : Prop where
  supertype : ∀ wrapper type super, store.optionalWrapper = some wrapper →
    store.Supertype type super → store.definitionOrSelf super = .ok wrapper → super = type
  sequence : ∀ wrapper, store.optionalWrapper = some wrapper →
    store.isSequenceInterface wrapper = false

/-- The collection of a call hits no limit. -/
structure WithinCollectionLimits (store : Store) (signature : Signature) (args : List Handle) :
    Prop where
  parameters : ∀ (i : Nat) param arg, signature.params[i]? = some param → args[i]? = some arg →
    WithinLimits store .empty arg param.type
  result : ∀ expected returns, args[signature.params.length]? = some expected →
    signature.returns = some returns → WithinLimits store .empty returns expected
  comparisons : ∀ c, Reached store signature args c → c.flow ≠ .invariant →
    WithinLimits store .empty c.derived c.base
  depth : ∀ c, Starts store signature args c → Shallow store Limits.collection.maxDepth c

/-- The type arguments make the call well typed: each argument is assignable to its parameter, and
the return type to the expected result. -/
structure Typed (store : Store) (signature : Signature) (args types : List Handle) : Prop where
  enough : signature.params.length ≤ args.length
  closed : ∀ type ∈ types, store.isOpen type = .ok false
  parameters : ∀ (i : Nat) param arg, signature.params[i]? = some param → args[i]? = some arg →
    Sub store (signature.binding types) arg param.type
  result : ∀ expected, args[signature.params.length]? = some expected →
    ∃ returns, signature.returns = some returns ∧
      Sub store (signature.binding types) returns expected

section Wrappers

variable {wrapped inner derived : Handle}

theorem isOptionalWrapper_cases (hlt : wrapped < store.size) {answer : Bool}
    (h : store.isOptionalWrapper wrapped = .ok answer) :
    ∃ form, store.form wrapped = some form ∧
      (answer = true ↔ ∃ wrapper, store.optionalWrapper = some wrapper ∧
        form.definition? wrapped = some wrapper ∧ wrapper ≠ wrapped) := by
  obtain ⟨form, hform⟩ := Store.form_isSome hlt
  refine ⟨form, hform, ?_⟩
  rw [Store.isOptionalWrapper, Store.definition?_of_form hform, Query.ok_bind] at h
  split at h
  · next wrapper definition hwrapper hdefinition =>
      have h := Query.pure_eq_ok.mp h
      rw [hwrapper, hdefinition, ← h]
      simp only [Bool.and_eq_true, beq_iff_eq, bne_iff_ne, ne_eq, Option.some.injEq]
      constructor
      · rintro ⟨rfl, hne⟩
        exact ⟨wrapper, rfl, rfl, hne⟩
      · rintro ⟨_, rfl, rfl, hne⟩
        exact ⟨rfl, hne⟩
  · next hnone =>
      have h := Query.pure_eq_ok.mp h
      rw [← h]
      refine ⟨fun hfalse => absurd hfalse Bool.false_ne_true, ?_⟩
      rintro ⟨wrapper, hwrapper, hdefinition, -⟩
      exact absurd hdefinition (hnone wrapper wrapper hwrapper)

/-- The definition of an optional wrapper has a parameter, so it is open. -/
theorem definition_of_wrapper (hs : store.Coherent) (hlt : wrapped < store.size)
    (h : store.isOptionalWrapper wrapped = .ok true) :
    ∃ wrapper form params param wform, store.optionalWrapper = some wrapper ∧
      store.form wrapper = some form ∧ form.shape = .definition params ∧
      params[0]? = some param ∧ form.isOpen = true ∧ store.form wrapped = some wform ∧
      wform.definition? wrapped = some wrapper ∧ wrapper ≠ wrapped := by
  obtain ⟨wform, hwform, hiff⟩ := isOptionalWrapper_cases hlt h
  obtain ⟨wrapper, hwrapper, hdefinition, hne⟩ := hiff.mp rfl
  obtain ⟨params, ⟨form, hform, hshape⟩, hlength, hcase⟩ := hs.applies_of_form hwform hdefinition
  have hcoherent := hs.definition hform hshape
  cases params with
  | cons param rest =>
      exact ⟨wrapper, form, param :: rest, param, wform, hwrapper, hform, hshape, rfl, hcoherent.1,
        hwform, hdefinition, hne⟩
  | nil =>
      obtain ⟨-, hsame⟩ | ⟨hargs, -⟩ := hcase
      · exact absurd hsame.symm hne
      · exact absurd (List.length_eq_zero_iff.mp hlength.symm).symm hargs

/-- A type that is no optional wrapper, nor the definition of one, is below a wrapper only as the
wrapped type. -/
theorem identical_of_wrapper (hs : store.WellFormed) (hsealed : WrapperSealed store)
    {sub : Substitution} (hrd : sub.resolve store derived = .ok derived)
    (hrw : sub.resolve store wrapped = .ok wrapped) (hderived : derived < store.size)
    (hwrapped : wrapped < store.size) (hwrapper : store.isOptionalWrapper wrapped = .ok true)
    (hother : store.isOptionalWrapper derived = .ok false)
    (hbare : store.optionalWrapper ≠ some derived) (hargs : store.arguments wrapped = .ok [inner])
    (h : Sub store sub derived wrapped) : Identical store sub derived inner := by
  obtain ⟨wform, hwform, hwiff⟩ := isOptionalWrapper_cases hwrapped hwrapper
  obtain ⟨dform, hdform, hdiff⟩ := isOptionalWrapper_cases hderived hother
  obtain ⟨wrapper, hw, hwdef, hwne⟩ := hwiff.mp rfl
  have happlies := hs.coherent.applies_of_form hwform hwdef
  have hdefinition : store.definitionOrSelf wrapped = .ok wrapper := happlies.queries.1
  -- No type below the wrapper has its definition, since `derived` has not.
  have hforeign : ∀ form, store.form derived = some form → form.definition? derived ≠ some wrapper := by
    intro form hform hdef
    obtain rfl := Option.some.inj (hdform.symm.trans hform)
    refine absurd (hdiff.mpr ⟨wrapper, hw, hdef, ?_⟩) (by simp)
    rintro rfl
    exact hbare hw
  obtain ⟨_, _, hrd', hrw', hrule⟩ := sub_iff.mp h
  obtain rfl := Except.ok.inj (hrd.symm.trans hrd')
  obtain rfl := Except.ok.inj (hrw.symm.trans hrw')
  cases hrule with
  | identity hidentical =>
      obtain ⟨dargs, hd, -⟩ := hidentical.symm.of_applies hs.coherent hrw hrd happlies
      obtain ⟨form, hform, hdef, -⟩ := hd.exists_form
      exact absurd hdef (hforeign form hform)
  | root =>
      have hroot := (Store.isNamed_root hs.coherent).queries.2.1
      exact absurd (Except.ok.inj (hdefinition.symm.trans hroot)) hwne
  | wrapper hwraps =>
      obtain ⟨inner', -, hargs', hidentical⟩ := hwraps
      cases hargs.symm.trans hargs'
      exact hidentical
  | arrays _ hb _ =>
      cases (Store.array?_of_isArray hb).symm.trans happlies.queries.2.2.1
  | sequence _ hsequence =>
      obtain ⟨_, hinstance, -⟩ := hsequence
      obtain ⟨definition, hdef, -, hinterface⟩ := definition?_of_isSequenceInstance hwform hinstance
      obtain rfl := Option.some.inj (hwdef.symm.trans hdef)
      cases hinterface.symm.trans (hsealed.sequence wrapper hw)
  | supertype _ hinherits =>
      obtain ⟨super, definition, hsuper, hd, hb, -⟩ := hinherits
      obtain rfl := Except.ok.inj (hdefinition.symm.trans hb)
      obtain rfl := hsealed.supertype wrapper derived super hw hsuper hd
      rw [Store.definitionOrSelf_of_form hdform, Except.ok.injEq] at hd
      cases hdef : dform.definition? super with
      | none => exact absurd (by simpa [hdef, hw] using hd.symm) hbare
      | some definition => exact absurd (by simpa [hdef] using hd) (hforeign dform hdform)

/-- An open type outside the callable is not identical to a closed one. -/
theorem not_identical_closed (hs : store.WellFormed) (hcallable : store.HasCallable signature)
    (hscoped : store.Scoped signature) {a b : Handle} {aform bform : Entry}
    (ha : store.Avoids signature.typeParams a) (haform : store.form a = some aform)
    (haopen : aform.isOpen = true) (hbform : store.form b = some bform)
    (hbclosed : bform.isOpen = false) : ¬ Identical store (signature.binding types) a b := by
  intro hidentical
  obtain rfl := eq_of_identical_outside hs hcallable hscoped hidentical
    ⟨Store.form_lt haform, ha⟩
    ⟨Store.form_lt hbform, Store.avoids_of_closed hs.coherent hcallable hbform hbclosed⟩
  obtain rfl := Option.some.inj (haform.symm.trans hbform)
  cases haopen.symm.trans hbclosed

/-- A type parameter of a definition is compatible with no closed type. -/
theorem not_argumentCompatible_param (hs : store.WellFormed)
    (hcallable : store.HasCallable signature) (hscoped : store.Scoped signature)
    {R : Handle → Handle → Prop} {definition param arg : Handle} {i : Nat} {form : Entry}
    (hparam : store.ParamAt param (.type definition) i) (hform : store.form arg = some form)
    (hclosed : form.isOpen = false) (variance : Variance) :
    ¬ ArgumentCompatible store (signature.binding types) R param arg variance := by
  have havoids := Store.avoids_of_owner hs.coherent hcallable hparam (by simp)
  have href := hparam.isReferenceType_ne
  obtain ⟨pform, hpform, hopen⟩ := Store.form_of_isOpen (hparam.isOpen hs.coherent)
  have hresolve := havoids.resolve hs.coherent hcallable (Store.form_lt hpform) types
  have hdiffers : ¬ Identical store (signature.binding types) param arg :=
    not_identical_closed hs hcallable hscoped havoids hpform hopen hform hclosed
  cases variance with
  | invariant => exact hdiffers
  | covariant =>
      rintro (h | ⟨_, _, hr, -, h, -⟩)
      · exact hdiffers h
      · obtain rfl := Except.ok.inj (hresolve.symm.trans hr)
        exact href h
  | contravariant =>
      rintro (h | ⟨_, _, -, hr, -, h, -⟩)
      · exact hdiffers h.symm
      · obtain rfl := Except.ok.inj (hresolve.symm.trans hr)
        exact href h

/-- The definition of the wrapper is not below a closed instantiation of it. -/
theorem not_sub_of_definition (hs : store.WellFormed) (hsealed : WrapperSealed store)
    (hcallable : store.HasCallable signature) (hscoped : store.Scoped signature)
    (hdefinition : store.optionalWrapper = some derived) (hwrapped : wrapped < store.size)
    (hwrapper : store.isOptionalWrapper wrapped = .ok true)
    (hclosed : store.isOpen wrapped = .ok false) :
    ¬ Sub store (signature.binding types) derived wrapped := by
  obtain ⟨_, dform, params, param, wform, hw, hdform, hdshape, hparam, hopen, hwform, hwdef, hwne⟩ :=
    definition_of_wrapper hs.coherent hwrapped hwrapper
  obtain rfl := Option.some.inj (hdefinition.symm.trans hw)
  rw [Store.isOpen_of_form hwform, Except.ok.injEq] at hclosed
  have happlies := hs.coherent.applies_of_form hwform hwdef
  have havoids := Store.avoids_of_defines hs.coherent hcallable ⟨dform, hdform, hdshape⟩
  have hdargs : store.arguments derived = .ok params := by
    rw [Store.arguments_of_form hdform, Entry.arguments, hdshape]
  have hdarray : dform.array? = none := by rw [Entry.array?, hdshape]
  intro hsub
  obtain ⟨_, _, hrd, hrw, hrule⟩ := sub_iff.mp hsub
  obtain rfl := Except.ok.inj
    ((havoids.resolve hs.coherent hcallable (Store.form_lt hdform) types).symm.trans hrd)
  obtain rfl := Except.ok.inj
    ((Substitution.resolve_closed hs.coherent hwform hclosed).symm.trans hrw)
  cases hrule with
  | identity hidentical =>
      exact not_identical_closed hs hcallable hscoped havoids hdform hopen hwform hclosed hidentical
  | root =>
      have hroot := (Store.isNamed_root hs.coherent).queries.2.1
      exact hwne (Except.ok.inj (happlies.queries.1.symm.trans hroot))
  | wrapper hwraps =>
      obtain ⟨inner, -, hargs, hidentical⟩ := hwraps
      rw [Store.arguments_of_form hwform, Except.ok.injEq] at hargs
      have hmem : inner ∈ wform.arguments := by simp [hargs]
      obtain ⟨iform, hiform, hiclosed⟩ := hs.coherent.argument hwform hmem
      exact not_identical_closed hs hcallable hscoped havoids hdform hopen hiform
        (hiclosed hclosed).1 hidentical
  | arrays hd _ _ =>
      cases (Store.array?_of_isArray hd).symm.trans ((Store.array?_of_form hdform).trans
        (congrArg _ hdarray))
  | sequence hd _ =>
      cases (Store.array?_of_isArray hd).symm.trans ((Store.array?_of_form hdform).trans
        (congrArg _ hdarray))
  | supertype _ hinherits =>
      obtain ⟨super, definition, hsuper, hd, hb, sargs, targs, hsargs, htargs, hlength, hall⟩ :=
        hinherits
      obtain rfl := Except.ok.inj (happlies.queries.1.symm.trans hb)
      obtain rfl := hsealed.supertype _ _ super hw hsuper hd
      obtain rfl := Except.ok.inj (hdargs.symm.trans hsargs)
      rw [Store.arguments_of_form hwform, Except.ok.injEq] at htargs
      subst htargs
      obtain ⟨arg, harg⟩ := getElem?_of_length_eq hlength.symm hparam
      obtain ⟨aform, haform, haclosed⟩ := hs.coherent.argument hwform (List.mem_of_getElem? harg)
      obtain ⟨variance, -, hcompatible⟩ := hall 0 param arg hparam harg
      exact not_argumentCompatible_param hs hcallable hscoped
        (hs.coherent.paramAt hdform hdshape hparam) haform (haclosed hclosed).1 variance hcompatible

end Wrappers

section Calls

/-- A parameter of a well-typed call is related to its argument where the collector starts. -/
theorem related_parameter (hs : store.WellFormed) (hsealed : WrapperSealed store)
    {template arg : Handle} {c : Comparison} (htemplate : template < store.size)
    (harg : arg < store.size) (hclosed : store.isOpen arg = .ok false)
    (hsub : Sub store (signature.binding types) arg template)
    (hc : parameterComparison store template arg .byValue = .ok c) :
    c.source = arg ∧ c.target < store.size ∧ Related store (signature.binding types) c := by
  obtain ⟨aform, haform⟩ := Store.form_isSome harg
  rw [Store.isOpen_of_form haform, Except.ok.injEq] at hclosed
  obtain ⟨result, hresult, hinner⟩ := unwrap?_total hs htemplate harg
  rw [parameterComparison, hresult, Query.ok_bind] at hc
  cases result with
  | none =>
      cases hc
      exact ⟨rfl, htemplate, hsub⟩
  | some inner =>
      cases hc
      obtain ⟨hlt, hwrapper, hother, hargs⟩ := hinner inner rfl
      obtain ⟨wrapper, form, _, _, wform, hw, hform, -, -, hformOpen, hwform, hdefinition, -⟩ :=
        definition_of_wrapper hs.coherent htemplate hwrapper
      refine ⟨rfl, hlt, identical_of_wrapper hs hsealed
        (Substitution.resolve_closed hs.coherent haform hclosed) ?_ harg htemplate hwrapper hother ?_
        hargs hsub⟩
      · refine Substitution.resolve_of_not_parameter hwform ?_
        cases hshape : wform.shape <;> simp [Entry.definition?, Entry.isParameter, hshape] at *
      · rintro hbare
        obtain rfl := Option.some.inj (hw.symm.trans hbare)
        obtain rfl := Option.some.inj (hform.symm.trans haform)
        cases hformOpen.symm.trans hclosed

/-- The return type of a well-typed call is related to the expected result where the collector
starts, unless it is a type parameter of the callable. -/
theorem related_result (hs : store.WellFormed) (hsealed : WrapperSealed store)
    (hcallable : store.HasCallable signature) (hscoped : store.Scoped signature)
    {expected returns : Handle} {c : Comparison} (hclosed : store.isOpen expected = .ok false)
    (hreturns : returns < store.size) (hc : returnComparison store expected returns = .ok c) :
    c.target = returns ∧ store.Outside signature c.source ∧
      ((signature.binding types).resolve store returns = .ok returns →
        Sub store (signature.binding types) returns expected →
        Related store (signature.binding types) c) := by
  have hout := Store.outside_of_closed hs.coherent hcallable hclosed
  obtain ⟨eform, heform, heclosed⟩ := Store.form_of_isOpen hclosed
  obtain ⟨result, hresult, hinner⟩ := unwrap?_total hs hout.1 hreturns
  rw [returnComparison, hresult, Query.ok_bind] at hc
  cases result with
  | none =>
      cases hc
      exact ⟨rfl, hout, fun _ hsub => hsub⟩
  | some inner =>
      cases hc
      obtain ⟨-, hwrapper, hother, hargs⟩ := hinner inner rfl
      refine ⟨rfl, outside_argument hs hcallable hout hargs List.mem_cons_self,
        fun hresolve hsub => ?_⟩
      have hbare : store.optionalWrapper ≠ some returns := fun h =>
        not_sub_of_definition hs hsealed hcallable hscoped h hout.1 hwrapper hclosed hsub
      exact (identical_of_wrapper hs hsealed hresolve
        (Substitution.resolve_closed hs.coherent heform heclosed) hreturns hout.1 hwrapper hother
        hbare hargs hsub).symm

/-- A type is a type parameter of the callable, or the binding of a call leaves it alone. -/
theorem own_or_resolve (hs : store.WellFormed) (hcallable : store.HasCallable signature)
    {type : Handle} (hlt : type < store.size) :
    (∃ info, store.param? type = .ok (some info) ∧ info.owner = .callable signature.id) ∨
      (signature.binding types).resolve store type = .ok type := by
  obtain ⟨entry, hentry⟩ := Store.entry_of_lt hlt
  have hparam : store.param? type = .ok entry.param? := Store.query_of_entry hentry (·.param?)
  cases hinfo : entry.param? with
  | none =>
      refine Or.inr ?_
      rw [Substitution.resolve, hparam, hinfo]
      rfl
  | some info =>
      rw [hinfo] at hparam
      by_cases howner : info.owner = .callable signature.id
      · exact Or.inl ⟨info, hparam, howner⟩
      · exact Or.inr ((Store.avoids_of_owner hs.coherent hcallable
          (Store.paramAt_of_param? hparam) howner).resolve hs.coherent hcallable hlt types)

/-- Closed types that are assignable are compatible as argument and parameter. -/
theorem compatible_of_sub (hs : store.WellFormed) (hcallable : store.HasCallable signature)
    (hscoped : store.Scoped signature) {source target : Handle}
    (hsource : store.Outside signature source) (htarget : store.Outside signature target)
    (hlimits : WithinLimits store .empty source target)
    (h : Sub store (signature.binding types) source target) :
    compatible store source target = .ok true := by
  have hsub := (agree_avoiding hs hcallable hscoped types).assignable hs.coherent hsource htarget h
  rw [compatible, isAssignable_of_sub hs hsource.1 htarget.1 hlimits hsub]
  rfl

/-- Collection never rejects a call that some closed type arguments make well typed, as far as the
collector covers the rules of assignability and no limit is hit. -/
theorem collectBounds_of_typed (hreachable : store.Reachable)
    (hcallable : store.HasCallable signature) (hdeclaring : signature.declaringType = none)
    (hmodes : ∀ param ∈ signature.params, param.mode = .byValue)
    (hargs : ∀ arg ∈ args, store.isOpen arg = .ok false) (hscoped : store.Scoped signature)
    (hsealed : WrapperSealed store) (hlimits : WithinCollectionLimits store signature args)
    (hregular : ∀ c, Reached store signature args c → Compound store c.target →
      c.flow ≠ .invariant → Regular store (signature.binding types) c.derived c.base)
    (htyped : Typed store signature args types) :
    ∃ inferred, runFresh signature (collectBounds store signature args) =
      .ok (.ok (), inferred) := by
  have hs := hreachable.lawful.wellFormed
  have hsignature : store.SignatureInRange signature := hs.inRange.signatures hcallable
  have houtside : ∀ {type}, store.isOpen type = .ok false → store.Outside signature type :=
    Store.outside_of_closed hs.coherent hcallable
  have hsub : (signature.binding types).BindsClosed store := by
    intro type htype
    exact Store.form_of_isOpen (htyped.closed type (by simpa [Signature.binding] using htype))
  have hcovered : Covered store (signature.binding types) (Reached store signature args) :=
    ⟨fun c d hc hd => .nested hc hd, hregular, hlimits.comparisons⟩
  have hmatches : ∀ {c}, Starts store signature args c → store.Outside signature c.source →
      c.target < store.size → Related store (signature.binding types) c →
      Matches store signature (fun position _ _ => position < signature.typeParams.length)
        Limits.collection.maxDepth c := fun hc hsource htarget hrelated =>
    matches_of_related hs hcallable hdeclaring hscoped hsub hcovered (.start hc) hsource htarget
      hrelated (hlimits.depth _ hc)
  have haccepted : Accepted store signature args
      fun position _ _ => position < signature.typeParams.length := by
    refine ⟨htyped.enough, fun i param arg hparam harg hopen => ?_,
      fun i param arg hparam harg hopen => ?_, fun expected hexpected => ?_⟩
    · exact compatible_of_sub hs hcallable hscoped
        (houtside (hargs arg (List.mem_of_getElem? harg))) (houtside hopen)
        (hlimits.parameters i param arg hparam harg) (htyped.parameters i param arg hparam harg)
    · have hmem := List.mem_of_getElem? hparam
      have harg' := hargs arg (List.mem_of_getElem? harg)
      have htemplate := hsignature.params param hmem
      obtain ⟨c, hc, -⟩ := parameterComparison_total hs htemplate (houtside harg').1 param.mode
      have hstart : Starts store signature args c := .parameter hparam harg hc
      refine ⟨c, hc, ?_⟩
      rw [hmodes param hmem] at hc
      obtain ⟨hsource, htarget, hrelated⟩ := related_parameter hs hsealed htemplate
        (houtside harg').1 harg' (htyped.parameters i param arg hparam harg) hc
      exact hmatches hstart (hsource ▸ houtside harg') htarget hrelated
    · have hexpected' := hargs expected (List.mem_of_getElem? hexpected)
      obtain ⟨returns, hreturns, hassignable⟩ := htyped.result expected hexpected
      have hlt := hsignature.returns returns hreturns
      obtain ⟨c, hc, -⟩ := returnComparison_total hs (houtside hexpected').1 hlt
      have hstart : Starts store signature args c := .result hexpected hreturns hc
      obtain ⟨rfl, hsource, hrelated⟩ :=
        related_result hs hsealed hcallable hscoped hexpected' hlt hc
      refine ⟨c.target, hreturns, fun hopen => ?_, c, hc, ?_⟩
      · exact compatible_of_sub hs hcallable hscoped (houtside hopen) (houtside hexpected')
          (hlimits.result expected c.target hexpected hreturns) hassignable
      · obtain ⟨info, hparam, howner⟩ | hresolve := own_or_resolve hs hcallable hlt
        · exact .own hparam howner (List.getElem?_eq_some_iff.mp
            (hcallable.position_of_owner hs.coherent hparam howner)).choose
        · exact hmatches hstart hsource hlt (hrelated hresolve hassignable)
  obtain ⟨-, hcomplete⟩ := collectBounds_achieves hs hsignature hdeclaring
    (fun arg harg => (houtside (hargs arg harg)).1) signature.typeParams.length
    (.ofTypeParams signature.typeParams) (by simp [InferredBounds.ofTypeParams])
  exact hcomplete haccepted

/-- Whether matching a comparison goes down less than a number of levels. -/
def isShallow (store : Store) : Nat → Comparison → Bool
  | 0, _ => false
  | levels + 1, c =>
      match nestedComparisons store c with
      | .ok ds => ds.all (isShallow store levels)
      | .error _ => false

theorem shallow_of_isShallow {levels : Nat} {c : Comparison} (h : isShallow store levels c = true) :
    Shallow store levels c := by
  induction levels generalizing c with
  | zero => cases h
  | succ levels ih =>
      intro d hnested _
      rw [isShallow] at h
      split at h
      · next ds hds => exact ih (List.all_eq_true.mp h d (mem_nestedComparisons hds hnested))
      · cases h

/-- Whether a check of the two types hits no limit. -/
def isWithinLimits (store : Store) (source target : Handle) : Bool :=
  (outcome? store .empty source target).map (·.2) == some false

theorem withinLimits_of_isWithinLimits {source target : Handle}
    (h : isWithinLimits store source target = true) : WithinLimits store .empty source target :=
  withinLimits_of_outcome? (eq_of_beq h)

/-- The limits of a call, checked for comparisons that cover it. -/
theorem withinCollectionLimits_of_covers {cs : List Comparison}
    (hcovers : covers store signature args cs = true)
    (hparameters : ∀ p ∈ signature.params.zip args, isWithinLimits store p.2 p.1.type = true)
    (hresult : ∀ expected ∈ args[signature.params.length]?, ∀ returns ∈ signature.returns,
      isWithinLimits store returns expected = true)
    (hcomparisons : ∀ c ∈ cs, isWithinLimits store c.derived c.base = true ∧
      isShallow store Limits.collection.maxDepth c = true) :
    WithinCollectionLimits store signature args where
  parameters _ param arg hparam harg := withinLimits_of_isWithinLimits (hparameters (param, arg)
    (List.mem_of_getElem? (List.getElem?_zip_eq_some.mpr ⟨hparam, harg⟩)))
  result expected returns hexpected hreturns :=
    withinLimits_of_isWithinLimits (hresult expected hexpected returns hreturns)
  comparisons c hc _ :=
    withinLimits_of_isWithinLimits (hcomparisons c (mem_of_reached hcovers hc)).1
  depth c hc := shallow_of_isShallow (hcomparisons c (mem_of_reached hcovers (.start hc))).2

/-- Boxes as sequences, and a callable that takes a sequence and returns an element. -/
def headOperations : List Operation :=
  [.declareGeneric .interfaceType "ISequence" [("T", .covariant)],
    .declareGeneric .classType "Box" [("T", .invariant)],
    .instantiate 1 [4],
    .addInterface 3 5,
    .declare .classType "string",
    .finish,
    .declareCallable "Head" ["T"],
    .instantiate 1 [7],
    .addParameter 0 8 .byValue,
    .setReturnType 0 7,
    .instantiate 3 [6]]

/-- The store that `headOperations` build. -/
def headStore : Store := (Operation.runAll headOperations (.ofRoot "object")).getD {}

/-- The callable of `headStore`. -/
def head : Signature :=
  { id := 0, name := "Head", typeParams := [7], params := [⟨8, .byValue⟩], returns := some 7 }

/-- The operations run, and the store answers that the only sequence above a box of strings is the
one that the search finds. -/
theorem headStore_answers :
    Operation.runAll headOperations (.ofRoot "object") = some headStore ∧
      headStore.callables[0]? = some head ∧ headStore.param? 7 ≠ .ok none ∧
      headStore.isOptionalWrapper 8 = .ok false ∧ headStore.array? 9 = .ok none ∧
      headStore.definitionOrSelf 8 = .ok 1 ∧ headStore.findImplementation 9 1 = .ok (.found 10) ∧
      headStore.supertypes 9 = .ok [9, 0, 10] ∧
      (∀ super ∈ ([9, 0, 10] : List Handle),
        headStore.definitionOrSelf super = .ok 1 → super = 10) ∧
      covers headStore head [9, 0]
        [⟨9, 8, .covariant⟩, ⟨6, 7, .covariant⟩, ⟨0, 7, .contravariant⟩] = true := by
  decide +kernel

theorem headStore_reachable : headStore.Reachable :=
  (Store.Reachable.ofRoot "object").runAll headStore_answers.1

theorem headStore_callable : headStore.HasCallable head := headStore_answers.2.1

theorem head_position {i : Nat} {param : Parameter} {arg : Handle}
    (hparam : head.params[i]? = some param) (harg : ([9, 0] : List Handle)[i]? = some arg) :
    param = ⟨8, .byValue⟩ ∧ arg = 9 := by
  cases i with
  | zero =>
      cases hparam
      cases harg
      exact ⟨rfl, rfl⟩
  | succ i => cases hparam

/-- For a box of strings and an expected object, collection comes to three comparisons. -/
theorem head_covers : covers headStore head [9, 0]
    [⟨9, 8, .covariant⟩, ⟨6, 7, .covariant⟩, ⟨0, 7, .contravariant⟩] = true := by
  obtain ⟨-, -, -, -, -, -, -, -, -, hcovers⟩ := headStore_answers
  exact hcovers

theorem head_regular : Regular headStore (head.binding [6]) 9 8 := by
  obtain ⟨-, -, -, hwrapper, harray, hdefinition, hfound, hsupers, hothers, -⟩ := headStore_answers
  refine ⟨?_, ?_, ?_⟩
  · rintro ⟨inner, h, -⟩
    cases hwrapper.symm.trans h
  · intro shape h
    cases harray.symm.trans h
  · rintro definition found hd hf super ⟨supers, hsupers', hmem⟩ hsuper
    obtain rfl := Except.ok.inj (hdefinition.symm.trans hd)
    obtain rfl := Implementation.found.inj (Except.ok.inj (hfound.symm.trans hf))
    obtain rfl := Except.ok.inj (hsupers.symm.trans hsupers')
    exact hothers super hmem hsuper

/-- Boxes of strings are sequences of strings, so the call is not rejected. -/
theorem collectBounds_of_typed_head :
    ∃ inferred, runFresh head (collectBounds headStore head [9, 0]) = .ok (.ok (), inferred) := by
  have hs := headStore_reachable.lawful.wellFormed
  have hlt : (0 : Handle) < headStore.size ∧ (7 : Handle) < headStore.size ∧
      (8 : Handle) < headStore.size ∧ (9 : Handle) < headStore.size := by decide +kernel
  have hclosed : ∀ type ∈ ([6] : List Handle), headStore.isOpen type = .ok false := by
    decide +kernel
  have hsub : (head.binding [6]).BindsClosed headStore := fun type htype =>
    Store.form_of_isOpen (hclosed type htype)
  have hnone : headStore.optionalWrapper = none := by decide +kernel
  obtain ⟨-, -, hparam, -⟩ := headStore_answers
  have htyped : Typed headStore head [9, 0] [6] := by
    refine ⟨by decide, hclosed, fun i param arg hp ha => ?_, fun expected he => ⟨7, rfl, ?_⟩⟩
    · obtain ⟨rfl, rfl⟩ := head_position hp ha
      exact sub_of_outcome? hs hsub hlt.2.2.2 hlt.2.2.1 (by decide +kernel)
    · cases he
      exact sub_of_outcome? hs hsub hlt.2.1 hlt.1 (by decide +kernel)
  refine collectBounds_of_typed headStore_reachable headStore_callable rfl (by decide)
    (by decide +kernel) ?_ ?_ ?_ ?_ htyped
  · exact Store.scoped_of_isScoped hs.coherent (by decide +kernel)
  · exact ⟨by simp [hnone], by simp [hnone]⟩
  · exact withinCollectionLimits_of_covers head_covers (by decide +kernel) (by decide +kernel)
      (by decide +kernel)
  · intro c hc hcompound _
    obtain rfl | rfl | rfl := by simpa using mem_of_reached head_covers hc
    · exact head_regular
    · exact absurd hcompound.1 hparam
    · exact absurd hcompound.1 hparam

/-- Strings, and a callable that makes arrays. -/
def makeArrayOperations : List Operation :=
  [.declare .classType "string",
    .finish,
    .declareCallable "MakeArray" ["T"],
    .arrayOf 2 1,
    .addParameter 0 2 .byValue,
    .setReturnType 0 3]

/-- The store that `makeArrayOperations` build. -/
def makeArrayStore : Store := (Operation.runAll makeArrayOperations (.ofRoot "object")).getD {}

/-- The callable of `makeArrayStore`. -/
def makeArray : Signature :=
  { id := 0, name := "MakeArray", typeParams := [2], params := [⟨2, .byValue⟩], returns := some 3 }

/-- The operations run, and the store answers about the types of the call. -/
theorem makeArrayStore_answers :
    Operation.runAll makeArrayOperations (.ofRoot "object") = some makeArrayStore ∧
      makeArrayStore.size = 4 ∧
      (∀ type ∈ ([1, 0] : List Handle), makeArrayStore.isOpen type = .ok false) ∧
      outcome? makeArrayStore (makeArray.binding [1]) 1 2 = some (true, false) ∧
      outcome? makeArrayStore (makeArray.binding [1]) 3 0 = some (true, false) ∧
      covers makeArrayStore makeArray [1, 0]
        [⟨1, 2, .covariant⟩, ⟨0, 3, .contravariant⟩] = true := by
  decide +kernel

theorem makeArrayStore_reachable : makeArrayStore.Reachable :=
  (Store.Reachable.ofRoot "object").runAll makeArrayStore_answers.1

theorem makeArray_position {i : Nat} {param : Parameter} {arg : Handle}
    (hparam : makeArray.params[i]? = some param) (harg : ([1, 0] : List Handle)[i]? = some arg) :
    param = ⟨2, .byValue⟩ ∧ arg = 1 := by
  cases i with
  | zero =>
      cases hparam
      cases harg
      exact ⟨rfl, rfl⟩
  | succ i => cases hparam

theorem makeArray_withinLimits : WithinCollectionLimits makeArrayStore makeArray [1, 0] := by
  obtain ⟨-, -, -, -, -, hcovers⟩ := makeArrayStore_answers
  exact withinCollectionLimits_of_covers hcovers (by decide +kernel) (by decide +kernel)
    (by decide +kernel)

theorem makeArray_typed : Typed makeArrayStore makeArray [1, 0] [1] := by
  have hs := makeArrayStore_reachable.lawful.wellFormed
  obtain ⟨-, hsize, hopen, hargument, hresult, -⟩ := makeArrayStore_answers
  have hclosed : ∀ type ∈ ([1] : List Handle), makeArrayStore.isOpen type = .ok false :=
    fun type htype => hopen type (List.mem_append_left [0] htype)
  have hsub : (makeArray.binding [1]).BindsClosed makeArrayStore := fun type htype =>
    Store.form_of_isOpen (hclosed type htype)
  refine ⟨by decide, hclosed, fun i param arg hp ha => ?_, fun expected he => ⟨3, rfl, ?_⟩⟩
  · obtain ⟨rfl, rfl⟩ := makeArray_position hp ha
    exact sub_of_outcome? hs hsub (by simp [hsize]) (by simp [hsize]) hargument
  · cases he
    exact sub_of_outcome? hs hsub (by simp [hsize]) (by simp [hsize]) hresult

/-- An array of strings is an object, but collection rejects the call that expects one. -/
theorem collectBounds_rejects_array :
    makeArrayStore.Reachable ∧ makeArrayStore.finished = true ∧
      makeArrayStore.HasCallable makeArray ∧ makeArray.declaringType = none ∧
      (∀ param ∈ makeArray.params, param.mode = .byValue) ∧
      (∀ arg ∈ ([1, 0] : List Handle), makeArrayStore.isOpen arg = .ok false) ∧
      WithinCollectionLimits makeArrayStore makeArray [1, 0] ∧
      Typed makeArrayStore makeArray [1, 0] [1] ∧
      runFresh makeArray (collectBounds makeArrayStore makeArray [1, 0]) =
        .ok (.error .unmatchedReturn,
          { typeParams := [2], bounds := [{ lower := [1] }], fixed := [none] }) :=
  ⟨makeArrayStore_reachable, by decide +kernel,
    (by decide +kernel : makeArrayStore.callables[0]? = some makeArray), rfl, by decide,
    makeArrayStore_answers.2.2.1, makeArray_withinLimits, makeArray_typed, by decide +kernel⟩

end Calls

end NominalGenerics.Inference
