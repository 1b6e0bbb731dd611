import NominalGenerics.Proofs.CollectionCompleteness
import NominalGenerics.Proofs.Fixing
import NominalGenerics.Proofs.Specialization

/-!
# Soundness of inference

The types that inference finds make the call well typed: after putting them in for the type
parameters, each argument is assignable to its parameter and the return type to the expected result.

The collector decides by the argument alone whether a part is compared by variance, while
assignability converts a part only if both sides are reference types. `Faithful` says that the
difference does not matter for a call.
-/

namespace NominalGenerics.Inference

open Assignability Collection
open Substitution (Identical)

variable {store store' : Store} {signature : Signature} {args types : List Handle}

/-- A store in which a call was inferred, and a later one in which the inferred types are put in for
the type parameters of the callable. -/
structure Specialized (store store' : Store) (signature : Signature) (types : List Handle) :
    Prop where
  wellFormed : store.WellFormed
  closed : ∀ {type : Handle} {entry}, store.types[type]? = some entry → entry.closed = true
  later : store.Later store'
  callable : store.HasCallable signature
  declaring : signature.declaringType = none
  inRange : ∀ type ∈ types, type < store.size
  specializes : store'.Specializes signature.typeParams types

/-- No search that the collection of a call makes is ambiguous. -/
def Unambiguous (store : Store) (signature : Signature) (args : List Handle) : Prop :=
  ∀ c, Reached store signature args c → Compound store c.target →
    ¬ HasArray store c.source c.target → ¬ Ambiguous store c

/-- The comparisons of a call are as strict as assignability of the specialized types. -/
structure Faithful (store store' : Store) (signature : Signature) (args types : List Handle) :
    Prop where
  /-- No type parameter is compared with a template. -/
  proper : ∀ c, Reached store signature args c → store.param? c.source = .ok none
  /-- A part that is compared by variance is specialized to the same type or to a reference type. -/
  reference : ∀ c d, Reached store signature args c → Nested store c d → d.flow ≠ .invariant →
    ∀ target, store'.Replaced true signature.typeParams types d.target target →
      d.source = target ∨ store'.isReferenceType target = .ok true

/-- The source of a comparison is related to a specialized template as the flow asks. -/
def Fits (store' : Store) (c : Comparison) (target : Handle) : Prop :=
  match c.flow with
  | .invariant => c.source = target
  | .covariant => Sub store' .empty c.source target
  | .contravariant => Sub store' .empty target c.source

namespace Specialized

variable {source target result : Handle}

theorem wellFormed' (h : Specialized store store' signature types) : store'.WellFormed :=
  h.specializes.lawful.wellFormed

theorem lt (h : Specialized store store' signature types) {type : Handle}
    (hlt : type < store.size) : type < store'.size :=
  Nat.lt_of_lt_of_le hlt h.later.size_le

theorem supertype (h : Specialized store store' signature types) {type super : Handle}
    (hlt : type < store.size) (hsuper : store.Supertype type super) :
    store'.Supertype type super :=
  (supertype_iff_of_later h.wellFormed h.wellFormed' h.later h.closed hlt).mpr hsuper

theorem declaredVariance (h : Specialized store store' signature types) {definition : Handle}
    (hlt : definition < store.size) (position : Nat) :
    store'.declaredVariance definition position = store.declaredVariance definition position :=
  declaredVariance_of_later h.wellFormed h.later h.closed hlt position

/-- The later store agrees with the earlier one on the types of the latter. -/
theorem agree (h : Specialized store store' signature types) :
    Agree store store' .empty .empty (· < store.size) :=
  agree_of_later h.wellFormed h.wellFormed' h.later h.closed

theorem sub_of_isAssignable (h : Specialized store store' signature types)
    (hsource : source < store.size) (htarget : target < store.size)
    (hassignable : store.isAssignable source target = .ok true) :
    Sub store' .empty source target := by
  obtain ⟨answer, hanswer, hsound, -⟩ := isAssignable_decides h.wellFormed hsource htarget
  obtain rfl := Except.ok.inj (hanswer.symm.trans hassignable)
  exact h.agree.assignable h.wellFormed.coherent hsource htarget (hsound rfl)

/-- Concrete types that are related fit. -/
theorem fits_of_relateConcrete (h : Specialized store store' signature types) {c : Comparison}
    (hsource : c.source < store.size) (htarget : target < store.size)
    (hrelated : relateConcrete store c.source target c.flow = .ok true) : Fits store' c target := by
  obtain ⟨source, _, flow⟩ := c
  cases flow with
  | invariant => exact eq_of_beq (Query.pure_eq_ok.mp hrelated)
  | covariant => exact h.sub_of_isAssignable hsource htarget hrelated
  | contravariant => exact h.sub_of_isAssignable htarget hsource hrelated

/-- A template that mentions no type parameter of the callable is specialized to itself. -/
theorem eq_of_avoids (h : Specialized store store' signature types) (htarget : target < store.size)
    (havoids : store.Avoids signature.typeParams target)
    (hr : store'.Replaced true signature.typeParams types target result) : result = target :=
  hr.functional h.wellFormed'.coherent
    ((Store.replaced_of_avoids h.wellFormed.coherent htarget havoids).mono h.later.extends)

/-- A witness fits the type to which its parameter is fixed. -/
theorem fits_of_recorded (h : Specialized store store' signature types) {c : Comparison}
    {bounds : List BoundSet} {position : Nat} (hsource : c.source < store.size)
    (hresult : result < store.size) (hrecorded : Recorded bounds position c.source c.flow)
    (hmeets : (bounds[position]?.getD {}).Meets store.isAssignable result) :
    Fits store' c result := by
  obtain ⟨source, _, flow⟩ := c
  obtain ⟨set, hset, hmem⟩ := hrecorded
  rw [hset, Option.getD_some] at hmeets
  cases flow with
  | invariant => exact hmeets.exact source hmem
  | covariant => exact h.sub_of_isAssignable hsource hresult (hmeets.lower source hmem)
  | contravariant => exact h.sub_of_isAssignable hresult hsource (hmeets.upper source hmem)

end Specialized

section Parts

/-- A part of a comparison fits its specialized template, and if it is compared by variance both are
reference types, unless they are the same. -/
structure PartFits (store' : Store) (d : Comparison) (part : Handle) : Prop where
  fits : Fits store' d part
  source : d.source < store'.size
  target : part < store'.size
  reference : d.flow ≠ .invariant → d.source = part ∨
    store'.isReferenceType d.source = .ok true ∧ store'.isReferenceType part = .ok true

namespace PartFits

variable {d : Comparison} {part : Handle}

theorem identical (h : PartFits store' d part) (heq : d.source = part) :
    Identical store' .empty d.source part ∧ Identical store' .empty part d.source := by
  rw [← heq]
  exact ⟨.refl h.source, .refl h.source⟩

/-- Parts that fit are compatible in the direction of their flow, and in both if they are the
same. -/
theorem compatible (h : PartFits store' d part) :
    (d.flow ≠ .contravariant → Compatible store' .empty (Sub store' .empty) d.source part) ∧
      (d.flow ≠ .covariant → Compatible store' .empty (Sub store' .empty) part d.source) := by
  by_cases heq : d.source = part
  · obtain ⟨hleft, hright⟩ := h.identical heq
    exact ⟨fun _ => Or.inl hleft, fun _ => Or.inl hright⟩
  · obtain ⟨hfits, hsource, htarget, hreference⟩ := h
    have hrs := Substitution.resolve_empty hsource
    have hrt := Substitution.resolve_empty htarget
    obtain ⟨source, target, flow⟩ := d
    cases flow with
    | invariant => exact absurd hfits heq
    | covariant =>
        obtain ⟨hs, ht⟩ := (hreference (by simp)).resolve_left heq
        exact ⟨fun _ => Or.inr ⟨source, part, hrs, hrt, hs, ht, hfits⟩, fun hne => absurd rfl hne⟩
    | contravariant =>
        obtain ⟨hs, ht⟩ := (hreference (by simp)).resolve_left heq
        exact ⟨fun hne => absurd rfl hne, fun _ => Or.inr ⟨part, source, hrt, hrs, ht, hs, hfits⟩⟩

/-- Arguments that fit in the flow that the collector gives them are compatible for the declared
variance. -/
theorem argumentCompatible (h : PartFits store' d part) {flow : Flow} {variance : Variance}
    {valueType : Bool} (hflow : d.flow = flow.combine variance valueType) :
    (flow = .covariant →
      ArgumentCompatible store' .empty (Sub store' .empty) d.source part variance) ∧
    (flow = .contravariant →
      ArgumentCompatible store' .empty (Sub store' .empty) part d.source variance) := by
  have hinvariant : d.flow = .invariant → d.source = part := by
    intro hflow
    have hfits := h.fits
    rw [Fits, hflow] at hfits
    exact hfits
  cases valueType with
  | true =>
      obtain ⟨hleft, hright⟩ := h.identical (hinvariant (by simp [hflow, Flow.combine]))
      exact ⟨fun _ => argumentCompatible_of_identical hleft variance,
        fun _ => argumentCompatible_of_identical hright variance⟩
  | false =>
      cases variance with
      | invariant =>
          have hsame : d.flow = .invariant := by cases flow <;> simp [hflow, Flow.combine]
          obtain ⟨hleft, hright⟩ := h.identical (hinvariant hsame)
          exact ⟨fun _ => hleft, fun _ => hright⟩
      | covariant =>
          refine ⟨fun heq => h.compatible.1 ?_, fun heq => h.compatible.2 ?_⟩ <;>
            simp [hflow, heq, Flow.combine]
      | contravariant =>
          refine ⟨fun heq => h.compatible.2 ?_, fun heq => h.compatible.1 ?_⟩ <;>
            simp [hflow, heq, Flow.combine]

end PartFits

/-- A part that fits is no type parameter, unless the source is one. -/
theorem PartFits.not_paramAt {d : Comparison} {part : Handle} (h : PartFits store' d part)
    (hproper : store'.param? d.source = .ok none) {owner : ParamOwner} {position : Nat} :
    ¬ store'.ParamAt part owner position := by
  intro hparam
  have hne : d.source ≠ part := by
    rintro rfl
    exact hparam.param?_ne hproper
  by_cases hflow : d.flow = .invariant
  · have hfits := h.fits
    rw [Fits, hflow] at hfits
    exact hne hfits
  · exact hparam.isReferenceType_ne ((h.reference hflow).resolve_left hne).2

end Parts

section Comparisons

variable {c d : Comparison} {source target result : Handle}

theorem sub_of_rule (hsource : source < store.size) (htarget : target < store.size)
    (h : Rule store .empty (Sub store .empty) source target) : Sub store .empty source target :=
  sub_iff.mpr ⟨_, _, Substitution.resolve_empty hsource, Substitution.resolve_empty htarget, h⟩

/-- The specialization of an array is an array. -/
theorem Specialized.array (h : Specialized store store' signature types)
    (hr : store'.Replaced true signature.typeParams types target result) {element : Handle}
    {rank : Nat} (harray : store.IsArray element rank target) :
    ∃ part, store'.Replaced true signature.typeParams types element part ∧
      store'.IsArray part rank result := by
  obtain ⟨form, hform, hshape, -⟩ := (h.later.extends.isArray harray).exists_form
  have hfree := h.specializes.parameters.parameters.not_mem hform (Store.isParameter_of_array? hshape)
  exact hr.of_array hfree hform hshape

/-- A container whose element fits is a container of the specialized element. -/
theorem Specialized.container (h : Specialized store store' signature types)
    (hr : store'.Replaced true signature.typeParams types target result)
    (htarget : target < store.size) {element : Handle} {rank : Nat}
    (hcontainer : containerElement? store target rank = .ok (some element)) :
    ∃ part, store'.Replaced true signature.typeParams types element part ∧
      (store'.IsArray part rank result ∨
        rank = 1 ∧ ((∀ owner position, ¬ store'.ParamAt part owner position) →
          isSequenceInstance store' result = .ok true ∧ store'.arguments result = .ok [part])) := by
  obtain ⟨form, hform, harray | ⟨rfl, hsequence, definition, hshape⟩⟩ :=
    containerElement?_cases htarget hcontainer
  · obtain ⟨part, hpart, hresult⟩ := h.array hr (Store.isArray_of_form hform harray)
    exact ⟨part, hpart, Or.inl hresult⟩
  · obtain ⟨definition', hdef, -, hinterface⟩ := definition?_of_isSequenceInstance hform hsequence
    obtain rfl : definition = definition' := by simpa [Entry.definition?, hshape] using hdef
    have happlies := h.later.extends.applies (h.wellFormed.coherent.applies_self hform hshape)
    obtain ⟨parts, hlength, hparts, hresult⟩ :=
      hr.of_applies h.wellFormed'.coherent h.specializes.parameters happlies
    obtain ⟨part, rfl⟩ := List.length_eq_one_iff.mp hlength.symm
    refine ⟨part, hparts 0 element part rfl rfl, Or.inr ⟨rfl, fun hproper => ⟨?_, hresult.queries.2.1⟩⟩⟩
    have hne := hresult.definition_ne h.wellFormed'.coherent (i := 0) rfl hproper
    have hinterface' : store'.isSequenceInterface definition = true := by
      rw [Store.isSequenceInterface, h.later.sequenceInterfaces]
      exact hinterface
    obtain ⟨form', hform', hdef', -⟩ := hresult.exists_form
    rw [isSequenceInstance, Store.definition?_of_form hform', hdef', Query.ok_bind]
    simp [hne, hinterface', pure, Except.pure]

/-- Comparisons of containers fit if the comparison of their elements does. -/
theorem Specialized.fits_of_elements (h : Specialized store store' signature types)
    (hsource : c.source < store.size) (htarget : c.target < store.size)
    (helements : Elements store c d) (hproper : store'.param? d.source = .ok none)
    (hparts : ∀ part, store'.Replaced true signature.typeParams types d.target part →
      PartFits store' d part)
    (hr : store'.Replaced true signature.typeParams types c.target result) :
    Fits store' c result := by
  have hresult := h.specializes.lt hr
  obtain ⟨source, target, flow⟩ := c
  cases flow with
  | invariant =>
      obtain ⟨hflow, rank, hsa, hta⟩ := helements
      obtain ⟨part, hpart, hra⟩ := h.array hr (Store.isArray_of_array? hta)
      have hfits := (hparts part hpart).fits
      rw [Fits, hflow] at hfits
      have hsa' := h.later.extends.isArray (Store.isArray_of_array? hsa)
      rw [show (d.source, rank).1 = part from hfits] at hsa'
      exact h.wellFormed'.coherent.isArray_unique hsa' hra
  | covariant =>
      obtain ⟨element, rank, valueType, hsa, hsc, htc, -, hflow⟩ := helements
      have hsa' := h.later.extends.isArray (Store.isArray_of_array? hsa)
      obtain rfl : element = d.source := by
        have := containerElement?_of_isArray (Store.isArray_of_array? hsa)
        simpa using Except.ok.inj (this.symm.trans hsc)
      obtain ⟨part, hpart, hresult'⟩ := h.container hr htarget htc
      have hfit := hparts part hpart
      have hcompatible := hfit.compatible.1 (by rw [hflow]; split <;> simp)
      refine sub_of_rule (h.lt hsource) hresult ?_
      rcases hresult' with hra | ⟨rfl, hsequence⟩
      · exact .arrays hsa' hra hcompatible
      · obtain ⟨hinstance, hargs⟩ := hsequence fun _ _ => hfit.not_paramAt hproper
        exact .sequence hsa' ⟨part, hinstance, hargs, hcompatible⟩
  | contravariant =>
      obtain ⟨element, rank, valueType, hta, hsc, htc, -, hflow⟩ := helements
      obtain rfl : element = d.target := by
        have := containerElement?_of_isArray (Store.isArray_of_array? hta)
        simpa using Except.ok.inj (this.symm.trans htc)
      obtain ⟨part, hpart, hra⟩ := h.array hr (Store.isArray_of_array? hta)
      have hcompatible := (hparts part hpart).compatible.2 (by rw [hflow]; split <;> simp)
      refine sub_of_rule hresult (h.lt hsource) ?_
      obtain ⟨form, hform, harray | ⟨hrank, hsequence, definition, hshape⟩⟩ :=
        containerElement?_cases hsource hsc
      · exact .arrays hra (h.later.extends.isArray (Store.isArray_of_form hform harray)) hcompatible
      · have hargs : store.arguments source = .ok [d.source] := by
          rw [Store.arguments_of_form hform, Entry.arguments, hshape]
        obtain ⟨hargs', -⟩ := h.agree.arguments hsource hargs
        rw [show (d.target, rank).2 = 1 from hrank] at hra
        exact .sequence hra ⟨d.source, (h.agree.isSequenceInstance hsource).trans hsequence, hargs',
          hcompatible⟩

/-- The specialization of a type that is no type parameter and no array has the same definition, and
the specialized arguments. -/
theorem Specialized.instance (h : Specialized store store' signature types)
    {type definition : Handle} {args : List Handle} (hlt : type < store.size)
    (hd : store.definitionOrSelf type = .ok definition) (hargs : store.arguments type = .ok args)
    (hparam : store.param? type = .ok none) (harray : store.array? type = .ok none)
    (hr : store'.Replaced true signature.typeParams types type result) :
    ∃ parts, args.length = parts.length ∧
      (∀ (i : Nat) a b, args[i]? = some a → parts[i]? = some b →
        store'.Replaced true signature.typeParams types a b) ∧
      store'.definitionOrSelf result = .ok definition ∧ store'.arguments result = .ok parts ∧
      store'.array? result = .ok none := by
  obtain ⟨form, hform⟩ := Store.form_isSome hlt
  have hform' := h.later.extends.forms hform
  rw [Store.definitionOrSelf_of_form hform, Except.ok.injEq] at hd
  rw [Store.arguments_of_form hform, Except.ok.injEq] at hargs
  rw [Store.array?_of_form hform, Except.ok.injEq] at harray
  cases hdefinition : form.definition? type with
  | some definition' =>
      obtain rfl : definition' = definition := by simpa [hdefinition] using hd
      have happlies := h.later.extends.applies
        (h.wellFormed.coherent.applies_of_form hform hdefinition)
      obtain ⟨parts, hlength, hparts, hresult⟩ :=
        hr.of_applies h.wellFormed'.coherent h.specializes.parameters happlies
      obtain ⟨hd', hargs', harray', -⟩ := hresult.queries
      exact ⟨parts, hargs ▸ hlength, hargs ▸ hparts, hd', hargs', harray'⟩
  | none =>
      have hfree : type ∉ signature.typeParams := by
        intro hmem
        obtain ⟨id, position, hparamAt⟩ := h.specializes.parameters type hmem
        refine hparamAt.param?_ne ?_
        rw [← hparam, Store.param?, Store.param?, h.agree.entry hlt]
      obtain rfl := hr.of_leaf hfree hform' harray (Or.inl hdefinition)
      have hnone : form.arguments = [] := by
        cases hshape : form.shape <;> simp_all [Entry.definition?, Entry.arguments]
      subst hargs
      refine ⟨[], by rw [hnone], by simp [hnone], ?_, ?_, ?_⟩
      · rw [Store.definitionOrSelf_of_form hform', hd]
      · rw [Store.arguments_of_form hform', hnone]
      · rw [Store.array?_of_form hform', harray]

/-- Types of one definition are alike in being neither type parameters nor arrays. -/
theorem proper_of_definitionOrSelf (hs : store.Coherent) {type other definition : Handle}
    (hlt : type < store.size) (hother : other < store.size)
    (hd : store.definitionOrSelf type = .ok definition)
    (hd' : store.definitionOrSelf other = .ok definition) (hparam : store.param? type = .ok none)
    (harray : store.array? type = .ok none) :
    store.param? other = .ok none ∧ store.array? other = .ok none := by
  obtain ⟨form, hform⟩ := Store.form_isSome hlt
  obtain ⟨entry, hentry⟩ := Store.entry_of_lt hother
  have hform' : store.form other = some entry.form := Store.form_of_entry hentry
  rw [Store.definitionOrSelf_of_form hform, Except.ok.injEq] at hd
  rw [Store.definitionOrSelf_of_form hform', Except.ok.injEq] at hd'
  cases hdefinition : entry.form.definition? other with
  | some _ =>
      refine ⟨?_, by rw [Store.array?_of_form hform', Store.array?_of_definition? hdefinition]⟩
      rw [Entry.form_definition?] at hdefinition
      rw [Store.param?, Store.query_of_entry hentry (·.param?)]
      cases hshape : entry.shape <;> simp_all [Entry.definition?, Entry.param?]
  | none =>
      -- A type without a definition is the only one of which it is the definition.
      obtain rfl : other = definition := by simpa [hdefinition] using hd'
      cases hdefinition' : form.definition? type with
      | none =>
          obtain rfl : type = other := by simpa [hdefinition'] using hd
          exact ⟨hparam, harray⟩
      | some definition' =>
          obtain rfl : definition' = other := by simpa [hdefinition'] using hd
          obtain ⟨_, ⟨dform, hdform, hdshape⟩, -⟩ := hs.applies_of_form hform hdefinition'
          obtain rfl := Option.some.inj (hform'.symm.trans hdform)
          simp [Entry.definition?, hdshape] at hdefinition

/-- Comparisons of types that are no arrays fit if the comparisons of their arguments do. -/
theorem Specialized.fits_of_instances (h : Specialized store store' signature types)
    {definition : Handle} {sourceArgs targetArgs : List Handle} (hsource : c.source < store.size)
    (htarget : c.target < store.size) (hcompound : Compound store c.target)
    (harray : ¬ HasArray store c.source c.target) (hproper : store.param? c.source = .ok none)
    (hinstances : Instances store c definition sourceArgs targetArgs)
    (hlength : sourceArgs.length = targetArgs.length)
    (hparts : ∀ (i : Nat) x y part, sourceArgs[i]? = some x → targetArgs[i]? = some y →
      store'.Replaced true signature.typeParams types y part →
        ∃ flow, ArgumentAt store c.flow definition i ⟨x, y, flow⟩ ∧
          PartFits store' ⟨x, y, flow⟩ part)
    (hr : store'.Replaced true signature.typeParams types c.target result) :
    Fits store' c result := by
  obtain ⟨source, target, flow⟩ := c
  have hs := h.wellFormed
  have hresult := h.specializes.lt hr
  obtain ⟨hsa, hta⟩ := array?_of_not_hasArray hsource htarget harray
  have hcompatible : definition < store.size → ∀ (i : Nat) x y part, sourceArgs[i]? = some x →
      targetArgs[i]? = some y → store'.Replaced true signature.typeParams types y part →
      ∃ variance, store'.declaredVariance definition i = .ok variance ∧
        (flow = .covariant →
          ArgumentCompatible store' .empty (Sub store' .empty) x part variance) ∧
        (flow = .contravariant →
          ArgumentCompatible store' .empty (Sub store' .empty) part x variance) := by
    intro hdlt i x y part hx hy hpart
    obtain ⟨_, ⟨variance, valueType, hvariance, -, hflow⟩, hfit⟩ := hparts i x y part hx hy hpart
    exact ⟨variance, (h.declaredVariance hdlt i).trans hvariance, hfit.argumentCompatible hflow⟩
  cases flow with
  | invariant =>
      obtain ⟨happlies, hsapplies⟩ := hinstances.applies hs hsource htarget hcompound harray
      obtain ⟨parts, hlength', hreplaced, hrapplies⟩ := hr.of_applies h.wellFormed'.coherent
        h.specializes.parameters (h.later.extends.applies happlies)
      have hsame : sourceArgs = parts := eq_of_getElem? (hlength.trans hlength') fun i x b hx hb => by
        obtain ⟨y, hy⟩ := getElem?_of_length_eq hlength' hb
        obtain ⟨flow, ⟨variance, valueType, -, -, hflow⟩, hfit⟩ :=
          hparts i x y b hx hy (hreplaced i y b hy hb)
        obtain rfl : flow = .invariant := hflow.trans (Flow.combine_invariant _ _)
        exact hfit.fits
      subst hsame
      exact h.wellFormed'.coherent.applies_unique (h.later.extends.applies hsapplies) hrapplies
  | covariant =>
      obtain ⟨htd, htargs, found, hfound, hsargs⟩ := hinstances
      obtain ⟨parts, hlength', hreplaced, hd', hargs', harray'⟩ :=
        h.instance htarget htd htargs hcompound.1 hta hr
      obtain ⟨_, htd', hdlt, hself⟩ := definitionOrSelf_total hs htarget
      obtain rfl := Except.ok.inj (htd.symm.trans htd')
      obtain ⟨_, hsearch, hcase⟩ := Store.findImplementation_total hs hsource hself
      obtain rfl := Except.ok.inj (hfound.symm.trans hsearch)
      obtain ⟨hfd, hsuper | ⟨-, rfl⟩⟩ := hcase found rfl
      · have hflt := hsuper.lt hs hsource
        refine sub_of_rule (h.lt hsource) hresult (.supertype harray' ⟨found, definition,
          h.supertype hsource hsuper, (h.agree.definitionOrSelf hflt).trans hfd, hd', sourceArgs,
          parts, (h.agree.arguments hflt hsargs).1, hargs', hlength.trans hlength',
          fun i x b hx hb => ?_⟩)
        obtain ⟨y, hy⟩ := getElem?_of_length_eq hlength' hb
        obtain ⟨variance, hvariance, hcov, -⟩ :=
          hcompatible hdlt i x y b hx hy (hreplaced i y b hy hb)
        exact ⟨variance, hvariance, hcov rfl⟩
      · exact absurd (Store.eq_root_of_definitionOrSelf hs.coherent htd htarget)
          (hcompound.ne_root hs.coherent)
  | contravariant =>
      obtain ⟨hsd, hsargs, found, hfound, htargs⟩ := hinstances
      obtain ⟨_, hsd', hdlt, hself⟩ := definitionOrSelf_total hs hsource
      obtain rfl := Except.ok.inj (hsd.symm.trans hsd')
      obtain ⟨_, hsearch, hcase⟩ := Store.findImplementation_total hs htarget hself
      obtain rfl := Except.ok.inj (hfound.symm.trans hsearch)
      obtain ⟨hfd, hsuper | ⟨-, rfl⟩⟩ := hcase found rfl
      · have hflt := hsuper.lt hs htarget
        obtain ⟨super, hrf, hsuper'⟩ :=
          h.specializes.supertype (h.supertype htarget hsuper) (h.lt htarget) hr
        obtain ⟨hfparam, hfarray⟩ :=
          proper_of_definitionOrSelf hs.coherent hsource hflt hsd hfd hproper hsa
        obtain ⟨parts, hlength', hreplaced, hd', hargs', -⟩ :=
          h.instance hflt hfd htargs hfparam hfarray hrf
        have hsa' : store'.array? source = .ok none := by
          rw [← hsa, Store.array?, Store.array?, h.agree.entry hsource]
        refine sub_of_rule hresult (h.lt hsource) (.supertype hsa' ⟨super, definition, hsuper', hd',
          (h.agree.definitionOrSelf hsource).trans hsd, parts, sourceArgs, hargs',
          (h.agree.arguments hsource hsargs).1, (hlength.trans hlength').symm,
          fun i b x hb hx => ?_⟩)
        obtain ⟨y, hy⟩ := getElem?_of_length_eq hlength' hb
        obtain ⟨variance, hvariance, -, hcon⟩ :=
          hcompatible hdlt i x y b hx hy (hreplaced i y b hy hb)
        exact ⟨variance, hvariance, hcon rfl⟩
      · obtain rfl : source = store.root :=
          Store.eq_root_of_definitionOrSelf hs.coherent hsd hsource
        refine sub_of_rule hresult (h.lt hsource) ?_
        rw [← h.later.root]
        exact .root

theorem isReferenceType_of_proper {type : Handle} (hproper : store.param? type = .ok none)
    (hvalue : store.isValueType type = .ok false) : store.isReferenceType type = .ok true := by
  obtain ⟨entry, hentry, hparam⟩ := Query.bind_eq_ok.mp hproper
  rw [Store.isValueType, Store.flags, hentry, Query.ok_bind] at hvalue
  have hparam : entry.param? = none := Query.pure_eq_ok.mp hparam
  have hvalue : entry.flags.valueType = false := Query.pure_eq_ok.mp hvalue
  have hproper : entry.isParameter = false := by
    cases hshape : entry.shape <;> simp_all [Entry.param?, Entry.isParameter]
  rw [Store.isReferenceType, hentry, Query.ok_bind, hvalue, hproper]
  rfl

/-- A nested comparison that fits is one of parts that fit. -/
theorem Specialized.partFits (h : Specialized store store' signature types)
    (hfaithful : Faithful store store' signature args types) (hc : Reached store signature args c)
    (hnested : Nested store c d) (hsource : d.source < store.size)
    (hr : store'.Replaced true signature.typeParams types d.target result)
    (hfits : Fits store' d result) : PartFits store' d result where
  fits := hfits
  source := h.lt hsource
  target := h.specializes.lt hr
  reference hflow := by
    have hproper := hfaithful.proper d (.nested hc hnested)
    have href := isReferenceType_of_proper hproper (isValueType_of_nested hnested hflow)
    rw [Store.isReferenceType, ← h.agree.entry hsource] at href
    exact (hfaithful.reference c d hc hnested hflow result hr).imp_right fun h => ⟨href, h⟩

/-- What matches the bounds that the inferred types meet fits the specialized template. -/
theorem Specialized.fits_of_matches (h : Specialized store store' signature types)
    (hunambiguous : Unambiguous store signature args)
    (hfaithful : Faithful store store' signature args types) {bounds : List BoundSet}
    (hmeets : ∀ (i : Nat) type, types[i]? = some type →
      (bounds[i]?.getD {}).Meets store.isAssignable type) {levels : Nat}
    (hc : Reached store signature args c)
    (hsource : c.source < store.size) (htarget : c.target < store.size)
    (hmatch : Matches store signature (Recorded bounds) levels c)
    (hr : store'.Replaced true signature.typeParams types c.target result) :
    Fits store' c result := by
  have hs := h.wellFormed
  induction levels generalizing c result with
  | zero => exact hmatch.elim
  | succ levels ih =>
      cases hmatch with
      | own hparam howner hrecord =>
          have hposition := h.callable.position_of_owner hs.coherent hparam howner
          have hbound := hr.of_bound (Store.idxOf?_of_paramAt
            (hs.coherent.callables h.callable).2 hposition)
          exact h.fits_of_recorded hsource (h.inRange _ (List.mem_of_getElem? hbound)) hrecord
            (hmeets _ _ hbound)
      | foreign hparam howner hbound hrelated =>
          have havoids := Store.avoids_of_owner hs.coherent h.callable
            (Store.paramAt_of_param? hparam) howner
          obtain rfl := h.eq_of_avoids htarget havoids hr
          obtain rfl := Except.ok.inj
            (hbound.symm.trans (enclosingArgument_of_none h.declaring htarget))
          exact h.fits_of_relateConcrete hsource htarget hrelated
      | concrete _ hclosed hrelated =>
          obtain rfl := h.eq_of_avoids htarget
            (Store.outside_of_closed hs.coherent h.callable hclosed).2 hr
          exact h.fits_of_relateConcrete hsource htarget hrelated
      | @elements d hcompound harray helements hmatch =>
          have hnested : Nested store c d := .element hcompound harray helements
          have hd : Reached store signature args d := .nested hc hnested
          obtain ⟨hdsource, hdtarget⟩ := helements.lt hs hsource htarget
          have hproper := hfaithful.proper d hd
          rw [Store.param?, ← h.agree.entry hdsource] at hproper
          exact h.fits_of_elements hsource htarget helements hproper (fun part hpart =>
            h.partFits hfaithful hc hnested hdsource hpart (ih hd hdsource hdtarget hmatch hpart)) hr
      | ambiguous hcompound harray hambiguous =>
          exact absurd hambiguous (hunambiguous c hc hcompound harray)
      | arguments hcompound harray hinstances hargs =>
          obtain ⟨hlength, hall⟩ := hargs
          refine h.fits_of_instances hsource htarget hcompound harray (hfaithful.proper c hc)
            hinstances hlength (fun i x y part hx hy hpart => ?_) hr
          obtain ⟨flow, hargument, hcase⟩ := hall i x y hx hy
          have hnested : Nested store c ⟨x, y, flow⟩ :=
            .argument hcompound harray hinstances hx hy hargument
          obtain ⟨hdsource, hdtarget⟩ := hinstances.lt hs hsource htarget
          have hxlt := hdsource x (List.mem_of_getElem? hx)
          have hylt := hdtarget y (List.mem_of_getElem? hy)
          refine ⟨flow, hargument, h.partFits hfaithful hc hnested hxlt hpart ?_⟩
          rcases hcase with ⟨-, hmatch⟩ | ⟨hclosed, hrelated⟩
          · exact ih (.nested hc hnested) hxlt hylt hmatch hpart
          · obtain rfl := h.eq_of_avoids hylt
              (Store.outside_of_closed hs.coherent h.callable hclosed).2 hpart
            exact h.fits_of_relateConcrete hxlt hylt hrelated

end Comparisons

section Calls

/-- The types make the call well typed in `store'`: each argument passed by value is assignable to
its parameter, or cast to a parameter that mentions no type parameter, and the return type is
assignable to the expected result. -/
structure CallTyped (store store' : Store) (signature : Signature) (args types : List Handle) :
    Prop where
  enough : signature.params.length ≤ args.length
  parameters : ∀ (i : Nat) param arg target, signature.params[i]? = some param →
    args[i]? = some arg → param.mode = .byValue →
    store'.Replaced true signature.typeParams types param.type target →
    WithinLimits store' .empty arg target →
      store'.isAssignable arg target = .ok true ∨
        store.isOpen param.type = .ok false ∧ store.isSpecialCastSource arg = .ok true ∧
          store.canSpecialCast arg param.type = .ok true
  result : ∀ expected, args[signature.params.length]? = some expected →
    ∃ returns, signature.returns = some returns ∧
      ∀ target, store'.Replaced true signature.typeParams types returns target →
        WithinLimits store' .empty target expected → store'.isAssignable target expected = .ok true

theorem compatible_cases {arg target : Handle} (h : compatible store arg target = .ok true) :
    store.isAssignable arg target = .ok true ∨
      store.isSpecialCastSource arg = .ok true ∧ store.canSpecialCast arg target = .ok true := by
  obtain ⟨assignable, hassignable, h⟩ := Query.bind_eq_ok.mp h
  cases assignable with
  | true => exact Or.inl hassignable
  | false =>
      obtain ⟨castable, hcastable, h⟩ := Query.bind_eq_ok.mp h
      cases castable with
      | true => exact Or.inr ⟨hcastable, h⟩
      | false => cases h

namespace Specialized

variable {c : Comparison} {arg template expected returns result : Handle}

/-- An argument that fits where the collector starts is below the specialized parameter. -/
theorem sub_of_parameter (h : Specialized store store' signature types)
    (htemplate : template < store.size) (hclosed : store.isOpen arg = .ok false)
    (hc : parameterComparison store template arg .byValue = .ok c)
    (hfits : ∀ target, store'.Replaced true signature.typeParams types c.target target →
      Fits store' c target)
    (hr : store'.Replaced true signature.typeParams types template result) :
    Sub store' .empty arg result := by
  obtain ⟨aform, haform, haclosed⟩ := Store.form_of_isOpen hclosed
  have harg := Store.form_lt haform
  have hs' := h.wellFormed'.coherent
  obtain ⟨inner?, hunwrap, hinner⟩ := unwrap?_total h.wellFormed htemplate harg
  rw [parameterComparison, hunwrap, Query.ok_bind] at hc
  cases inner? with
  | none =>
      cases hc
      exact hfits result hr
  | some inner =>
      cases hc
      obtain ⟨-, hwrapper, -, hargs⟩ := hinner inner rfl
      obtain ⟨wrapper, _, _, _, wform, hw, -, -, -, -, hwform, hdefinition, -⟩ :=
        definition_of_wrapper h.wellFormed.coherent htemplate hwrapper
      have happlies := h.wellFormed.coherent.applies_of_form hwform hdefinition
      rw [Store.arguments_of_form hwform, Except.ok.injEq] at hargs
      rw [hargs] at happlies
      obtain ⟨parts, hlength, hparts, hresult⟩ :=
        hr.of_applies hs' h.specializes.parameters (h.later.extends.applies happlies)
      obtain ⟨part, rfl⟩ := List.length_eq_one_iff.mp hlength.symm
      obtain rfl : arg = part := hfits part (hparts 0 inner part rfl rfl)
      -- The argument is closed, so the specialized wrapper is not the bare definition.
      have hne := hresult.definition_ne hs' (i := 0) rfl fun _ _ hparam => by
        have hopen := hparam.isOpen hs'
        rw [Store.isOpen_of_form (h.later.extends.forms haform), haclosed] at hopen
        cases hopen
      obtain ⟨form, hform, hdef, -⟩ := hresult.exists_form
      refine sub_of_rule (h.lt harg) (h.specializes.lt hr) (.wrapper ⟨arg, ?_, hresult.queries.2.1,
        .refl (h.lt harg)⟩)
      rw [Store.isOptionalWrapper, Store.definition?_of_form hform, hdef, Query.ok_bind,
        h.later.optionalWrapper, hw]
      simp [hne, pure, Except.pure]

/-- A return template that fits where the collector starts is, specialized, below the expected
result. -/
theorem sub_of_result (h : Specialized store store' signature types)
    (hexpected : expected < store.size) (hreturns : returns < store.size)
    (hc : returnComparison store expected returns = .ok c)
    (hfits : ∀ target, store'.Replaced true signature.typeParams types c.target target →
      Fits store' c target)
    (hr : store'.Replaced true signature.typeParams types returns result) :
    Sub store' .empty result expected := by
  obtain ⟨inner?, hunwrap, hinner⟩ := unwrap?_total h.wellFormed hexpected hreturns
  rw [returnComparison, hunwrap, Query.ok_bind] at hc
  cases inner? with
  | none =>
      cases hc
      exact hfits result hr
  | some inner =>
      cases hc
      obtain ⟨-, hwrapper, -, hargs⟩ := hinner inner rfl
      obtain rfl : inner = result := hfits result hr
      have hlt := h.specializes.lt hr
      exact sub_of_rule hlt (h.lt hexpected) (.wrapper ⟨inner,
        (h.agree.isOptionalWrapper hexpected).trans hwrapper, (h.agree.arguments hexpected hargs).1,
        .refl hlt⟩)

/-- Types that meet the bounds of an accepted call make it well typed. -/
theorem callTyped (h : Specialized store store' signature types)
    (hargs : ∀ arg ∈ args, store.isOpen arg = .ok false)
    (hunambiguous : Unambiguous store signature args)
    (hfaithful : Faithful store store' signature args types) {bounds : List BoundSet}
    (haccepted : Accepted store signature args (Recorded bounds))
    (hmeets : ∀ (i : Nat) type, types[i]? = some type →
      (bounds[i]?.getD {}).Meets store.isAssignable type) :
    CallTyped store store' signature args types := by
  have hs := h.wellFormed
  have hsignature := hs.inRange.signatures h.callable
  have hlt : ∀ arg ∈ args, arg < store.size := by
    intro arg harg
    obtain ⟨form, hform, -⟩ := Store.form_of_isOpen (hargs arg harg)
    exact Store.form_lt hform
  refine ⟨haccepted.enough, ?_, ?_⟩
  · intro i param arg target hparam harg hmode hr hlimits
    have harg' := List.mem_of_getElem? harg
    have hp := hsignature.params param (List.mem_of_getElem? hparam)
    have htarget := h.specializes.lt hr
    obtain ⟨form, hform⟩ := Store.form_isSome hp
    have hopen := Store.isOpen_of_form hform
    cases htemplate : form.isOpen with
    | true =>
        rw [htemplate] at hopen
        obtain ⟨c, hc, hmatch⟩ := haccepted.templates i param arg hparam harg hopen
        obtain ⟨_, hc', hsource, hctarget⟩ :=
          parameterComparison_total hs hp (hlt arg harg') param.mode
        obtain rfl := Except.ok.inj (hc.symm.trans hc')
        have hreached : Reached store signature args c := .start (.parameter hparam harg hc)
        rw [hmode] at hc
        refine Or.inl (isAssignable_of_sub h.wellFormed' (h.lt (hlt arg harg')) htarget hlimits ?_)
        exact h.sub_of_parameter hp (hargs arg harg') hc
          (fun _ => h.fits_of_matches hunambiguous hfaithful hmeets hreached hsource hctarget
            hmatch) hr
    | false =>
        rw [htemplate] at hopen
        obtain rfl := h.eq_of_avoids hp (Store.outside_of_closed hs.coherent h.callable hopen).2 hr
        refine (compatible_cases (haccepted.concrete i param arg hparam harg hopen)).imp
          (fun hassignable => ?_) fun hcast => ⟨hopen, hcast⟩
        exact isAssignable_of_sub h.wellFormed' (h.lt (hlt arg harg')) htarget hlimits
          (h.sub_of_isAssignable (hlt arg harg') hp hassignable)
  · intro expected hexpected
    have helt := hlt expected (List.mem_of_getElem? hexpected)
    obtain ⟨returns, hreturns, -, c, hc, hmatch⟩ := haccepted.result expected hexpected
    have hrlt := hsignature.returns returns hreturns
    obtain ⟨_, hc', hsource, hctarget⟩ := returnComparison_total hs helt hrlt
    obtain rfl := Except.ok.inj (hc.symm.trans hc')
    have hreached : Reached store signature args c := .start (.result hexpected hreturns hc)
    refine ⟨returns, hreturns, fun target hr hlimits => ?_⟩
    refine isAssignable_of_sub h.wellFormed' (h.specializes.lt hr) (h.lt helt) hlimits ?_
    exact h.sub_of_result helt hrlt hc
      (fun _ => h.fits_of_matches hunambiguous hfaithful hmeets hreached hsource hctarget hmatch)
      hr

end Specialized

/-- Inference is sound: the types it returns make the call well typed in every later store that
interns the specialized templates. -/
theorem inferTypes?_sound (hreachable : store.Reachable) (hfinished : store.finished = true)
    (hclosed : ∀ {type : Handle} {entry}, store.types[type]? = some entry → entry.closed = true)
    (hcallable : store.HasCallable signature) (hdeclaring : signature.declaringType = none)
    (hargs : ∀ arg ∈ args, store.isOpen arg = .ok false)
    (hinfer : store.inferTypes? signature args {} = .ok (some types)) {ops : List Operation}
    (hops : ∀ op ∈ ops, op.interns = true) (hrun : Operation.runAll ops store = some store')
    (hsettled : store'.Settled) (hisolates : store'.Isolates signature.typeParams)
    (hunambiguous : Unambiguous store signature args)
    (hfaithful : Faithful store store' signature args types) :
    CallTyped store store' signature args types := by
  have hlawful := hreachable.lawful
  have hs := hlawful.wellFormed
  obtain ⟨hlawful', hlater⟩ := hlawful.later_of_runAll hops hrun
  obtain ⟨-, hrange, bounds, haccepted, hmeets⟩ := inferTypes?_run hs
    (hs.inRange.signatures hcallable) hdeclaring (fun arg harg => by
      obtain ⟨form, hform, -⟩ := Store.form_of_isOpen (hargs arg harg)
      exact Store.form_lt hform) hinfer
  have hspecialized : Specialized store store' signature types :=
    { wellFormed := hs
      closed := hclosed
      later := hlater
      callable := hcallable
      declaring := hdeclaring
      inRange := hrange
      specializes :=
        { lawful := hlawful'
          finished := hlater.finished.trans hfinished
          settled := hsettled
          parameters := fun param hparam => by
            obtain ⟨position, hat⟩ := hcallable.paramAt hs.coherent hparam
            exact ⟨signature.id, position, hlater.extends.paramAt hat⟩
          isolates := hisolates
          types := fun type htype => Nat.lt_of_lt_of_le (hrange type htype) hlater.size_le } }
  exact hspecialized.callTyped hargs hunambiguous hfaithful haccepted hmeets

theorem not_ambiguous_of_found {c : Comparison} {definition found : Handle}
    (hflow : c.flow = .covariant) (hd : store.definitionOrSelf c.target = .ok definition)
    (hfound : store.findImplementation c.source definition = .ok (.found found)) :
    ¬ Ambiguous store c := by
  intro h
  rw [Ambiguous, hflow] at h
  obtain ⟨definition', types, hd', hambiguous⟩ := h
  obtain rfl := Except.ok.inj (hd.symm.trans hd')
  cases hfound.symm.trans hambiguous

/-- The store of boxes as sequences, with sequences of objects. -/
def headObjectStore : Store := (Operation.runAll [.instantiate 1 [0]] headStore).getD {}

theorem head_unambiguous : Unambiguous headStore head [9, 0] := by
  obtain ⟨-, -, hparam, -, -, hdefinition, hfound, -⟩ := headStore_answers
  intro c hc hcompound _
  obtain rfl | rfl | rfl := by simpa using mem_of_reached head_covers hc
  · exact not_ambiguous_of_found rfl hdefinition hfound
  · exact absurd hcompound.1 hparam
  · exact absurd hcompound.1 hparam

theorem headObjectStore_runs : Operation.runAll [.instantiate 1 [0]] headStore =
    some headObjectStore := by decide +kernel

theorem head_faithful : Faithful headStore headObjectStore head [9, 0] [0] := by
  have hs' := (headStore_reachable.runAll headObjectStore_runs).lawful.wellFormed.coherent
  have hnested : nestedComparisons headStore ⟨9, 8, .covariant⟩ = .ok [⟨6, 7, .covariant⟩] := by
    decide +kernel
  have hnone : nestedComparisons headStore ⟨6, 7, .covariant⟩ = .ok [] ∧
      nestedComparisons headStore ⟨0, 7, .contravariant⟩ = .ok [] := by decide +kernel
  have hobject : headObjectStore.Replaced true head.typeParams [0] 7 0 :=
    .bound (by decide : head.typeParams.idxOf? 7 = some 0) rfl
  refine ⟨fun c hc => ?_, fun c d hc hd _ target htarget => ?_⟩
  · obtain rfl | rfl | rfl := by simpa using mem_of_reached head_covers hc
    all_goals decide +kernel
  · obtain rfl | rfl | rfl := by simpa using mem_of_reached head_covers hc
    · obtain rfl : d = ⟨6, 7, .covariant⟩ := by simpa using mem_nestedComparisons hnested hd
      obtain rfl := hobject.functional hs' htarget
      exact Or.inr (by decide +kernel)
    · exact absurd (mem_nestedComparisons hnone.1 hd) List.not_mem_nil
    · exact absurd (mem_nestedComparisons hnone.2 hd) List.not_mem_nil

/-- A box of strings is a sequence of objects, and an object is expected: the call is well typed with
`object` for the type parameter. -/
theorem inferTypes?_sound_head : headStore.inferTypes? head [9, 0] {} = .ok (some [0]) ∧
    headObjectStore.isAssignable 9 11 = .ok true := by
  have hs' := (headStore_reachable.runAll headObjectStore_runs).lawful.wellFormed.coherent
  have hinfer : headStore.inferTypes? head [9, 0] {} = .ok (some [0]) := by decide +kernel
  have hsettled : headStore.Settled := Store.settled_of_isSettled (by decide +kernel)
  have htyped := inferTypes?_sound headStore_reachable (by decide +kernel) hsettled.closed
    headStore_callable rfl (by decide +kernel) hinfer (by decide)
    headObjectStore_runs (Store.settled_of_isSettled (by decide +kernel))
    (Store.isolates_of_check hs' (by decide +kernel)) head_unambiguous head_faithful
  have hreplaced : headObjectStore.Replaced true head.typeParams [0] 8 11 :=
    Store.replaced_of_check hs' (by decide +kernel :
      headObjectStore.replacesWithin true head.typeParams [0] 2 8 11 = true)
  have hopen : headStore.isOpen 8 = .ok true := by decide +kernel
  refine ⟨hinfer, ?_⟩
  rcases htyped.parameters 0 ⟨8, .byValue⟩ 9 11 rfl rfl rfl hreplaced
    (withinLimits_of_outcome? (by decide +kernel)) with h | ⟨hclosed, -⟩
  · exact h
  · cases hopen.symm.trans hclosed

/-- Functions, and a callable that takes a function on integers. -/
def applyOperations : List Operation :=
  [.declarePrimitive "int" .i32,
    .declare .classType "string",
    .declareGeneric .delegateType "Func" [("A", .contravariant), ("R", .covariant)],
    .finish,
    .declareCallable "Apply" ["T"],
    .instantiate 3 [1, 6],
    .addParameter 0 7 .byValue,
    .setReturnType 0 6,
    .instantiate 3 [0, 2],
    .instantiate 3 [1, 2]]

/-- The store that `applyOperations` build. -/
def applyStore : Store := (Operation.runAll applyOperations (.ofRoot "object")).getD {}

/-- The callable of `applyStore`. -/
def apply : Signature :=
  { id := 0, name := "Apply", typeParams := [6], params := [⟨7, .byValue⟩], returns := some 6 }

/-- The operations run, and the store answers about the types of the call. -/
theorem applyStore_answers :
    Operation.runAll applyOperations (.ofRoot "object") = some applyStore ∧
      applyStore.isOpen 1 ≠ .ok true ∧ applyStore.param? 6 ≠ .ok none ∧
      applyStore.definitionOrSelf 7 = .ok 3 ∧
      applyStore.findImplementation 8 3 = .ok (.found 8) ∧
      covers applyStore apply [8]
        [⟨8, 7, .covariant⟩, ⟨0, 1, .contravariant⟩, ⟨2, 6, .covariant⟩] = true := by
  decide +kernel

theorem applyStore_reachable : applyStore.Reachable :=
  (Store.Reachable.ofRoot "object").runAll applyStore_answers.1

theorem apply_unambiguous : Unambiguous applyStore apply [8] := by
  obtain ⟨-, hint, hparam, hdefinition, hfound, hcovers⟩ := applyStore_answers
  intro c hc hcompound _
  obtain rfl | rfl | rfl := by simpa using mem_of_reached hcovers hc
  · exact not_ambiguous_of_found rfl hdefinition hfound
  · exact absurd hcompound.2 hint
  · exact absurd hcompound.1 hparam

/-- A function on objects is no function on integers, because integers are values, but inference finds
a type argument for the call that passes one for the other. -/
theorem inferTypes?_accepts_function :
    applyStore.Reachable ∧ applyStore.finished = true ∧ applyStore.HasCallable apply ∧
      apply.declaringType = none ∧
      (∀ arg ∈ ([8] : List Handle), applyStore.isOpen arg = .ok false) ∧
      applyStore.inferTypes? apply [8] {} = .ok (some [2]) ∧ Unambiguous applyStore apply [8] ∧
      applyStore.Replaced true apply.typeParams [2] 7 9 ∧ WithinLimits applyStore .empty 8 9 ∧
      ¬ CallTyped applyStore applyStore apply [8] [2] := by
  have hreplaced : applyStore.Replaced true apply.typeParams [2] 7 9 :=
    Store.replaced_of_check applyStore_reachable.lawful.wellFormed.coherent (by decide +kernel :
      applyStore.replacesWithin true apply.typeParams [2] 2 7 9 = true)
  have hlimits : WithinLimits applyStore .empty 8 9 := withinLimits_of_outcome? (by decide +kernel)
  have hassignable : applyStore.isAssignable 8 9 = .ok false := by decide +kernel
  have hopen : applyStore.isOpen 7 = .ok true := by decide +kernel
  refine ⟨applyStore_reachable, by decide +kernel,
    (by decide +kernel : applyStore.callables[0]? = some apply), rfl, by decide +kernel,
    by decide +kernel, apply_unambiguous, hreplaced, hlimits, fun htyped => ?_⟩
  rcases htyped.parameters 0 ⟨7, .byValue⟩ 8 9 rfl rfl rfl hreplaced hlimits with h | ⟨hclosed, -⟩
  · cases hassignable.symm.trans h
  · cases hopen.symm.trans hclosed

end Calls

end NominalGenerics.Inference
