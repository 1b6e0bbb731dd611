import NominalGenerics.Assignability
import NominalGenerics.Proofs.Hierarchy
import NominalGenerics.Proofs.Identity

/-!
# Subtyping

`Sub` is the least relation closed under the rules of assignability. A rule is a step that may use
the relation for the elements of arrays and for variant arguments; `Rule` states the steps over any
relation, so that `Sub`, and its variant that must not use some pairs of types, are both least
relations closed under the same steps.

The variant carries the completeness of a walk that refuses pairs on its path: a derivation of a
pair never needs the pair itself.

`Simulates` says when two stores with two substitutions relate the same types, up to a relation
between their handles.
-/

namespace NominalGenerics.Assignability

open Substitution (Identical)

section Rules

variable (store : Store) (sub : Substitution) (R : Handle → Handle → Prop)

/-- Compatibility of array elements and of variant arguments: identity, or the relation between two
reference types. -/
def Compatible (source target : Handle) : Prop :=
  Identical store sub source target ∨
    ∃ source' target', sub.resolve store source = .ok source' ∧
      sub.resolve store target = .ok target' ∧ store.isReferenceType source' = .ok true ∧
      store.isReferenceType target' = .ok true ∧ R source' target'

/-- Compatibility of arguments for a parameter of a given variance. -/
def ArgumentCompatible (source target : Handle) : Variance → Prop
  | .invariant => Identical store sub source target
  | .covariant => Compatible store sub R source target
  | .contravariant => Compatible store sub R target source

/-- Compatibility of the arguments of two types under the variances that a definition declares. -/
def ArgumentsCompatible (definition source target : Handle) : Prop :=
  ∃ sourceArgs targetArgs, store.arguments source = .ok sourceArgs ∧
    store.arguments target = .ok targetArgs ∧ sourceArgs.length = targetArgs.length ∧
    ∀ (i : Nat) x y, sourceArgs[i]? = some x → targetArgs[i]? = some y →
      ∃ variance, store.declaredVariance definition i = .ok variance ∧
        ArgumentCompatible store sub R x y variance

/-- `target` wraps optional values of a type identical to `source`. -/
def Wraps (source target : Handle) : Prop :=
  ∃ inner, store.isOptionalWrapper target = .ok true ∧ store.arguments target = .ok [inner] ∧
    Identical store sub source inner

/-- `target` is a sequence of elements with which `element` is compatible. -/
def SequenceOf (element target : Handle) : Prop :=
  ∃ targetElement, isSequenceInstance store target = .ok true ∧
    store.arguments target = .ok [targetElement] ∧ Compatible store sub R element targetElement

/-- A supertype of `source` has the definition of `target` and compatible arguments. -/
def Inherits (source target : Handle) : Prop :=
  ∃ super definition, store.Supertype source super ∧
    store.definitionOrSelf super = .ok definition ∧
    store.definitionOrSelf target = .ok definition ∧
    ArgumentsCompatible store sub R definition super target

/-- The rules of assignability for resolved types, over a relation for the types inside them. An
array is no instantiation of a definition, so a supertype never makes a type assignable to one. -/
inductive Rule : Handle → Handle → Prop
  | identity {source target : Handle} (hidentical : Identical store sub source target) :
      Rule source target
  | root {source : Handle} : Rule source store.root
  | wrapper {source target : Handle} (hwraps : Wraps store sub source target) : Rule source target
  | arrays {source target sourceElement targetElement : Handle} {rank : Nat}
      (hsource : store.IsArray sourceElement rank source)
      (htarget : store.IsArray targetElement rank target)
      (helement : Compatible store sub R sourceElement targetElement) : Rule source target
  | sequence {source target sourceElement : Handle}
      (hsource : store.IsArray sourceElement 1 source)
      (htarget : SequenceOf store sub R sourceElement target) : Rule source target
  | supertype {source target : Handle} (harray : store.array? target = .ok none)
      (hinherits : Inherits store sub R source target) : Rule source target

/-- Assignability as the least relation closed under the rules. -/
inductive Sub : Handle → Handle → Prop
  | derive {R : Handle → Handle → Prop} {source target source' target' : Handle}
      (hpremises : ∀ a b, R a b → Sub a b) (hsource : sub.resolve store source = .ok source')
      (htarget : sub.resolve store target = .ok target') (hrule : Rule store sub R source' target') :
      Sub source target

/-- The least relation closed under the rules without deriving any of the `excluded` pairs. -/
inductive SubAvoiding (excluded : List (Handle × Handle)) : Handle → Handle → Prop
  | derive {R : Handle → Handle → Prop} {source target source' target' : Handle}
      (hpremises : ∀ a b, R a b → SubAvoiding excluded a b)
      (hsource : sub.resolve store source = .ok source')
      (htarget : sub.resolve store target = .ok target')
      (hallowed : (source', target') ∉ excluded) (hrule : Rule store sub R source' target') :
      SubAvoiding excluded source target

end Rules

section Least

variable {store : Store} {sub : Substitution} {R R' : Handle → Handle → Prop}
  {source target : Handle}

theorem Compatible.mono (hR : ∀ a b, R a b → R' a b)
    (h : Compatible store sub R source target) : Compatible store sub R' source target := by
  refine h.imp_right ?_
  rintro ⟨source', target', hsource, htarget, hs, ht, hr⟩
  exact ⟨source', target', hsource, htarget, hs, ht, hR source' target' hr⟩

theorem ArgumentCompatible.mono (hR : ∀ a b, R a b → R' a b) {variance : Variance}
    (h : ArgumentCompatible store sub R source target variance) :
    ArgumentCompatible store sub R' source target variance := by
  cases variance with
  | invariant => exact h
  | covariant => exact Compatible.mono hR h
  | contravariant => exact Compatible.mono hR h

theorem ArgumentsCompatible.mono (hR : ∀ a b, R a b → R' a b) {definition : Handle}
    (h : ArgumentsCompatible store sub R definition source target) :
    ArgumentsCompatible store sub R' definition source target := by
  obtain ⟨sourceArgs, targetArgs, hsource, htarget, hlength, hargs⟩ := h
  refine ⟨sourceArgs, targetArgs, hsource, htarget, hlength, fun i x y hx hy => ?_⟩
  obtain ⟨variance, hvariance, hcompatible⟩ := hargs i x y hx hy
  exact ⟨variance, hvariance, hcompatible.mono hR⟩

theorem Rule.mono (hR : ∀ a b, R a b → R' a b) (h : Rule store sub R source target) :
    Rule store sub R' source target := by
  cases h with
  | identity hidentical => exact .identity hidentical
  | root => exact .root
  | wrapper hwraps => exact .wrapper hwraps
  | arrays hsource htarget helement => exact .arrays hsource htarget (helement.mono hR)
  | sequence hsource htarget =>
      obtain ⟨targetElement, hsequence, harguments, helement⟩ := htarget
      exact .sequence hsource ⟨targetElement, hsequence, harguments, helement.mono hR⟩
  | supertype harray hinherits =>
      obtain ⟨super, definition, hsuper, hd, hd', hargs⟩ := hinherits
      exact .supertype harray ⟨super, definition, hsuper, hd, hd', hargs.mono hR⟩

/-- `Sub` is a fixed point of the rules. -/
theorem sub_iff : Sub store sub source target ↔
    ∃ source' target', sub.resolve store source = .ok source' ∧
      sub.resolve store target = .ok target' ∧ Rule store sub (Sub store sub) source' target' := by
  constructor
  · rintro ⟨hpremises, hsource, htarget, hrule⟩
    exact ⟨_, _, hsource, htarget, hrule.mono hpremises⟩
  · rintro ⟨source', target', hsource, htarget, hrule⟩
    exact .derive (fun _ _ h => h) hsource htarget hrule

/-- Avoiding nothing is no restriction. -/
theorem Sub.avoiding_nil (h : Sub store sub source target) :
    SubAvoiding store sub [] source target := by
  induction h with
  | derive _ hsource htarget hrule ih =>
      exact .derive ih hsource htarget List.not_mem_nil hrule

/-- A pair that has a derivation has one that does not use the pair itself. -/
theorem SubAvoiding.rule_avoiding_self {excluded : List (Handle × Handle)}
    (hsource : sub.resolve store source = .ok source)
    (htarget : sub.resolve store target = .ok target)
    (h : SubAvoiding store sub excluded source target) :
    Rule store sub (SubAvoiding store sub ((source, target) :: excluded)) source target := by
  by_contra hnone
  -- Otherwise no derivation that avoids `excluded` ever reaches the pair.
  have hnever : ∀ a b, SubAvoiding store sub excluded a b →
      SubAvoiding store sub ((source, target) :: excluded) a b := by
    intro a b hab
    induction hab with
    | derive _ ha hb hallowed hrule ih =>
        have hrule' := hrule.mono ih
        refine .derive (fun _ _ h => h) ha hb (fun hmem => ?_) hrule'
        rcases List.mem_cons.mp hmem with heq | hmem
        · obtain ⟨rfl, rfl⟩ := Prod.mk.inj heq
          exact hnone hrule'
        · exact hallowed hmem
  cases hnever source target h with
  | derive _ hsource' htarget' hallowed _ =>
      obtain rfl := Except.ok.inj (hsource.symm.trans hsource')
      obtain rfl := Except.ok.inj (htarget.symm.trans htarget')
      exact hallowed List.mem_cons_self

end Least

/-- `ρ` relates the types of one store to types of another under which the rules say the same about
them. `σ` is its part between types that resolution leaves alone, where their shapes count. -/
structure Simulates (store store' : Store) (sub sub' : Substitution) (ρ σ : Handle → Handle → Prop) :
    Prop where
  resolve : ∀ {a b a'}, ρ a b → sub.resolve store a = .ok a' →
    ∃ b', sub'.resolve store' b = .ok b' ∧ σ a' b'
  related : ∀ {a b}, σ a b → ρ a b
  identical : ∀ {a b c d}, ρ a b → ρ c d → Identical store sub a c → Identical store' sub' b d
  root : ∀ {b}, σ store.root b → b = store'.root
  array : ∀ {a b element rank}, σ a b → store.IsArray element rank a →
    ∃ element', store'.IsArray element' rank b ∧ ρ element element'
  nonarray : ∀ {a b}, σ a b → store.array? a = .ok none →
    store'.array? b = .ok none ∧ store'.definitionOrSelf b = store.definitionOrSelf a
  arguments : ∀ {a b args}, σ a b → store.arguments a = .ok args →
    ∃ args', store'.arguments b = .ok args' ∧ List.Forall₂ ρ args args'
  variance : ∀ {a b definition}, σ a b → store.array? a = .ok none →
    store.definitionOrSelf a = .ok definition → ∀ position,
      store'.declaredVariance definition position = store.declaredVariance definition position
  isReferenceType : ∀ {a b}, σ a b → store'.isReferenceType b = store.isReferenceType a
  isOptionalWrapper : ∀ {a b}, σ a b → store'.isOptionalWrapper b = store.isOptionalWrapper a
  isSequenceInstance : ∀ {a b}, σ a b →
    Assignability.isSequenceInstance store' b = Assignability.isSequenceInstance store a
  supertype : ∀ {a b super}, σ a b → store.Supertype a super →
    ∃ super', store'.Supertype b super' ∧ σ super super'

namespace Simulates

variable {store store' : Store} {sub sub' : Substitution} {ρ σ : Handle → Handle → Prop}
  {R R' : Handle → Handle → Prop} {source target source' target' : Handle}

theorem compatible (h : Simulates store store' sub sub' ρ σ)
    (hR : ∀ {a b c d}, ρ a b → ρ c d → R a c → R' b d) (hsource : ρ source source')
    (htarget : ρ target target') (hcompatible : Compatible store sub R source target) :
    Compatible store' sub' R' source' target' := by
  refine hcompatible.imp (h.identical hsource htarget) ?_
  rintro ⟨s, t, hrs, hrt, hsref, htref, hr⟩
  obtain ⟨s', hrs', hs⟩ := h.resolve hsource hrs
  obtain ⟨t', hrt', ht⟩ := h.resolve htarget hrt
  exact ⟨s', t', hrs', hrt', (h.isReferenceType hs).trans hsref, (h.isReferenceType ht).trans htref,
    hR (h.related hs) (h.related ht) hr⟩

theorem argumentsCompatible (h : Simulates store store' sub sub' ρ σ)
    (hR : ∀ {a b c d}, ρ a b → ρ c d → R a c → R' b d) {definition : Handle}
    (hsource : σ source source') (htarget : σ target target')
    (harray : store.array? target = .ok none)
    (hdefinition : store.definitionOrSelf target = .ok definition)
    (hargs : ArgumentsCompatible store sub R definition source target) :
    ArgumentsCompatible store' sub' R' definition source' target' := by
  obtain ⟨sourceArgs, targetArgs, hsa, hta, hlength, hall⟩ := hargs
  obtain ⟨sourceArgs', hsa', hsρ⟩ := h.arguments hsource hsa
  obtain ⟨targetArgs', hta', htρ⟩ := h.arguments htarget hta
  obtain ⟨hslength, hsρ⟩ := forall₂_iff_getElem?.mp hsρ
  obtain ⟨htlength, htρ⟩ := forall₂_iff_getElem?.mp htρ
  refine ⟨sourceArgs', targetArgs', hsa', hta', hslength.symm.trans (hlength.trans htlength),
    fun i x' y' hx' hy' => ?_⟩
  obtain ⟨x, hx⟩ := getElem?_of_length_eq hslength hx'
  obtain ⟨y, hy⟩ := getElem?_of_length_eq htlength hy'
  have hxρ := hsρ i x x' hx hx'
  have hyρ := htρ i y y' hy hy'
  obtain ⟨variance, hvariance, hcompatible⟩ := hall i x y hx hy
  refine ⟨variance, (h.variance htarget harray hdefinition i).trans hvariance, ?_⟩
  cases variance with
  | invariant => exact h.identical hxρ hyρ hcompatible
  | covariant => exact h.compatible hR hxρ hyρ hcompatible
  | contravariant => exact h.compatible hR hyρ hxρ hcompatible

theorem rule (h : Simulates store store' sub sub' ρ σ) (hs : store.Coherent)
    (hR : ∀ {a b c d}, ρ a b → ρ c d → R a c → R' b d) (hsource : σ source source')
    (htarget : σ target target') (hrule : Rule store sub R source target) :
    Rule store' sub' R' source' target' := by
  cases hrule with
  | identity hidentical =>
      exact .identity (h.identical (h.related hsource) (h.related htarget) hidentical)
  | root =>
      obtain rfl := h.root htarget
      exact .root
  | wrapper hwraps =>
      obtain ⟨inner, hwrapper, hargs, hidentical⟩ := hwraps
      obtain ⟨args', hargs', hρ⟩ := h.arguments htarget hargs
      obtain ⟨inner', rest, hinner, hrest, rfl⟩ := List.forall₂_cons_left_iff.mp hρ
      cases hrest
      exact .wrapper ⟨inner', (h.isOptionalWrapper htarget).trans hwrapper, hargs',
        h.identical (h.related hsource) hinner hidentical⟩
  | arrays hsa hta helement =>
      obtain ⟨_, hsa', hsρ⟩ := h.array hsource hsa
      obtain ⟨_, hta', htρ⟩ := h.array htarget hta
      exact .arrays hsa' hta' (h.compatible hR hsρ htρ helement)
  | sequence hsa hsequence =>
      obtain ⟨element, hinstance, hargs, helement⟩ := hsequence
      obtain ⟨_, hsa', hsρ⟩ := h.array hsource hsa
      obtain ⟨args', hargs', hρ⟩ := h.arguments htarget hargs
      obtain ⟨element', rest, htρ, hrest, rfl⟩ := List.forall₂_cons_left_iff.mp hρ
      cases hrest
      exact .sequence hsa' ⟨element', (h.isSequenceInstance htarget).trans hinstance, hargs',
        h.compatible hR hsρ htρ helement⟩
  | supertype harray hinherits =>
      obtain ⟨super, definition, hsuper, hd, hd', hargs⟩ := hinherits
      obtain ⟨super', hsuper', hσ⟩ := h.supertype hsource hsuper
      -- A type that shares the definition of a type that is no array is no array either.
      have hsuperArray := Store.array?_of_definitionOrSelf hs hd hd' harray
      obtain ⟨harray', htd⟩ := h.nonarray htarget harray
      exact .supertype harray' ⟨super', definition, hsuper',
        (h.nonarray hσ hsuperArray).2.trans hd, htd.trans hd',
        h.argumentsCompatible hR hσ htarget harray hd' hargs⟩

/-- What is assignable on one side of a simulation is assignable on the other. -/
theorem assignable (h : Simulates store store' sub sub' ρ σ) (hs : store.Coherent)
    (hsource : ρ source source') (htarget : ρ target target')
    (hsub : Sub store sub source target) : Sub store' sub' source' target' := by
  induction hsub generalizing source' target' with
  | derive hpremises hrs hrt hrule ih =>
      obtain ⟨s', hrs', hsσ⟩ := h.resolve hsource hrs
      obtain ⟨t', hrt', htσ⟩ := h.resolve htarget hrt
      exact .derive (fun _ _ hab => hab) hrs' hrt'
        (h.rule hs (fun hab hcd hr => ih _ _ hr hab hcd) hsσ htσ hrule)

end Simulates

/-- A set of types, closed under parts and supertypes, on which two stores agree and which neither of
two substitutions touches. -/
structure Agree (store store' : Store) (sub sub' : Substitution) (P : Handle → Prop) : Prop where
  entry : ∀ {type}, P type → store'.entry type = store.entry type
  resolve : ∀ {type}, P type → sub.resolve store type = .ok type
  resolve' : ∀ {type}, P type → sub'.resolve store' type = .ok type
  argument : ∀ {type form arg}, P type → store.form type = some form → arg ∈ form.arguments → P arg
  element : ∀ {type form element rank}, P type → store.form type = some form →
    form.array? = some (element, rank) → P element
  supertype : ∀ {type super}, P type → store.Supertype type super →
    P super ∧ store'.Supertype type super
  variance : ∀ {type definition}, P type → store.definitionOrSelf type = .ok definition →
    ∀ position, store'.declaredVariance definition position =
      store.declaredVariance definition position
  root : store'.root = store.root
  optionalWrapper : store'.optionalWrapper = store.optionalWrapper
  sequenceInterfaces : store'.sequenceInterfaces = store.sequenceInterfaces

namespace Agree

variable {store store' : Store} {sub sub' : Substitution} {P : Handle → Prop}
  {source target : Handle}

theorem form (h : Agree store store' sub sub' P) (hP : P source) :
    store'.form source = store.form source := by
  have hentry := h.entry hP
  rw [Store.entry, Store.entry] at hentry
  rw [Store.form, Store.form]
  cases hnew : store'.types[source]? <;> cases hold : store.types[source]? <;> simp_all

theorem definitionOrSelf (h : Agree store store' sub sub' P) (hP : P source) :
    store'.definitionOrSelf source = store.definitionOrSelf source := by
  simp only [Store.definitionOrSelf, Store.definition?, h.entry hP]

theorem isArray (h : Agree store store' sub sub' P) (hP : P source) {element : Handle} {rank : Nat}
    (harray : store.IsArray element rank source) :
    P element ∧ store'.IsArray element rank source := by
  obtain ⟨form, hform, helement, -⟩ := harray.exists_form
  refine ⟨h.element hP hform helement, ?_⟩
  exact Store.isArray_of_form ((h.form hP).trans hform) helement

theorem arguments (h : Agree store store' sub sub' P) (hP : P source) {args : List Handle}
    (hargs : store.arguments source = .ok args) :
    store'.arguments source = .ok args ∧ ∀ arg ∈ args, P arg := by
  refine ⟨by rw [← hargs, Store.arguments, Store.arguments, h.entry hP], fun arg harg => ?_⟩
  obtain ⟨entry, hentry, hargs⟩ := Query.bind_eq_ok.mp hargs
  obtain rfl := Query.pure_eq_ok.mp hargs
  have hform : store.form source = some entry.form :=
    Store.form_of_entry (Store.entry_eq_ok.mp hentry)
  exact h.argument hP hform (by rw [Entry.form_arguments]; exact harg)

theorem identical (h : Agree store store' sub sub' P) (hs : store.Coherent) (hsource : P source)
    (htarget : P target) (hidentical : Identical store sub source target) :
    Identical store' sub' source target := by
  obtain rfl := hidentical.eq_of_rigid hs (fun _ => h.resolve) (fun _ _ _ => h.argument)
    (fun _ _ _ _ => h.element) hsource htarget
  exact .same (h.resolve' hsource) (h.resolve' hsource)

theorem isOptionalWrapper (h : Agree store store' sub sub' P) (hP : P source) :
    store'.isOptionalWrapper source = store.isOptionalWrapper source := by
  rw [Store.isOptionalWrapper, Store.isOptionalWrapper, Store.definition?, Store.definition?,
    h.entry hP, h.optionalWrapper]

theorem isSequenceInstance (h : Agree store store' sub sub' P) (hP : P source) :
    Assignability.isSequenceInstance store' source =
      Assignability.isSequenceInstance store source := by
  rw [Assignability.isSequenceInstance, Assignability.isSequenceInstance, Store.definition?,
    Store.definition?, h.entry hP]
  simp only [Store.isSequenceInterface, h.sequenceInterfaces]

/-- Every type on which the stores agree is related to itself. -/
theorem simulates (h : Agree store store' sub sub' P) (hs : store.Coherent) :
    Simulates store store' sub sub' (fun a b => a = b ∧ P a) (fun a b => a = b ∧ P a) where
  resolve := by
    rintro a _ a' ⟨rfl, ha⟩ hresolve
    obtain rfl := Except.ok.inj ((h.resolve ha).symm.trans hresolve)
    exact ⟨a, h.resolve' ha, rfl, ha⟩
  related h := h
  identical := by
    rintro a _ c _ ⟨rfl, ha⟩ ⟨rfl, hc⟩ hidentical
    exact h.identical hs ha hc hidentical
  root := by
    rintro _ ⟨rfl, -⟩
    exact h.root.symm
  array := by
    rintro a _ element rank ⟨rfl, ha⟩ harray
    obtain ⟨helement, harray'⟩ := h.isArray ha harray
    exact ⟨element, harray', rfl, helement⟩
  nonarray := by
    rintro a _ ⟨rfl, ha⟩ harray
    exact ⟨by rw [← harray, Store.array?, Store.array?, h.entry ha], h.definitionOrSelf ha⟩
  arguments := by
    rintro a _ args ⟨rfl, ha⟩ hargs
    obtain ⟨hargs', hP⟩ := h.arguments ha hargs
    exact ⟨args, hargs', List.forall₂_same.mpr fun arg harg => ⟨rfl, hP arg harg⟩⟩
  variance := by
    rintro a _ definition ⟨rfl, ha⟩ - hdefinition
    exact h.variance ha hdefinition
  isReferenceType := by
    rintro a _ ⟨rfl, ha⟩
    rw [Store.isReferenceType, Store.isReferenceType, h.entry ha]
  isOptionalWrapper := by
    rintro a _ ⟨rfl, ha⟩
    exact h.isOptionalWrapper ha
  isSequenceInstance := by
    rintro a _ ⟨rfl, ha⟩
    exact h.isSequenceInstance ha
  supertype := by
    rintro a _ super ⟨rfl, ha⟩ hsuper
    obtain ⟨hP, hsuper'⟩ := h.supertype ha hsuper
    exact ⟨super, hsuper', rfl, hP⟩

/-- Assignability does not depend on what two stores agree on. -/
theorem assignable (h : Agree store store' sub sub' P) (hs : store.Coherent) (hsource : P source)
    (htarget : P target) (hsub : Sub store sub source target) : Sub store' sub' source target :=
  (h.simulates hs).assignable hs ⟨rfl, hsource⟩ ⟨rfl, htarget⟩ hsub

end Agree

section Growth

variable {store store' : Store} {type super : Handle}

theorem entry_of_later (hlater : store.Later store')
    (hclosed : ∀ {type : Handle} {entry}, store.types[type]? = some entry → entry.closed = true)
    (hlt : type < store.size) : store'.types[type]? = store.types[type]? := by
  obtain ⟨entry, hentry⟩ := Store.entry_of_lt hlt
  rw [hentry, hlater.closed hentry (hclosed hentry)]

/-- The supertypes of a type stay once it is closed. -/
theorem supertype_iff_of_later (hs : store.WellFormed) (hs' : store'.WellFormed)
    (hlater : store.Later store')
    (hclosed : ∀ {type : Handle} {entry}, store.types[type]? = some entry → entry.closed = true)
    (hlt : type < store.size) : store'.Supertype type super ↔ store.Supertype type super := by
  have hlinks : ∀ {t}, t < store.size → store'.links t = store.links t := fun ht => by
    rw [Store.links, Store.links, entry_of_later hlater hclosed ht]
  have hsteps : ∀ {n}, store'.BaseSteps n type super → store.BaseSteps n type super := by
    intro n h
    induction h with
    | zero => exact .zero
    | succ hl _ ih =>
        rw [hlinks hlt] at hl
        obtain ⟨entry, hentry, heq⟩ := Option.map_eq_some_iff.mp hl
        exact .succ hl (ih ((hs.inRange.links hentry).base _ (Prod.mk.inj heq).1))
  obtain ⟨entry, hentry⟩ := Store.entry_of_lt hlt
  have hentry' := (entry_of_later hlater hclosed hlt).trans hentry
  rw [Store.supertype_iff hs' hentry', Store.supertype_iff hs hentry]
  refine or_congr_left (exists_congr fun n => and_congr_right fun _ => ⟨hsteps, fun h => ?_⟩)
  refine h.mono fun t links hl => ?_
  obtain ⟨entry, hentry, -⟩ := Option.map_eq_some_iff.mp hl
  rw [hlinks (Array.getElem?_eq_some_iff.mp hentry).choose, hl]

theorem declaredVariance_of_later (hs : store.WellFormed) (hlater : store.Later store')
    (hclosed : ∀ {type : Handle} {entry}, store.types[type]? = some entry → entry.closed = true)
    {definition : Handle} (hlt : definition < store.size) (position : Nat) :
    store'.declaredVariance definition position = store.declaredVariance definition position := by
  obtain ⟨form, hform⟩ := Store.form_isSome hlt
  rw [Store.declaredVariance, Store.declaredVariance, Store.arguments_of_form hform,
    Store.arguments_of_form (hlater.extends.forms hform), Query.ok_bind, Query.ok_bind]
  cases hparam : form.arguments[position]? with
  | none => rfl
  | some param =>
      obtain ⟨_, hpart, -⟩ := hs.coherent.argument hform (List.mem_of_getElem? hparam)
      simp only [Store.param?, Store.entry,
        entry_of_later hlater hclosed (Store.form_lt hpart)]

/-- A later store agrees with a store whose types are closed on the types of the latter. -/
theorem agree_of_later (hs : store.WellFormed) (hs' : store'.WellFormed)
    (hlater : store.Later store')
    (hclosed : ∀ {type : Handle} {entry}, store.types[type]? = some entry → entry.closed = true) :
    Agree store store' .empty .empty (· < store.size) where
  entry hlt := by rw [Store.entry, Store.entry, entry_of_later hlater hclosed hlt]
  resolve hlt := Substitution.resolve_empty hlt
  resolve' hlt := Substitution.resolve_empty (Nat.lt_of_lt_of_le hlt hlater.size_le)
  argument _ hform harg := by
    obtain ⟨_, hpart, -⟩ := hs.coherent.argument hform harg
    exact Store.form_lt hpart
  element _ hform harray := by
    obtain ⟨_, hpart, -⟩ := hs.coherent.element hform harray
    exact Store.form_lt hpart
  supertype hlt hsuper :=
    ⟨hsuper.lt hs hlt, (supertype_iff_of_later hs hs' hlater hclosed hlt).mpr hsuper⟩
  variance {type definition} hlt hdefinition position := by
    refine declaredVariance_of_later hs hlater hclosed ?_ position
    obtain ⟨form, hform⟩ := Store.form_isSome hlt
    rw [Store.definitionOrSelf_of_form hform, Except.ok.injEq] at hdefinition
    exact hdefinition ▸ hs.coherent.definition_lt hform
  root := hlater.root
  optionalWrapper := hlater.optionalWrapper
  sequenceInterfaces := hlater.sequenceInterfaces

end Growth

end NominalGenerics.Assignability
