import NominalGenerics.Proofs.BoundCollection
import NominalGenerics.Proofs.Scoping

/-!
# Related templates match

A type that is related to a template under a substitution, as the flow of the comparison asks, also
matches it. The collector matches by its own cases and not by the rules of assignability, so this
needs that the comparisons it comes to are `Regular`: an array is compared with arrays and sequences
only, the search of a hierarchy finds the one instantiation there is, and no type is compared with
its own optional wrapper.
-/

namespace NominalGenerics

namespace Collection

open Assignability Store
open Substitution (Identical)

section Relations

variable (store : Store) (sub : Substitution)

/-- The two sides of a comparison are related under a substitution as its flow asks. -/
def Related (c : Comparison) : Prop :=
  match c.flow with
  | .invariant => Identical store sub c.source c.target
  | .covariant => Sub store sub c.source c.target
  | .contravariant => Sub store sub c.target c.source

/-- The collector covers the rules by which a derived type may be below a more general one. -/
structure Regular (derived base : Handle) : Prop where
  /-- The general side does not wrap the derived one. -/
  unwrapped : ¬ Wraps store sub derived base
  /-- Arrays are below other types by their elements only. -/
  arrays : ∀ shape, store.array? derived = .ok (some shape) → store.array? base = .ok none →
    base ≠ store.root ∧ ∀ super definition, store.Supertype derived super →
      store.definitionOrSelf super = .ok definition → store.definitionOrSelf base ≠ .ok definition
  /-- What a search finds is the only instantiation among the supertypes. -/
  unique : ∀ definition found, store.definitionOrSelf base = .ok definition →
    store.findImplementation derived definition = .ok (.found found) →
      ∀ super, store.Supertype derived super → store.definitionOrSelf super = .ok definition →
        super = found

/-- Matching a comparison goes down less than a number of levels. -/
def Shallow : Nat → Comparison → Prop
  | 0, _ => False
  | levels + 1, c => ∀ d, Nested store c d → store.isOpen d.target = .ok true → Shallow levels d

end Relations

section Queries

variable {store : Store} {type element : Handle}

theorem containerElement?_of_isArray {rank : Nat} (h : store.IsArray element rank type) :
    containerElement? store type rank = .ok (some element) := by
  obtain ⟨form, hform, harray, -⟩ := h.exists_form
  rw [containerElement?, array?_of_form hform, harray, Query.ok_bind]
  simp only [if_true]
  rfl

theorem containerElement?_of_sequence (hlt : type < store.size)
    (hsequence : isSequenceInstance store type = .ok true)
    (hargs : store.arguments type = .ok [element]) :
    containerElement? store type 1 = .ok (some element) := by
  obtain ⟨form, hform⟩ := form_isSome hlt
  obtain ⟨definition, hdefinition, -⟩ := definition?_of_isSequenceInstance hform hsequence
  rw [containerElement?, array?_of_form hform, array?_of_definition? hdefinition, Query.ok_bind]
  simp only [ne_eq, not_true_eq_false, if_false, hsequence, Query.ok_bind, if_true, hargs]
  rfl

/-- The element of a container is the element of an array or the only argument of an
instantiation. -/
theorem containerElement?_cases (hlt : type < store.size) {rank : Nat}
    (h : containerElement? store type rank = .ok (some element)) :
    ∃ form, store.form type = some form ∧
      (form.array? = some (element, rank) ∨
        rank = 1 ∧ isSequenceInstance store type = .ok true ∧
          ∃ definition, form.shape = .instantiation definition [element]) := by
  obtain ⟨form, hform⟩ := form_isSome hlt
  refine ⟨form, hform, ?_⟩
  rw [containerElement?, array?_of_form hform, Query.ok_bind] at h
  cases harray : form.array? with
  | some shape =>
      obtain ⟨element', rank'⟩ := shape
      rw [harray] at h
      have h : (if rank' = rank then some element' else none) = some element :=
        Query.pure_eq_ok.mp h
      obtain ⟨rfl, helement⟩ := Option.ite_none_right_eq_some.mp h
      exact Or.inl (by rw [Option.some.inj helement])
  | none =>
      rw [harray] at h
      simp only at h
      split at h
      · cases h
      · next hrank =>
        obtain ⟨sequence, hsequence, h⟩ := Query.bind_eq_ok.mp h
        cases sequence with
        | false => cases h
        | true =>
            obtain ⟨definition, hdefinition, hne, -⟩ :=
              definition?_of_isSequenceInstance hform hsequence
            rw [if_pos rfl, arguments_of_form hform, Query.ok_bind] at h
            split at h
            · next element' hargs =>
                obtain rfl := Option.some.inj (Query.pure_eq_ok.mp h)
                refine Or.inr ⟨Decidable.not_not.mp hrank, hsequence, definition, ?_⟩
                cases hshape : form.shape with
                | instantiation definition' args =>
                    simp only [Entry.definition?, Entry.arguments, hshape] at hdefinition hargs
                    rw [Option.some.inj hdefinition, hargs]
                | definition params =>
                    simp only [Entry.definition?, hshape] at hdefinition
                    exact absurd (Option.some.inj hdefinition).symm hne
                | named => simp [Entry.definition?, hshape] at hdefinition
                | array _ _ => simp [Entry.definition?, hshape] at hdefinition
                | parameter _ => simp [Entry.definition?, hshape] at hdefinition
            · cases h

/-- The element of a container mentions the parameters that the container mentions. -/
theorem containerElement?_open (hs : store.Coherent) (hlt : type < store.size) {rank : Nat}
    (h : containerElement? store type rank = .ok (some element))
    (hopen : store.isOpen type = .ok true) :
    element < store.size ∧ store.isOpen element = .ok true := by
  obtain ⟨form, hform, hcase⟩ := containerElement?_cases hlt h
  rw [isOpen_of_form hform, Except.ok.injEq] at hopen
  obtain harray | ⟨-, -, definition, hshape⟩ := hcase
  · obtain ⟨part, hpart, hpartOpen, -⟩ := hs.element hform harray
    exact ⟨form_lt hpart, by rw [isOpen_of_form hpart, hpartOpen, hopen]⟩
  · obtain ⟨-, -, parts, hparts, hpartsOpen, -⟩ := hs.instantiation hform hshape
    obtain ⟨part, rest, ⟨-, hpart⟩, hrest, rfl⟩ := List.forall₂_cons_left_iff.mp hparts
    obtain rfl := List.forall₂_nil_left_iff.mp hrest
    refine ⟨form_lt hpart, ?_⟩
    rw [isOpen_of_form hpart, ← hopen, hpartsOpen]
    simp

/-- A template that mentions parameters and is none itself is an array or applies a definition. -/
theorem Compound.cases (hs : store.Coherent) (h : Compound store type) :
    (∃ element rank, store.IsArray element rank type) ∨
      ∃ definition args, store.Applies definition args type := by
  obtain ⟨hparam, hopen⟩ := h
  obtain ⟨entry, hentry, hnone⟩ := Query.bind_eq_ok.mp hparam
  have hform : store.form type = some entry.form := form_of_entry (entry_eq_ok.mp hentry)
  have hnone : entry.param? = none := Query.pure_eq_ok.mp hnone
  rw [isOpen_of_form hform, Except.ok.injEq] at hopen
  cases hshape : entry.shape with
  | named =>
      cases (hs.named hform (Entry.form_shape_eq_named.mpr hshape)).1.symm.trans hopen
  | parameter info => simp [Entry.param?, hshape] at hnone
  | array element rank =>
      exact Or.inl ⟨element, rank, entry.form, hform, Entry.form_shape_eq_array.mpr hshape⟩
  | definition params =>
      exact Or.inr ⟨type, _, hs.applies_of_form hform (by
        rw [Entry.form_definition?, Entry.definition?, hshape])⟩
  | instantiation definition args =>
      exact Or.inr ⟨definition, _, hs.applies_of_form hform (by
        rw [Entry.form_definition?, Entry.definition?, hshape])⟩

theorem Compound.applies (hs : store.Coherent) (h : Compound store type)
    (harray : store.array? type = .ok none) : ∃ definition args, store.Applies definition args type := by
  refine (h.cases hs).resolve_left ?_
  rintro ⟨element, rank, hisArray⟩
  cases (array?_of_isArray hisArray).symm.trans harray

theorem Compound.ne_root (hs : store.Coherent) (h : Compound store type) : type ≠ store.root := by
  rintro rfl
  obtain ⟨form, hform, hshape⟩ := isNamed_root hs
  have hopen := h.2
  rw [isOpen_of_form hform, (hs.named hform hshape).1] at hopen
  cases hopen

theorem array?_of_not_hasArray {source target : Handle} (hsource : source < store.size)
    (htarget : target < store.size) (h : ¬ HasArray store source target) :
    store.array? source = .ok none ∧ store.array? target = .ok none := by
  obtain ⟨sform, hsform⟩ := form_isSome hsource
  obtain ⟨tform, htform⟩ := form_isSome htarget
  have hsa := array?_of_form hsform
  have hta := array?_of_form htform
  refine ⟨?_, ?_⟩
  · cases hshape : sform.array? with
    | none => rw [hsa, hshape]
    | some shape => exact absurd ⟨_, _, hsa, hta, by simp [hshape]⟩ h
  · cases hshape : tform.array? with
    | none => rw [hta, hshape]
    | some shape => exact absurd ⟨_, _, hsa, hta, by simp [hshape]⟩ h

/-- Compared exactly, the type and the template are instantiations of one definition. -/
theorem Instances.applies (hs : store.WellFormed) {source target definition : Handle}
    {sourceArgs targetArgs : List Handle} (hsource : source < store.size)
    (htarget : target < store.size) (hcompound : Compound store target)
    (harray : ¬ HasArray store source target)
    (h : Instances store ⟨source, target, .invariant⟩ definition sourceArgs targetArgs) :
    store.Applies definition targetArgs target ∧ store.Applies definition sourceArgs source := by
  obtain ⟨hsd, htd, hsargs, htargs⟩ := h
  obtain ⟨-, hnone⟩ := array?_of_not_hasArray hsource htarget harray
  obtain ⟨_, _, happlies⟩ := hcompound.applies hs.coherent hnone
  obtain ⟨htd', htargs', -⟩ := happlies.queries
  obtain rfl := Except.ok.inj (htd.symm.trans htd')
  obtain rfl := Except.ok.inj (htargs.symm.trans htargs')
  obtain ⟨_, hdefines, -⟩ := id happlies
  exact ⟨happlies, applies_of_definitionOrSelf hs.coherent hdefines hsource hsd hsargs⟩

end Queries

section Rules

variable {store : Store} {sub : Substitution} {derived base : Handle}

/-- A rule that relates an array to another type relates its elements to those of the other. -/
theorem elements_of_rule (hs : store.WellFormed) (hregular : Regular store sub derived base)
    (hderived : sub.resolve store derived = .ok derived)
    (hbase : sub.resolve store base = .ok base) (hbaselt : base < store.size)
    (harray : (∃ shape, store.array? derived = .ok (some shape)) ∨
      ∃ shape, store.array? base = .ok (some shape))
    (hrule : Rule store sub (Sub store sub) derived base) :
    ∃ rank derivedElement baseElement, store.IsArray derivedElement rank derived ∧
      containerElement? store base rank = .ok (some baseElement) ∧
      Compatible store sub (Sub store sub) derivedElement baseElement := by
  -- A general side that is no array leaves the array to the derived side.
  have hleft : store.array? base = .ok none → ∃ shape, store.array? derived = .ok (some shape) := by
    intro hnone
    refine harray.resolve_right ?_
    rintro ⟨shape, hshape⟩
    cases hnone.symm.trans hshape
  cases hrule with
  | identity hidentical =>
      obtain ⟨shape, hshape⟩ | ⟨shape, hshape⟩ := harray
      · obtain ⟨element, hb, helement⟩ :=
          hidentical.of_isArray hs.coherent hderived hbase (isArray_of_array? hshape)
        exact ⟨_, _, element, isArray_of_array? hshape, containerElement?_of_isArray hb,
          Or.inl helement⟩
      · obtain ⟨element, hd, helement⟩ :=
          hidentical.symm.of_isArray hs.coherent hbase hderived (isArray_of_array? hshape)
        exact ⟨_, element, _, hd, containerElement?_of_isArray (isArray_of_array? hshape),
          Or.inl helement.symm⟩
  | root =>
      have hnone := (isNamed_root hs.coherent).queries.1
      obtain ⟨shape, hshape⟩ := hleft hnone
      exact absurd rfl (hregular.arrays shape hshape hnone).1
  | wrapper hwraps => exact absurd hwraps hregular.unwrapped
  | arrays hd hb helement => exact ⟨_, _, _, hd, containerElement?_of_isArray hb, helement⟩
  | sequence hd hsequence =>
      obtain ⟨element, hinstance, hargs, helement⟩ := hsequence
      exact ⟨1, _, element, hd, containerElement?_of_sequence hbaselt hinstance hargs, helement⟩
  | supertype hnone hinherits =>
      obtain ⟨shape, hshape⟩ := hleft hnone
      obtain ⟨super, definition, hsuper, hd, hb, -⟩ := hinherits
      exact absurd hb ((hregular.arrays shape hshape hnone).2 super definition hsuper hd)

/-- Identical arguments are compatible for every variance. -/
theorem argumentCompatible_of_identical {R : Handle → Handle → Prop} {x y : Handle}
    (h : Identical store sub x y) (variance : Variance) :
    ArgumentCompatible store sub R x y variance := by
  cases variance with
  | invariant => exact h
  | covariant => exact Or.inl h
  | contravariant => exact Or.inl h.symm

/-- A rule that relates two types that are no arrays relates the arguments of what the search finds,
unless the search is ambiguous. -/
theorem search_of_rule (hs : store.WellFormed) (hregular : Regular store sub derived base)
    (hderived : sub.resolve store derived = .ok derived)
    (hbase : sub.resolve store base = .ok base) (hlt : derived < store.size)
    (hderivedArray : store.array? derived = .ok none) (hbaseArray : store.array? base = .ok none)
    (hdefinition : ∃ definition args, store.Applies definition args derived ∨
      store.Applies definition args base)
    (hrule : Rule store sub (Sub store sub) derived base) :
    ∃ definition, store.definitionOrSelf base = .ok definition ∧
      ((∃ types, store.findImplementation derived definition = .ok (.ambiguous types)) ∨
        ∃ found, store.findImplementation derived definition = .ok (.found found) ∧
          ArgumentsCompatible store sub (Sub store sub) definition found base) := by
  cases hrule with
  | identity hidentical =>
      obtain ⟨definition, dargs, bargs, hd, hb, hargs⟩ : ∃ definition dargs bargs,
          store.Applies definition dargs derived ∧ store.Applies definition bargs base ∧
            ∀ (i : Nat) x y, dargs[i]? = some x → bargs[i]? = some y →
              Identical store sub x y := by
        obtain ⟨definition, args, hd | hb⟩ := hdefinition
        · obtain ⟨bargs, hb, hargs⟩ := hidentical.of_applies hs.coherent hderived hbase hd
          exact ⟨definition, args, bargs, hd, hb, hargs⟩
        · obtain ⟨dargs, hd, hargs⟩ := hidentical.symm.of_applies hs.coherent hbase hderived hb
          exact ⟨definition, dargs, args, hd, hb, fun i x y hx hy => (hargs i y x hy hx).symm⟩
      obtain ⟨hddef, hdargs, -⟩ := hd.queries
      obtain ⟨hbdef, hbargs, -⟩ := hb.queries
      refine ⟨definition, hbdef, Or.inr ⟨derived, findImplementation_self hs hlt hddef, dargs, bargs,
        hdargs, hbargs, hd.length_eq hb, fun i x y hx hy => ?_⟩⟩
      obtain ⟨_, ⟨form, hform, -⟩, -⟩ := hd
      obtain ⟨variance, hvariance⟩ := declaredVariance_total hs.coherent (form_lt hform) i
      exact ⟨variance, hvariance, argumentCompatible_of_identical (hargs i x y hx hy) variance⟩
  | root =>
      obtain ⟨-, hroot, hargs, -⟩ := (isNamed_root hs.coherent).queries
      exact ⟨store.root, hroot, Or.inr ⟨store.root, findImplementation_root hs hlt, [], [], hargs,
        hargs, rfl, by simp⟩⟩
  | wrapper hwraps => exact absurd hwraps hregular.unwrapped
  | arrays hd _ _ => cases (array?_of_isArray hd).symm.trans hderivedArray
  | sequence hd _ => cases (array?_of_isArray hd).symm.trans hderivedArray
  | supertype _ hinherits =>
      obtain ⟨super, definition, hsuper, hd, hb, hargs⟩ := hinherits
      refine ⟨definition, hb, (findImplementation_of_supertype hs hlt hsuper hd).imp_right ?_⟩
      rintro ⟨found, hfound⟩
      obtain rfl := hregular.unique definition found hb hfound super hsuper hd
      exact ⟨super, hfound, hargs⟩

end Rules

section Comparisons

variable {store : Store} {sub : Substitution} {source target : Handle} {flow : Flow}

theorem related_of_identical (hs : store.Coherent) (hsub : sub.BindsClosed store)
    (hsource : source < store.size) (htarget : target < store.size)
    (h : Identical store sub source target) (flow : Flow) :
    Related store sub ⟨source, target, flow⟩ := by
  obtain ⟨source', hrs, -⟩ := Substitution.resolve_cases sub hsource
  obtain ⟨target', hrt, -⟩ := Substitution.resolve_cases sub htarget
  have hresolved := h.resolved hs hsub hsource htarget hrs hrt
  cases flow with
  | invariant => exact h
  | covariant => exact sub_iff.mpr ⟨source', target', hrs, hrt, .identity hresolved⟩
  | contravariant => exact sub_iff.mpr ⟨target', source', hrt, hrs, .identity hresolved.symm⟩

theorem isValueType_of_isReferenceType (h : store.isReferenceType source = .ok true) :
    store.isValueType source = .ok false := by
  obtain ⟨entry, hentry, h⟩ := Query.bind_eq_ok.mp h
  have hvalue : entry.flags.valueType = false := by
    have h := Query.pure_eq_ok.mp h
    simp only [Bool.and_eq_true, Bool.not_eq_true'] at h
    exact h.1
  rw [Store.isValueType, Store.flags, hentry]
  exact congrArg Except.ok hvalue

/-- Compatible elements are related in the flow in which the collector compares them. -/
theorem related_of_compatible (hs : store.Coherent) (hsub : sub.BindsClosed store)
    (hsource : source < store.size) (htarget : target < store.size)
    (hfixed : sub.resolve store source = .ok source) {valueType : Bool}
    (hvalue : store.isValueType source = .ok valueType)
    (hinvariant : flow = .invariant → Identical store sub source target)
    (hcovariant : flow = .covariant → Compatible store sub (Sub store sub) source target)
    (hcontravariant : flow = .contravariant → Compatible store sub (Sub store sub) target source) :
    Related store sub ⟨source, target, if valueType then .invariant else flow⟩ := by
  obtain ⟨target', hrt, -⟩ := Substitution.resolve_cases sub htarget
  have hrt' := Substitution.resolve_resolved hs hsub htarget hrt
  -- A source that is not identical to the target is a reference type, so it keeps the direction.
  have hdirected : store.isReferenceType source = .ok true → valueType = false := fun h =>
    Except.ok.inj (hvalue.symm.trans (isValueType_of_isReferenceType h))
  cases flow with
  | invariant =>
      rw [ite_self]
      exact hinvariant rfl
  | covariant =>
      obtain h | ⟨_, _, hrs, hrt₁, href, -, hrel⟩ := hcovariant rfl
      · exact related_of_identical hs hsub hsource htarget h _
      · obtain rfl := Except.ok.inj (hfixed.symm.trans hrs)
        obtain rfl := Except.ok.inj (hrt.symm.trans hrt₁)
        rw [hdirected href, if_neg (by simp)]
        obtain ⟨_, _, hrs₂, hrt₂, hrule⟩ := sub_iff.mp hrel
        obtain rfl := Except.ok.inj (hrt'.symm.trans hrt₂)
        exact sub_iff.mpr ⟨_, _, hrs₂, hrt, hrule⟩
  | contravariant =>
      obtain h | ⟨_, _, hrt₁, hrs, -, href, hrel⟩ := hcontravariant rfl
      · exact related_of_identical hs hsub hsource htarget h.symm _
      · obtain rfl := Except.ok.inj (hfixed.symm.trans hrs)
        obtain rfl := Except.ok.inj (hrt.symm.trans hrt₁)
        rw [hdirected href, if_neg (by simp)]
        obtain ⟨_, _, hrt₂, hrs₂, hrule⟩ := sub_iff.mp hrel
        obtain rfl := Except.ok.inj (hrt'.symm.trans hrt₂)
        exact sub_iff.mpr ⟨_, _, hrt, hrs₂, hrule⟩

/-- Compatible arguments are related in the flow in which the collector compares them. -/
theorem related_of_argumentCompatible (hs : store.Coherent) (hsub : sub.BindsClosed store)
    (hsource : source < store.size) (htarget : target < store.size)
    (hfixed : sub.resolve store source = .ok source) {valueType : Bool} {variance : Variance}
    (hvalue : store.isValueType source = .ok valueType)
    (hinvariant : flow = .invariant → Identical store sub source target)
    (hcovariant : flow = .covariant →
      ArgumentCompatible store sub (Sub store sub) source target variance)
    (hcontravariant : flow = .contravariant →
      ArgumentCompatible store sub (Sub store sub) target source variance) :
    Related store sub ⟨source, target, flow.combine variance valueType⟩ := by
  cases flow with
  | invariant =>
      rw [Flow.combine, ite_self]
      exact hinvariant rfl
  | covariant =>
      have h := hcovariant rfl
      cases variance with
      | invariant =>
          exact related_of_compatible hs hsub hsource htarget hfixed hvalue (fun _ => h) nofun nofun
      | covariant =>
          exact related_of_compatible hs hsub hsource htarget hfixed hvalue nofun (fun _ => h) nofun
      | contravariant =>
          exact related_of_compatible hs hsub hsource htarget hfixed hvalue nofun nofun fun _ => h
  | contravariant =>
      have h := hcontravariant rfl
      cases variance with
      | invariant =>
          exact related_of_compatible hs hsub hsource htarget hfixed hvalue (fun _ => h.symm) nofun
            nofun
      | covariant =>
          exact related_of_compatible hs hsub hsource htarget hfixed hvalue nofun nofun fun _ => h
      | contravariant =>
          exact related_of_compatible hs hsub hsource htarget hfixed hvalue nofun (fun _ => h) nofun

end Comparisons

section Templates

variable {store : Store} {signature : Signature} {types : List Handle}

theorem outside_argument (hs : store.WellFormed) (hcallable : store.HasCallable signature)
    {type arg : Handle} {args : List Handle} (h : store.Outside signature type)
    (hargs : store.arguments type = .ok args) (harg : arg ∈ args) :
    store.Outside signature arg := by
  obtain ⟨form, hform⟩ := form_isSome h.1
  rw [arguments_of_form hform, Except.ok.injEq] at hargs
  subst hargs
  obtain ⟨_, hpart, -⟩ := hs.coherent.argument hform harg
  exact ⟨form_lt hpart, h.2.argument hs.coherent hcallable hform harg⟩

theorem outside_container (hs : store.WellFormed) (hcallable : store.HasCallable signature)
    {type element : Handle} {rank : Nat} (h : store.Outside signature type)
    (helement : containerElement? store type rank = .ok (some element)) :
    store.Outside signature element := by
  obtain ⟨form, hform, harray | ⟨-, -, definition, hshape⟩⟩ := containerElement?_cases h.1 helement
  · obtain ⟨_, hpart, -⟩ := hs.coherent.element hform harray
    exact ⟨form_lt hpart, h.2.element hform harray⟩
  · refine outside_argument hs hcallable h (arguments_of_form hform) ?_
    rw [Entry.arguments, hshape]
    exact List.mem_singleton.mpr rfl

theorem outside_found (hs : store.WellFormed) (hcallable : store.HasCallable signature)
    (hscoped : store.Scoped signature) {type other definition found : Handle}
    (h : store.Outside signature type) (hother : other < store.size)
    (hd : store.definitionOrSelf other = .ok definition)
    (hfound : store.findImplementation type definition = .ok (.found found)) :
    store.Outside signature found := by
  obtain ⟨_, hd', -, hself⟩ := definitionOrSelf_total hs hother
  obtain rfl := Except.ok.inj (hd.symm.trans hd')
  obtain ⟨result, hresult, hcase⟩ := findImplementation_total hs h.1 hself
  obtain rfl := Except.ok.inj (hresult.symm.trans hfound)
  obtain ⟨-, hsuper | ⟨rfl, -⟩⟩ := hcase found rfl
  · exact ⟨hsuper.lt hs h.1, hscoped type found hsuper h.2⟩
  · obtain ⟨form, hform, hshape⟩ := isNamed_root hs.coherent
    have hclosed := (hs.coherent.named hform hshape).1
    exact ⟨form_lt hform, avoids_of_closed hs.coherent hcallable hform hclosed⟩

theorem Compound.resolve {type : Handle} (h : Compound store type) (sub : Substitution) :
    sub.resolve store type = .ok type := by
  rw [Substitution.resolve, h.1]
  rfl

/-- Related types of which one is an array have related elements. -/
theorem elements_of_related (hs : store.WellFormed) (hcallable : store.HasCallable signature)
    (hsub : (signature.binding types).BindsClosed store) {c : Comparison}
    (hcompound : Compound store c.target) (harray : HasArray store c.source c.target)
    (hsource : store.Outside signature c.source) (htarget : c.target < store.size)
    (hregular : c.flow ≠ .invariant → Regular store (signature.binding types) c.derived c.base)
    (hrelated : Related store (signature.binding types) c) :
    ∃ d, Elements store c d ∧ Related store (signature.binding types) d ∧
      store.Outside signature d.source ∧ d.target < store.size ∧
      store.isOpen d.target = .ok true := by
  obtain ⟨source, target, flow⟩ := c
  have hrs := hsource.2.resolve hs.coherent hcallable hsource.1 types
  have hrt := hcompound.resolve (signature.binding types)
  have hshapes : (∃ shape, store.array? source = .ok (some shape)) ∨
      ∃ shape, store.array? target = .ok (some shape) := by
    obtain ⟨s, t, hsa, hta, h⟩ := harray
    rcases (Bool.or_eq_true _ _).mp h with h | h
    · obtain ⟨shape, rfl⟩ := Option.isSome_iff_exists.mp h
      exact Or.inl ⟨shape, hsa⟩
    · obtain ⟨shape, rfl⟩ := Option.isSome_iff_exists.mp h
      exact Or.inr ⟨shape, hta⟩
  cases flow with
  | invariant =>
      obtain ⟨rank, sourceElement, targetElement, hsa, hta, helement⟩ :
          ∃ rank sourceElement targetElement, store.IsArray sourceElement rank source ∧
            store.IsArray targetElement rank target ∧
            Identical store (signature.binding types) sourceElement targetElement := by
        obtain ⟨shape, hshape⟩ | ⟨shape, hshape⟩ := hshapes
        · obtain ⟨element, hta, helement⟩ := Identical.of_isArray hs.coherent hrelated hrs hrt
            (isArray_of_array? hshape)
          exact ⟨_, _, element, isArray_of_array? hshape, hta, helement⟩
        · obtain ⟨element, hsa, helement⟩ := Identical.of_isArray hs.coherent hrelated.symm hrt hrs
            (isArray_of_array? hshape)
          exact ⟨_, element, _, hsa, isArray_of_array? hshape, helement.symm⟩
      obtain ⟨hlt, hopen⟩ := containerElement?_open hs.coherent htarget
        (containerElement?_of_isArray hta) hcompound.2
      exact ⟨⟨sourceElement, targetElement, .invariant⟩,
        ⟨rfl, rank, array?_of_isArray hsa, array?_of_isArray hta⟩, helement,
        outside_container hs hcallable hsource (containerElement?_of_isArray hsa), hlt, hopen⟩
  | covariant =>
      obtain ⟨_, _, hrs', hrt', hrule⟩ := sub_iff.mp hrelated
      obtain rfl := Except.ok.inj (hrs.symm.trans hrs')
      obtain rfl := Except.ok.inj (hrt.symm.trans hrt')
      obtain ⟨rank, sourceElement, targetElement, hsa, htc, helement⟩ :=
        elements_of_rule hs (hregular (by simp)) hrs hrt htarget hshapes hrule
      have hout := outside_container hs hcallable hsource (containerElement?_of_isArray hsa)
      obtain ⟨hlt, hopen⟩ := containerElement?_open hs.coherent htarget htc hcompound.2
      obtain ⟨valueType, hvalue⟩ := isValueType_total hout.1
      refine ⟨⟨sourceElement, targetElement, if valueType then .invariant else .covariant⟩,
        ⟨sourceElement, rank, valueType, array?_of_isArray hsa, containerElement?_of_isArray hsa, htc,
          hvalue, rfl⟩, ?_, hout, hlt, hopen⟩
      exact related_of_compatible hs.coherent hsub hout.1 hlt
        (hout.2.resolve hs.coherent hcallable hout.1 types) hvalue nofun (fun _ => helement) nofun
  | contravariant =>
      obtain ⟨_, _, hrt', hrs', hrule⟩ := sub_iff.mp hrelated
      obtain rfl := Except.ok.inj (hrs.symm.trans hrs')
      obtain rfl := Except.ok.inj (hrt.symm.trans hrt')
      obtain ⟨rank, targetElement, sourceElement, hta, hsc, helement⟩ :=
        elements_of_rule hs (hregular (by simp)) hrt hrs hsource.1 hshapes.symm hrule
      have hout := outside_container hs hcallable hsource hsc
      obtain ⟨hlt, hopen⟩ := containerElement?_open hs.coherent htarget
        (containerElement?_of_isArray hta) hcompound.2
      obtain ⟨valueType, hvalue⟩ := isValueType_total hout.1
      refine ⟨⟨sourceElement, targetElement, if valueType then .invariant else .contravariant⟩,
        ⟨targetElement, rank, valueType, array?_of_isArray hta, hsc, containerElement?_of_isArray hta,
          hvalue, rfl⟩, ?_, hout, hlt, hopen⟩
      exact related_of_compatible hs.coherent hsub hout.1 hlt
        (hout.2.resolve hs.coherent hcallable hout.1 types) hvalue nofun nofun fun _ => helement

/-- The arguments at one position are related in the flow in which the collector compares them. -/
def RelatedArgument (store : Store) (signature : Signature) (sub : Substitution) (flow : Flow)
    (definition : Handle) (position : Nat) (source target : Handle) : Prop :=
  ∃ argumentFlow, ArgumentAt store flow definition position ⟨source, target, argumentFlow⟩ ∧
    Related store sub ⟨source, target, argumentFlow⟩ ∧ store.Outside signature source ∧
    target < store.size

/-- Related types that are no arrays have related arguments, unless the search for them is
ambiguous. -/
theorem instances_of_related (hs : store.WellFormed) (hcallable : store.HasCallable signature)
    (hscoped : store.Scoped signature) (hsub : (signature.binding types).BindsClosed store)
    {c : Comparison} (hcompound : Compound store c.target)
    (harray : ¬ HasArray store c.source c.target)
    (hsource : store.Outside signature c.source) (htarget : c.target < store.size)
    (hregular : c.flow ≠ .invariant → Regular store (signature.binding types) c.derived c.base)
    (hrelated : Related store (signature.binding types) c) :
    Ambiguous store c ∨ ∃ definition sourceArgs targetArgs,
      Instances store c definition sourceArgs targetArgs ∧ sourceArgs.length = targetArgs.length ∧
        ∀ (i : Nat) x y, sourceArgs[i]? = some x → targetArgs[i]? = some y →
          RelatedArgument store signature (signature.binding types) c.flow definition i x y := by
  obtain ⟨source, target, flow⟩ := c
  have hrs := hsource.2.resolve hs.coherent hcallable hsource.1 types
  have hrt := hcompound.resolve (signature.binding types)
  obtain ⟨hsa, hta⟩ := array?_of_not_hasArray hsource.1 htarget harray
  obtain ⟨definition, args, happlies⟩ := hcompound.applies hs.coherent hta
  -- The flow of an argument is determined by its variance and by its source.
  have hargument : ∀ {definition : Handle} {x y : Handle} {i : Nat} {variance : Variance},
      store.declaredVariance definition i = .ok variance → store.Outside signature x →
      y < store.size →
      (flow = .invariant → Identical store (signature.binding types) x y) →
      (flow = .covariant → ArgumentCompatible store (signature.binding types)
        (Sub store (signature.binding types)) x y variance) →
      (flow = .contravariant → ArgumentCompatible store (signature.binding types)
        (Sub store (signature.binding types)) y x variance) →
      RelatedArgument store signature (signature.binding types) flow definition i x y := by
    intro definition x y i variance hvariance hx hy hinv hcov hcon
    obtain ⟨valueType, hvalue⟩ := isValueType_total hx.1
    exact ⟨flow.combine variance valueType, ⟨variance, valueType, hvariance, hvalue, rfl⟩,
      related_of_argumentCompatible hs.coherent hsub hx.1 hy
        (hx.2.resolve hs.coherent hcallable hx.1 types) hvalue hinv hcov hcon, hx, hy⟩
  cases flow with
  | invariant =>
      obtain ⟨sargs, hsapplies, hargs⟩ := Identical.of_applies hs.coherent hrelated.symm hrt hrs happlies
      obtain ⟨hsd, hsargs, -⟩ := hsapplies.queries
      obtain ⟨htd, htargs, -⟩ := happlies.queries
      refine Or.inr ⟨definition, sargs, args, ⟨hsd, htd, hsargs, htargs⟩,
        hsapplies.length_eq happlies, fun i x y hx hy => ?_⟩
      obtain ⟨_, ⟨dform, hdform, -⟩, -⟩ := happlies
      obtain ⟨variance, hvariance⟩ := declaredVariance_total hs.coherent (form_lt hdform) i
      obtain ⟨targs, htargs', hall⟩ := arguments_total hs htarget
      obtain rfl := Except.ok.inj (htargs.symm.trans htargs')
      exact hargument hvariance
        (outside_argument hs hcallable hsource hsargs (List.mem_of_getElem? hx))
        (hall y (List.mem_of_getElem? hy)) (fun _ => (hargs i y x hy hx).symm) nofun nofun
  | covariant =>
      obtain ⟨_, _, hrs', hrt', hrule⟩ := sub_iff.mp hrelated
      obtain rfl := Except.ok.inj (hrs.symm.trans hrs')
      obtain rfl := Except.ok.inj (hrt.symm.trans hrt')
      obtain ⟨definition, hd, ⟨candidates, hambiguous⟩ | ⟨found, hfound, sargs, targs, hsargs, htargs,
        hlength, hargs⟩⟩ := search_of_rule hs (hregular (by simp)) hrs hrt hsource.1 hsa hta
          ⟨definition, args, Or.inr happlies⟩ hrule
      · exact Or.inl ⟨definition, candidates, hd, hambiguous⟩
      · refine Or.inr ⟨definition, sargs, targs, ⟨hd, htargs, found, hfound, hsargs⟩, hlength,
          fun i x y hx hy => ?_⟩
        obtain ⟨variance, hvariance, hcompatible⟩ := hargs i x y hx hy
        have hout := outside_found hs hcallable hscoped hsource htarget hd hfound
        obtain ⟨_, htargs', hall⟩ := arguments_total hs htarget
        obtain rfl := Except.ok.inj (htargs.symm.trans htargs')
        exact hargument hvariance (outside_argument hs hcallable hout hsargs (List.mem_of_getElem? hx))
          (hall y (List.mem_of_getElem? hy)) nofun (fun _ => hcompatible) nofun
  | contravariant =>
      obtain ⟨_, _, hrt', hrs', hrule⟩ := sub_iff.mp hrelated
      obtain rfl := Except.ok.inj (hrs.symm.trans hrs')
      obtain rfl := Except.ok.inj (hrt.symm.trans hrt')
      obtain ⟨definition, hd, ⟨candidates, hambiguous⟩ | ⟨found, hfound, targs, sargs, htargs, hsargs,
        hlength, hargs⟩⟩ := search_of_rule hs (hregular (by simp)) hrt hrs htarget hta hsa
          ⟨definition, args, Or.inl happlies⟩ hrule
      · exact Or.inl ⟨definition, candidates, hd, hambiguous⟩
      · refine Or.inr ⟨definition, sargs, targs, ⟨hd, hsargs, found, hfound, htargs⟩, hlength.symm,
          fun i x y hx hy => ?_⟩
        obtain ⟨variance, hvariance, hcompatible⟩ := hargs i y x hy hx
        obtain ⟨_, hd', -, hself⟩ := definitionOrSelf_total hs hsource.1
        obtain rfl := Except.ok.inj (hd.symm.trans hd')
        obtain ⟨_, htargs', hall⟩ := arguments_total hs (found_lt hs htarget hself hfound)
        obtain rfl := Except.ok.inj (htargs.symm.trans htargs')
        exact hargument hvariance
          (outside_argument hs hcallable hsource hsargs (List.mem_of_getElem? hx))
          (hall y (List.mem_of_getElem? hy)) nofun nofun fun _ => hcompatible

/-- Types that mention no type parameter of the callable are related as concrete types. -/
theorem relateConcrete_of_related (hs : store.WellFormed) (hcallable : store.HasCallable signature)
    (hscoped : store.Scoped signature) {c : Comparison} (hsource : store.Outside signature c.source)
    (htarget : store.Outside signature c.target)
    (hlimits : c.flow ≠ .invariant → WithinLimits store .empty c.derived c.base)
    (hrelated : Related store (signature.binding types) c) :
    relateConcrete store c.source c.target c.flow = .ok true := by
  have hagree := agree_avoiding hs hcallable hscoped types
  obtain ⟨source, target, flow⟩ := c
  cases flow with
  | invariant =>
      obtain rfl : source = target :=
        eq_of_identical_outside hs hcallable hscoped hrelated hsource htarget
      simp [relateConcrete, pure, Except.pure]
  | covariant =>
      obtain ⟨answer, hanswer, -, hcomplete⟩ := isAssignable_decides hs hsource.1 htarget.1
      rw [relateConcrete, hanswer, hcomplete (hlimits (by simp))
        (hagree.assignable hs.coherent hsource htarget hrelated)]
  | contravariant =>
      obtain ⟨answer, hanswer, -, hcomplete⟩ := isAssignable_decides hs htarget.1 hsource.1
      rw [relateConcrete, hanswer, hcomplete (hlimits (by simp))
        (hagree.assignable hs.coherent htarget hsource hrelated)]

/-- What collection asks of a set of comparisons that it is closed under: they are regular, and no
limit of assignability is hit. -/
structure Covered (store : Store) (sub : Substitution) (C : Comparison → Prop) : Prop where
  nested : ∀ c d, C c → Nested store c d → C d
  regular : ∀ c, C c → Compound store c.target → c.flow ≠ .invariant →
    Regular store sub c.derived c.base
  limits : ∀ c, C c → c.flow ≠ .invariant → WithinLimits store .empty c.derived c.base

/-- Related types match. -/
theorem matches_of_related (hs : store.WellFormed) (hcallable : store.HasCallable signature)
    (hdeclaring : signature.declaringType = none) (hscoped : store.Scoped signature)
    (hsub : (signature.binding types).BindsClosed store) {C : Comparison → Prop}
    (hcovered : Covered store (signature.binding types) C) {levels : Nat} {c : Comparison}
    (hc : C c) (hsource : store.Outside signature c.source) (htarget : c.target < store.size)
    (hrelated : Related store (signature.binding types) c) (hshallow : Shallow store levels c) :
    Matches store signature (fun position _ _ => position < signature.typeParams.length) levels
      c := by
  induction levels generalizing c with
  | zero => exact hshallow.elim
  | succ levels ih =>
      obtain ⟨entry, hentry⟩ := entry_of_lt htarget
      obtain ⟨tform, htform⟩ := form_isSome htarget
      have hparam : store.param? c.target = .ok entry.param? := query_of_entry hentry (·.param?)
      have hopen := isOpen_of_form htform
      cases hinfo : entry.param? with
      | some info =>
          rw [hinfo] at hparam
          by_cases howner : info.owner = .callable signature.id
          · refine .own hparam howner ?_
            have hposition := hcallable.position_of_owner hs.coherent hparam howner
            exact (List.getElem?_eq_some_iff.mp hposition).choose
          · refine .foreign hparam howner (Inference.enclosingArgument_of_none hdeclaring htarget) ?_
            exact relateConcrete_of_related hs hcallable hscoped hsource
              ⟨htarget, avoids_of_owner hs.coherent hcallable (paramAt_of_param? hparam) howner⟩
              (hcovered.limits c hc) hrelated
      | none =>
          rw [hinfo] at hparam
          cases htemplate : tform.isOpen with
          | false =>
              rw [htemplate] at hopen
              refine .concrete hparam hopen ?_
              exact relateConcrete_of_related hs hcallable hscoped hsource
                ⟨htarget, avoids_of_closed hs.coherent hcallable htform htemplate⟩
                (hcovered.limits c hc) hrelated
          | true =>
              rw [htemplate] at hopen
              have hcompound : Compound store c.target := ⟨hparam, hopen⟩
              have hregular := hcovered.regular c hc hcompound
              by_cases harray : HasArray store c.source c.target
              · obtain ⟨d, helements, hrel, hds, hdt, hdopen⟩ := elements_of_related hs hcallable hsub
                  hcompound harray hsource htarget hregular hrelated
                have hnested : Nested store c d := .element hcompound harray helements
                exact .elements hcompound harray helements
                  (ih (hcovered.nested c d hc hnested) hds hdt hrel (hshallow d hnested hdopen))
              · obtain hambiguous | ⟨definition, sargs, targs, hinstances, hlength, hargs⟩ :=
                  instances_of_related hs hcallable hscoped hsub hcompound harray hsource htarget
                    hregular hrelated
                · exact .ambiguous hcompound harray hambiguous
                · refine .arguments hcompound harray hinstances ⟨hlength, fun i x y hx hy => ?_⟩
                  obtain ⟨argumentFlow, hat, hrel, hxout, hylt⟩ := hargs i x y hx hy
                  have hnested : Nested store c ⟨x, y, argumentFlow⟩ :=
                    .argument hcompound harray hinstances hx hy hat
                  have hd := hcovered.nested c _ hc hnested
                  obtain ⟨yform, hyform⟩ := form_isSome hylt
                  have hyopen := isOpen_of_form hyform
                  refine ⟨argumentFlow, hat, ?_⟩
                  cases hytemplate : yform.isOpen with
                  | true =>
                      rw [hytemplate] at hyopen
                      exact Or.inl ⟨hyopen, ih hd hxout hylt hrel (hshallow _ hnested hyopen)⟩
                  | false =>
                      rw [hytemplate] at hyopen
                      refine Or.inr ⟨hyopen, ?_⟩
                      exact relateConcrete_of_related (c := ⟨x, y, argumentFlow⟩) hs hcallable hscoped
                        hxout ⟨hylt, avoids_of_closed hs.coherent hcallable hyform hytemplate⟩
                        (hcovered.limits _ hd) hrel

end Templates

end Collection

end NominalGenerics
