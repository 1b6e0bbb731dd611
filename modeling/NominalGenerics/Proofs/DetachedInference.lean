import NominalGenerics.Proofs.ConstraintSatisfaction
import NominalGenerics.Proofs.DetachedTemplates
import NominalGenerics.Proofs.Fixing

/-!
# Inference for a callable inside a generic type

The type arguments of a call of a callable inside an instantiation are those of the callable outside
that has the arguments of the instantiation put in. Every step of the inference is taken in parallel:
the steps of the two callables give the same outcome, the same bounds and the same fixed types.

The parameters of the enclosing type are resolved at each step anew, and only where a template is such
a parameter itself. So this holds of calls that are `Direct`: no template becomes concrete by putting
the arguments in, and no result is wrapped by it.
-/

namespace NominalGenerics

open Assignability (Sub)
open Collection (Direct Compound Nested enclosingArgument)

namespace Store

variable {store : Store} {type part : Handle}

/-- A type of the store that mentions no parameter. -/
def IsClosed (store : Store) (type : Handle) : Prop := store.isOpen type = .ok false

/-- What a closed type inherits is closed. -/
def InheritsClosed (store : Store) : Prop :=
  ∀ type super, store.IsClosed type → store.Supertype type super → store.IsClosed super

theorem isClosed_iff : store.IsClosed type ↔
    ∃ form, store.form type = some form ∧ form.isOpen = false := by
  refine ⟨form_of_isOpen, ?_⟩
  rintro ⟨form, hform, hclosed⟩
  rw [IsClosed, isOpen_of_form hform, hclosed]

theorem IsClosed.lt (h : store.IsClosed type) : type < store.size := by
  obtain ⟨form, hform, -⟩ := isClosed_iff.mp h
  exact form_lt hform

theorem IsClosed.arguments (h : store.IsClosed type) (hs : store.Coherent) {parts : List Handle}
    (hparts : store.arguments type = .ok parts) : ∀ part ∈ parts, store.IsClosed part := by
  intro part hpart
  obtain ⟨form, hform, hclosed⟩ := isClosed_iff.mp h
  rw [arguments_of_form hform] at hparts
  obtain rfl := Except.ok.inj hparts
  obtain ⟨pform, hpform, hpclosed⟩ := hs.argument hform hpart
  exact isClosed_iff.mpr ⟨pform, hpform, (hpclosed hclosed).1⟩

theorem IsClosed.element (h : store.IsClosed type) (hs : store.Coherent) {rank : Nat}
    (harray : store.array? type = .ok (some (part, rank))) : store.IsClosed part := by
  obtain ⟨form, hform, hclosed⟩ := isClosed_iff.mp h
  rw [array?_of_form hform] at harray
  obtain ⟨pform, hpform, hpopen, -⟩ := hs.element hform (Except.ok.inj harray)
  exact isClosed_iff.mpr ⟨pform, hpform, hpopen.trans hclosed⟩

theorem IsClosed.containerElement (h : store.IsClosed type) (hs : store.Coherent) {rank : Nat}
    (hcontainer : Collection.containerElement? store type rank = .ok (some part)) :
    store.IsClosed part := by
  obtain ⟨shape, hshape, hcontainer⟩ := Query.bind_eq_ok.mp hcontainer
  cases shape with
  | some shape =>
      obtain ⟨element, arrayRank⟩ := shape
      have hsome := Query.pure_eq_ok.mp hcontainer
      split at hsome
      · cases hsome
        exact h.element hs hshape
      · cases hsome
  | none =>
      dsimp only at hcontainer
      split at hcontainer
      · cases hcontainer
      · obtain ⟨sequence, -, hcontainer⟩ := Query.bind_eq_ok.mp hcontainer
        split at hcontainer
        · obtain ⟨parts, hparts, hcontainer⟩ := Query.bind_eq_ok.mp hcontainer
          split at hcontainer
          · cases hcontainer
            exact h.arguments hs hparts _ (by simp)
          · cases hcontainer
        · cases hcontainer

/-- Whether what each closed type inherits is closed. -/
def inheritsClosed (store : Store) : Bool :=
  (List.range store.size).all fun type =>
    store.isOpen type != .ok false ||
      match store.supertypes type with
      | .ok supers => supers.all fun super => store.isOpen super == .ok false
      | .error _ => true

theorem inheritsClosed_of_check (h : store.inheritsClosed = true) : store.InheritsClosed := by
  rintro type super hclosed ⟨supers, hsupers, hmem⟩
  have hall := List.all_eq_true.mp h type (List.mem_range.mpr hclosed.lt)
  rw [hclosed, hsupers] at hall
  simp only [bne_self_eq_false, Bool.false_or, List.all_eq_true, beq_iff_eq] at hall
  exact hall super hmem

end Store

/-- The sources of the comparisons nested in one with a closed source are closed. -/
theorem Collection.Nested.isClosed {store : Store} {c d : Comparison} (hs : store.WellFormed)
    (hinherits : store.InheritsClosed) (h : Nested store c d) (hclosed : store.IsClosed c.source) :
    store.IsClosed d.source := by
  obtain ⟨source, target, flow⟩ := c
  cases h with
  | element _ _ helements =>
      cases flow with
      | invariant =>
          obtain ⟨-, rank, harray, -⟩ := helements
          exact hclosed.element hs.coherent harray
      | covariant =>
          obtain ⟨_, rank, _, -, hcontainer, -⟩ := helements
          exact hclosed.containerElement hs.coherent hcontainer
      | contravariant =>
          obtain ⟨_, rank, _, -, hcontainer, -⟩ := helements
          exact hclosed.containerElement hs.coherent hcontainer
  | argument _ _ hinstances hx _ _ =>
      have hmem := List.mem_of_getElem? hx
      cases flow with
      | invariant =>
          obtain ⟨-, -, hargs, -⟩ := hinstances
          exact hclosed.arguments hs.coherent hargs _ hmem
      | contravariant =>
          obtain ⟨-, hargs, -⟩ := hinstances
          exact hclosed.arguments hs.coherent hargs _ hmem
      | covariant =>
          obtain ⟨hd, -, found, hfound, hargs⟩ := hinstances
          obtain ⟨_, hdefinition, -⟩ := Query.bind_eq_ok.mp hd
          obtain ⟨entry, hentry, -⟩ := Query.bind_eq_ok.mp hdefinition
          obtain ⟨definition, hd', -, hself⟩ := Collection.definitionOrSelf_total hs
            (Store.lt_of_entry (Store.entry_eq_ok.mp hentry))
          obtain rfl := Except.ok.inj (hd.symm.trans hd')
          obtain ⟨result, hresult, hall⟩ := Store.findImplementation_total hs hclosed.lt hself
          obtain rfl := Except.ok.inj (hresult.symm.trans hfound)
          have hfoundClosed : store.IsClosed found := by
            rcases (hall found rfl).2 with hsuper | ⟨rfl, -⟩
            · exact hinherits source found hclosed hsuper
            · obtain ⟨form, hform, hshape⟩ := Store.isNamed_root hs.coherent
              exact Store.isClosed_iff.mpr ⟨form, hform, (hs.coherent.named hform hshape).1⟩
          exact hfoundClosed.arguments hs.coherent hargs _ hmem

/-- Constraints that are the same up to their targets. -/
inductive Constraint.Relates (ρ : Handle → Handle → Prop) : Constraint → Constraint → Prop
  | valueType : Relates ρ .valueType .valueType
  | referenceType : Relates ρ .referenceType .referenceType
  | defaultConstructible : Relates ρ .defaultConstructible .defaultConstructible
  | base {target target' : Handle} (htarget : ρ target target') :
      Relates ρ (.base target) (.base target')

/-- The callable `detached` has the templates and the constraints of `signature`, with the arguments of
the declaring type put in, and no declaring type. -/
structure Detaches (store : Store) (signature detached : Signature) (own bound : List Handle) : Prop
    extends Encloses store signature detached own bound where
  params : List.Forall₂ (fun param param' => param.mode = param'.mode ∧
    Corresponds store signature detached own bound param.type param'.type)
    signature.params detached.params
  returns : Option.Rel (Corresponds store signature detached own bound) signature.returns
    detached.returns
  constraints : List.Forall₂ (fun param param' => ∃ info info',
    store.param? param = .ok (some info) ∧ store.param? param' = .ok (some info') ∧
    List.Forall₂ (Constraint.Relates (Corresponds store signature detached own bound))
      info.constraints info'.constraints) signature.typeParams detached.typeParams

namespace Detachment

variable {store : Store} {signature detached : Signature} {own bound types : List Handle}
  {definition declaring : Handle}

/-- The constraints of the callable inside are read under the arguments of the enclosing type and the
type arguments of the call, those of the callable outside under the latter alone. -/
theorem realizes (h : Detachment store signature detached own bound) (hkinds : store.UniformKinds)
    (hd : store.Defines definition own) (happlies : store.Applies definition bound declaring)
    (hwrapper : store.optionalWrapper ≠ some definition)
    (hsequence : store.isSequenceInterface definition = false)
    (hlength : signature.typeParams.length = types.length)
    (htypes : ∀ type ∈ types, store.IsClosed type) :
    Assignability.Realizes store store
      (signature.bindingInside definition bound types) (detached.binding types)
      (own ++ signature.typeParams) (bound ++ detached.typeParams) (store.Outside detached) := by
  have hs := h.coherent
  have hbinds := h.encloses.binds hlength hd happlies
  have hbinds' : (detached.binding types).Binds store [] detached.typeParams := by
    refine ⟨by simp [Signature.binding], by simp, ?_, by simp [Signature.binding], rfl, ?_⟩
    · intro id hid
      cases hid
      rw [Store.typeParams?, h.encloses.callable']
      rfl
    · exact h.encloses.typeParams.symm.trans hlength
  exact {
    wellFormed := h.interprets.lawful.wellFormed
    closed := h.interprets.settled.closed
    later := .refl store
    interprets := h.interprets
    kinds := hkinds
    bound := by
      intro i param arg hparam harg
      obtain ⟨type, htype, hresolve⟩ := hbinds.resolve_bound hs hparam
      rw [Signature.bindingInside] at htype
      by_cases hi : i < bound.length
      · -- A parameter of the enclosing type stands for a closed argument, which stays.
        rw [List.getElem?_append_left hi] at harg htype
        obtain rfl := Option.some.inj (harg.symm.trans htype)
        obtain ⟨form, hform, hclosed⟩ := h.encloses.closed hs arg (List.mem_of_getElem? harg)
        exact ⟨arg, form, hresolve, Substitution.resolve_closed hs hform hclosed, hform, hclosed⟩
      · rw [List.getElem?_append_right (Nat.le_of_not_lt hi)] at harg htype
        obtain ⟨type', htype', hresolve'⟩ := hbinds'.resolve_bound hs harg
        obtain rfl := Option.some.inj (htype.symm.trans htype')
        obtain ⟨form, hform, hclosed⟩ :=
          Store.isClosed_iff.mp (htypes type (List.mem_of_getElem? htype))
        exact ⟨type, form, hresolve, hresolve', hform, hclosed⟩
    free := hbinds.resolve_free hs
    free' := by
      intro a b hout hfree hr
      cases hr.alike hs hfree with
      | application _ hb _ =>
          obtain ⟨form, hform, hproper⟩ := hb.proper
          exact Substitution.resolve_of_not_parameter hform hproper
      | array _ hb _ =>
          obtain ⟨form, hform, hproper⟩ := hb.proper
          exact Substitution.resolve_of_not_parameter hform hproper
      | leaf => exact hout.2.resolve hs h.encloses.callable' hout.1 types
    inRange := fun hout => hout.1
    ground := fun hform hclosed => Store.outside_of_closed hs h.encloses.callable'
      (Store.isClosed_iff.mpr ⟨_, hform, hclosed⟩)
    argument := h.outside_argument
    element := h.outside_element
    supertype := h.outside_supertype
    wrapper := by
      intro definition' params hrole hd' param hparam hbound
      cases hbinds.typeOwner_of_mem hs hd' hparam hbound
      exact hwrapper hrole
    sequence := by
      intro definition' params hrole hd' param hparam hbound
      cases hbinds.typeOwner_of_mem hs hd' hparam hbound
      rw [hsequence] at hrole
      cases hrole }

/-- Corresponding constraints ask the same of a closed type argument. -/
theorem satisfied_iff {sub : Substitution}
    (hrealizes : Assignability.Realizes store store sub (detached.binding types)
      (own ++ signature.typeParams) (bound ++ detached.typeParams) (store.Outside detached))
    {arg : Handle} (harg : store.IsClosed arg) {constraint constraint' : Constraint}
    (hrelates : constraint.Relates (Corresponds store signature detached own bound) constraint') :
    ConstraintCheck.Satisfied store sub arg constraint ↔
      ConstraintCheck.Satisfied store (detached.binding types) arg constraint' := by
  cases hrelates with
  | base htarget =>
      obtain ⟨form, hform, hclosed⟩ := Store.isClosed_iff.mp harg
      exact hrealizes.sub_iff_sub (hrealizes.resolved_closed hform hclosed).2 htarget
  | _ => exact Iff.rfl

theorem allSatisfied_iff (hdetaches : Detaches store signature detached own bound)
    {sub : Substitution} (hrealizes : Assignability.Realizes store store sub (detached.binding types)
      (own ++ signature.typeParams) (bound ++ detached.typeParams) (store.Outside detached))
    (htypes : ∀ type ∈ types, store.IsClosed type) :
    ConstraintCheck.AllSatisfied store sub signature.typeParams types ↔
      ConstraintCheck.AllSatisfied store (detached.binding types) detached.typeParams types := by
  obtain ⟨hlength, hpairs⟩ := forall₂_iff_getElem?.mp hdetaches.constraints
  constructor
  · intro h i param' arg info' hparam' harg hinfo' constraint' hconstraint'
    obtain ⟨param, hparam⟩ := getElem?_of_length_eq hlength hparam'
    obtain ⟨info, _, hinfo, hinfo'', hrelates⟩ := hpairs i param param' hparam hparam'
    obtain rfl := Option.some.inj (Except.ok.inj (hinfo'.symm.trans hinfo''))
    obtain ⟨constraint, hconstraint, hrelate⟩ := mem_of_forall₂ hrelates.flip hconstraint'
    exact (satisfied_iff hrealizes (htypes arg (List.mem_of_getElem? harg)) hrelate).mp
      (h i param arg info hparam harg hinfo constraint hconstraint)
  · intro h i param arg info hparam harg hinfo constraint hconstraint
    obtain ⟨param', hparam'⟩ := getElem?_of_length_eq hlength.symm hparam
    obtain ⟨_, info', hinfo'', hinfo', hrelates⟩ := hpairs i param param' hparam hparam'
    obtain rfl := Option.some.inj (Except.ok.inj (hinfo.symm.trans hinfo''))
    obtain ⟨constraint', hconstraint', hrelate⟩ := mem_of_forall₂ hrelates hconstraint
    exact (satisfied_iff hrealizes (htypes arg (List.mem_of_getElem? harg)) hrelate).mpr
      (h i param' arg info' hparam' harg hinfo' constraint' hconstraint')

/-- Within the limits, the constraints of the two callables are satisfied by the same closed types. -/
theorem satisfiesConstraints (h : Detachment store signature detached own bound)
    (hdetaches : Detaches store signature detached own bound)
    (hconstraints : store.ConstraintsInRange) (hkinds : store.UniformKinds)
    (hroles : ∀ declaring definition, signature.declaringType = some declaring →
      store.definition? declaring = .ok (some definition) →
        store.optionalWrapper ≠ some definition ∧ store.isSequenceInterface definition = false)
    (htypes : ∀ type ∈ types, store.IsClosed type)
    (hlimits : ConstraintCheck.WithinLimits store (.callable signature) types)
    (hlimits' : ConstraintCheck.WithinLimits store (.callable detached) types) :
    store.satisfiesConstraints (.callable signature) types =
      store.satisfiesConstraints (.callable detached) types := by
  have hs := h.interprets.lawful.wellFormed
  obtain ⟨declaring, definition, hdeclaring, -, hd, happlies⟩ := h.encloses.declaring
  obtain ⟨form, hform, hdefinition, hargs, -⟩ := happlies.exists_form
  have hdefinition? : store.definition? declaring = .ok (some definition) := by
    rw [Store.definition?_of_form hform, hdefinition]
  obtain ⟨hwrapper, hsequence⟩ := hroles declaring definition hdeclaring hdefinition?
  have hbinding : ConstraintCheck.binding? store (.callable signature) types =
      .ok (some (signature.typeParams, signature.bindingInside definition bound types)) := by
    simp only [ConstraintCheck.binding?, hdeclaring, hdefinition?, Store.arguments_of_form hform,
      hargs]
    rfl
  have hbinding' : ConstraintCheck.binding? store (.callable detached) types =
      .ok (some (detached.typeParams, detached.binding types)) := by
    simp only [ConstraintCheck.binding?, h.encloses.outside]
    rfl
  have hparams : ∀ {callable : Signature}, store.HasCallable callable →
      ∀ param ∈ callable.typeParams, param < store.size := by
    intro callable hcallable param hparam
    obtain ⟨_, form, _, hform, -⟩ := hcallable.paramAt h.coherent hparam
    exact Store.form_lt hform
  have hlt : ∀ type ∈ types, type < store.size := fun type htype => (htypes type htype).lt
  have hclosed : ∀ type ∈ types, ∃ form, store.form type = some form ∧ form.isOpen = false :=
    fun type htype => Store.isClosed_iff.mp (htypes type htype)
  refine Query.Answers.eq
    (Store.satisfiesConstraints_answers hs hconstraints hbinding (hparams h.encloses.callable) ?_ hlt
      hlimits)
    (Store.satisfiesConstraints_answers hs hconstraints hbinding' (hparams h.encloses.callable')
      hclosed hlt hlimits') ?_
  · intro type htype
    rcases List.mem_append.mp htype with htype | htype
    · exact h.encloses.closed h.coherent type htype
    · exact hclosed type htype
  · rw [h.encloses.typeParams, and_congr_right_iff]
    intro hlength
    exact allSatisfied_iff hdetaches (h.realizes hkinds hd happlies hwrapper hsequence
      (h.encloses.typeParams.trans hlength) htypes) htypes

end Detachment

namespace Inference

section Steps

/-- All witnesses and all fixed types satisfy `P`. -/
def Holds (P : Handle → Prop) (bounds : List BoundSet) (fixed : List (Option Handle)) : Prop :=
  Witnessed P bounds ∧ ∀ type, some type ∈ fixed → P type

/-- From bounds that differ in the type parameters only, the steps give the same outcome and lead to
bounds that differ in the type parameters only. -/
def ParallelAt {α : Type} (P : Handle → Prop) (ps qs : List Handle) (bounds : List BoundSet)
    (fixed : List (Option Handle)) (steps steps' : InferM α) : Prop :=
  (∃ fault, run steps ⟨ps, bounds, fixed⟩ = .error fault ∧
    run steps' ⟨qs, bounds, fixed⟩ = .error fault) ∨
  ∃ outcome bounds' fixed', Holds P bounds' fixed' ∧
    run steps ⟨ps, bounds, fixed⟩ = .ok (outcome, ⟨ps, bounds', fixed'⟩) ∧
    run steps' ⟨qs, bounds, fixed⟩ = .ok (outcome, ⟨qs, bounds', fixed'⟩)

/-- The steps run in parallel from all bounds whose witnesses and fixed types satisfy `P`. -/
def Parallel {α : Type} (P : Handle → Prop) (ps qs : List Handle) (steps steps' : InferM α) : Prop :=
  ∀ bounds fixed, Holds P bounds fixed → ParallelAt P ps qs bounds fixed steps steps'

variable {P : Handle → Prop} {ps qs : List Handle} {α β : Type}

theorem parallel_pure (a : α) : Parallel P ps qs (pure a) (pure a) :=
  fun bounds fixed h => Or.inr ⟨.ok a, bounds, fixed, h, rfl, rfl⟩

theorem parallel_throw (failure : InferenceFailure) :
    Parallel P ps qs (throw failure : InferM α) (throw failure) :=
  fun bounds fixed h => Or.inr ⟨.error failure, bounds, fixed, h, rfl, rfl⟩

theorem parallel_fault (fault : Fault) :
    Parallel P ps qs (throwThe Fault fault : InferM α) (throwThe Fault fault) :=
  fun _ _ _ => Or.inl ⟨fault, rfl, rfl⟩

theorem parallel_read {γ : Type} {x : Query α} {y : Query β} {a : α} {b : β} {f : α → InferM γ}
    {g : β → InferM γ} (hx : x = .ok a) (hy : y = .ok b) (h : Parallel P ps qs (f a) (g b)) :
    Parallel P ps qs (liftM x >>= f) (liftM y >>= g) := by
  subst hx hy
  exact h

theorem parallel_query (x : Query α) : Parallel P ps qs (liftM x) (liftM x) := by
  intro bounds fixed h
  cases x with
  | error fault => exact Or.inl ⟨fault, rfl, rfl⟩
  | ok a => exact Or.inr ⟨.ok a, bounds, fixed, h, rfl, rfl⟩

theorem Parallel.bind {steps steps' : InferM α} {next next' : α → InferM β}
    (h : Parallel P ps qs steps steps') (hnext : ∀ a, Parallel P ps qs (next a) (next' a)) :
    Parallel P ps qs (steps >>= next) (steps' >>= next') := by
  intro bounds fixed hP
  rw [ParallelAt, run_bind, run_bind]
  rcases h bounds fixed hP with ⟨fault, hrun, hrun'⟩ |
    ⟨outcome, bounds', fixed', hP', hrun, hrun'⟩
  · exact Or.inl ⟨fault, by rw [hrun]; rfl, by rw [hrun']; rfl⟩
  · rw [hrun, hrun']
    cases outcome with
    | error failure => exact Or.inr ⟨.error failure, bounds', fixed', hP', rfl, rfl⟩
    | ok a => exact hnext a bounds' fixed' hP'

theorem parallel_forM {f : α → InferM Unit} {g : β → InferM Unit} {as : List α} {bs : List β}
    (h : List.Forall₂ (fun a b => Parallel P ps qs (f a) (g b)) as bs) :
    Parallel P ps qs (as.forM f) (bs.forM g) := by
  induction h with
  | nil => exact parallel_pure ()
  | cons hab _ ih => exact hab.bind fun _ => ih

theorem Parallel.tryCatch {steps steps' : InferM α} {handler handler' : InferenceFailure → InferM α}
    (h : Parallel P ps qs steps steps')
    (hhandler : ∀ failure, Parallel P ps qs (handler failure) (handler' failure)) :
    Parallel P ps qs (tryCatch steps handler) (tryCatch steps' handler') := by
  intro bounds fixed hP
  rw [ParallelAt, run_tryCatch, run_tryCatch]
  rcases h bounds fixed hP with ⟨fault, hrun, hrun'⟩ |
    ⟨outcome, bounds', fixed', hP', hrun, hrun'⟩
  · exact Or.inl ⟨fault, by rw [hrun]; rfl, by rw [hrun']; rfl⟩
  · rw [hrun, hrun']
    cases outcome with
    | error failure => exact hhandler failure bounds' fixed' hP'
    | ok a => exact Or.inr ⟨.ok a, bounds', fixed', hP', rfl, rfl⟩

theorem parallel_ite {c : Prop} [Decidable c] {yes no yes' no' : InferM α}
    (hyes : Parallel P ps qs yes yes') (hno : Parallel P ps qs no no') :
    Parallel P ps qs (if c then yes else no) (if c then yes' else no') := by
  by_cases hc : c
  · rw [if_pos hc, if_pos hc]
    exact hyes
  · rw [if_neg hc, if_neg hc]
    exact hno

/-- Steps that go on from the bounds so far. -/
theorem parallel_get {next next' : InferredBounds → InferM α}
    (h : ∀ bounds fixed, Holds P bounds fixed →
      ParallelAt P ps qs bounds fixed (next ⟨ps, bounds, fixed⟩) (next' ⟨qs, bounds, fixed⟩)) :
    Parallel P ps qs (get >>= next) (get >>= next') := by
  intro bounds fixed hP
  rw [ParallelAt, run_get_bind, run_get_bind]
  exact h bounds fixed hP

end Steps

section Positions

variable {store : Store} {signature detached : Signature} {own bound : List Handle}
  {template template' arg : Handle}

/-- Matching a template and matching the corresponding one run in parallel. -/
theorem collect_parallel (h : Detachment store signature detached own bound)
    (hinherits : store.InheritsClosed) {c : Comparison} {target' : Handle}
    (hρ : Corresponds store signature detached own bound c.target target')
    (hclosed : store.IsClosed c.source)
    (hdirect : Direct store (Corresponds store signature detached own bound)
      Limits.collection.maxDepth c) :
    Parallel store.IsClosed signature.typeParams detached.typeParams
      (collect store signature c.source c.target c.flow)
      (collect store detached c.source target' c.flow) := by
  rintro bounds fixed ⟨hbounds, hfixed⟩
  obtain ⟨matched, bounds', hbounds', hrun, hrun'⟩ := Collection.collect_coincide h hρ hclosed.lt
    hclosed (fun _ _ hnested => hnested.isClosed h.interprets.lawful.wellFormed hinherits) hdirect
    hbounds
  exact Or.inr ⟨.ok matched, bounds', fixed, ⟨hbounds', hfixed⟩, run_collect hrun,
    @run_collect _ _ ⟨c.source, target', c.flow⟩ _ _ _ hrun'⟩

/-- A template resolves to the concrete type for which it stands, or it stays and stands for a
template. -/
theorem template_cases (h : Detachment store signature detached own bound)
    (hρ : Corresponds store signature detached own bound template template')
    (hstays : Compound store template → store.isOpen template' = .ok true) :
    (enclosingArgument store signature template = .ok template' ∧
      store.isOpen template' = .ok false) ∨
    enclosingArgument store signature template = .ok template ∧
      store.isOpen template = .ok true ∧ store.isOpen template' = .ok true := by
  obtain ⟨declaring, definition, hdeclaring, -, hd, happlies⟩ := h.encloses.declaring
  obtain ⟨entry, hentry⟩ := Store.entry_of_lt (h.lt hρ)
  obtain ⟨form, hform⟩ := Store.form_isSome (h.lt hρ)
  have hparam : store.param? template = .ok entry.param? := Store.query_of_entry hentry (·.param?)
  have hopen := Store.isOpen_of_form hform
  cases hinfo : entry.param? with
  | some info =>
      rw [hinfo] at hparam
      have hopen := (Store.paramAt_of_param? hparam).isOpen h.coherent
      rcases h.param_cases hρ hparam with ⟨howner, info', hparam', -⟩ |
        ⟨-, hargument, ⟨-, hclosed⟩ | ⟨rfl, -⟩⟩
      · refine Or.inr ⟨?_, hopen, (Store.paramAt_of_param? hparam').isOpen h.coherent⟩
        rw [enclosingArgument, hparam, Query.ok_bind, hdeclaring]
        simp only [howner]
        rfl
      · exact Or.inl ⟨hargument, hclosed⟩
      · exact Or.inr ⟨hargument, hopen, hopen⟩
  | none =>
      rw [hinfo] at hparam
      have hself : enclosingArgument store signature template = .ok template := by
        rw [enclosingArgument, hparam]
        rfl
      cases htemplate : form.isOpen with
      | false =>
          rw [htemplate] at hopen
          obtain rfl := h.eq_of_closed hρ hopen
          exact Or.inl ⟨hself, hopen⟩
      | true =>
          rw [htemplate] at hopen
          exact Or.inr ⟨hself, hopen, hstays ⟨hparam, hopen⟩⟩

theorem isOptionalWrapper_of_param? {info : TypeParam}
    (hparam : store.param? template = .ok (some info)) :
    store.isOptionalWrapper template = .ok false := by
  obtain ⟨form, _, hform, hshape, -⟩ := Store.paramAt_of_param? hparam
  have hdefinition : form.definition? template = none := by rw [Entry.definition?, hshape]
  rw [Store.isOptionalWrapper, Store.definition?_of_form hform, hdefinition]
  cases store.optionalWrapper <;> rfl

/-- Templates that stay are unwrapped alike. -/
theorem unwrap?_corresponds (h : Detachment store signature detached own bound)
    (hρ : Corresponds store signature detached own bound template template')
    (hopen' : store.isOpen template' = .ok true) (harg : arg < store.size) :
    ∃ inner inner', unwrap? store template arg = .ok inner ∧
      unwrap? store template' arg = .ok inner' ∧
      Option.Rel (Corresponds store signature detached own bound) inner inner' := by
  obtain ⟨entry, hentry⟩ := Store.entry_of_lt (h.lt hρ)
  have hparam : store.param? template = .ok entry.param? := Store.query_of_entry hentry (·.param?)
  cases hinfo : entry.param? with
  | some info =>
      rw [hinfo] at hparam
      have hwrapper' : store.isOptionalWrapper template' = .ok false := by
        rcases h.param_cases hρ hparam with ⟨-, info', hparam', -⟩ | ⟨-, -, ⟨-, hclosed⟩ | ⟨rfl, -⟩⟩
        · exact isOptionalWrapper_of_param? hparam'
        · cases hopen'.symm.trans hclosed
        · exact isOptionalWrapper_of_param? hparam
      refine ⟨none, none, ?_, ?_, .none⟩
      · rw [unwrap?, isOptionalWrapper_of_param? hparam]
        rfl
      · rw [unwrap?, hwrapper']
        rfl
  | none =>
      rw [hinfo] at hparam
      obtain ⟨b, hb⟩ := Assignability.isOptionalWrapper_total (h.lt hρ)
      obtain ⟨b', hb'⟩ := Assignability.isOptionalWrapper_total harg
      obtain ⟨form, hform⟩ := Store.form_isSome (h.lt hρ)
      obtain ⟨parts', hparts', hparts⟩ :=
        (h.alike hρ (h.not_mem_of_param? hparam)).arguments (Store.arguments_of_form hform)
      rw [unwrap?, unwrap?, h.isOptionalWrapper hρ hparam hopen', hb, hb', hparts',
        Store.arguments_of_form hform]
      cases b with
      | false => exact ⟨none, none, rfl, rfl, .none⟩
      | true =>
          cases b' with
          | true => exact ⟨none, none, rfl, rfl, .none⟩
          | false =>
              -- Only a single argument is unwrapped.
              generalize form.arguments = parts at hparts
              cases hparts with
              | nil => exact ⟨none, none, rfl, rfl, .none⟩
              | @cons part part' _ _ hpart hrest =>
                  cases hrest with
                  | nil => exact ⟨some part, some part', rfl, rfl, .some hpart⟩
                  | cons => exact ⟨none, none, rfl, rfl, .none⟩

/-- A comparison is matched, with a failure to throw if it does not match. -/
theorem collectOrThrow_parallel (h : Detachment store signature detached own bound)
    (hinherits : store.InheritsClosed) {c : Comparison} {target' : Handle}
    (hρ : Corresponds store signature detached own bound c.target target')
    (hclosed : store.IsClosed c.source)
    (hdirect : Direct store (Corresponds store signature detached own bound)
      Limits.collection.maxDepth c) (failure : InferenceFailure) :
    Parallel store.IsClosed signature.typeParams detached.typeParams
      (do if (← collect store signature c.source c.target c.flow) then return else throw failure)
      (do if (← collect store detached c.source target' c.flow) then return else throw failure) := by
  refine (collect_parallel h hinherits hρ hclosed hdirect).bind fun matched => ?_
  cases matched with
  | true => exact parallel_pure ()
  | false => exact parallel_throw failure

theorem compatible_parallel {P : Handle → Prop} {ps qs : List Handle} {source target : Handle}
    (failure : InferenceFailure) :
    Parallel P ps qs
      (do if (← compatible store source target) then return else throw failure)
      (do if (← compatible store source target) then return else throw failure) := by
  refine (parallel_query (compatible store source target)).bind fun accepted => ?_
  cases accepted with
  | true => exact parallel_pure ()
  | false => exact parallel_throw failure

theorem checkParameter_parallel (h : Detachment store signature detached own bound)
    {P : Handle → Prop} {ps qs : List Handle} {param param' : Parameter}
    (hρ : Corresponds store signature detached own bound param.type param'.type)
    (hstays : Compound store param.type → store.isOpen param'.type = .ok true) (index : Nat) :
    Parallel P ps qs (checkParameter store signature param arg index)
      (checkParameter store detached param' arg index) := by
  have hself' := enclosingArgument_of_none h.encloses.outside (h.lt' hρ)
  rcases template_cases h hρ hstays with ⟨hself, hclosed⟩ | ⟨hself, hopen, hopen'⟩
  · exact parallel_read hself hself' (parallel_read hclosed hclosed (compatible_parallel _))
  · exact parallel_read hself hself' (parallel_read hopen hopen' (parallel_pure ()))

theorem checkReturn_parallel (h : Detachment store signature detached own bound)
    {P : Handle → Prop} {ps qs : List Handle} {expected : Handle}
    (hreturns : Option.Rel (Corresponds store signature detached own bound) signature.returns
      detached.returns)
    (hstays : ∀ returns returns', signature.returns = some returns →
      detached.returns = some returns' → Compound store returns →
        store.isOpen returns' = .ok true) :
    Parallel P ps qs (checkReturn store signature expected)
      (checkReturn store detached expected) := by
  unfold checkReturn
  generalize hr : signature.returns = returns at hreturns
  generalize hr' : detached.returns = returns' at hreturns
  cases hreturns with
  | none => exact parallel_throw _
  | @some returns returns' hρ =>
      have hself' := enclosingArgument_of_none h.encloses.outside (h.lt' hρ)
      rcases template_cases h hρ (hstays returns returns' hr hr') with
        ⟨hself, hclosed⟩ | ⟨hself, hopen, hopen'⟩
      · exact parallel_read hself hself' (parallel_read hclosed hclosed (compatible_parallel _))
      · exact parallel_read hself hself' (parallel_read hopen hopen' (parallel_pure ()))

theorem collectParameter_parallel (h : Detachment store signature detached own bound)
    (hinherits : store.InheritsClosed) {param param' : Parameter} (hmode : param.mode = param'.mode)
    (hρ : Corresponds store signature detached own bound param.type param'.type)
    (hstays : Compound store param.type → store.isOpen param'.type = .ok true)
    (harg : store.IsClosed arg)
    (hdirect : ∀ c, parameterComparison store param.type arg param.mode = .ok c →
      Direct store (Corresponds store signature detached own bound) Limits.collection.maxDepth c)
    (index : Nat) :
    Parallel store.IsClosed signature.typeParams detached.typeParams
      (collectParameter store signature param arg index)
      (collectParameter store detached param' arg index) := by
  have hself' := enclosingArgument_of_none h.encloses.outside (h.lt' hρ)
  rcases template_cases h hρ hstays with ⟨hself, hclosed⟩ | ⟨hself, hopen, hopen'⟩
  · exact parallel_read hself hself' (parallel_read hclosed hclosed (parallel_pure ()))
  · obtain ⟨inner, inner', hunwrap, hunwrap', hinner⟩ :=
      unwrap?_corresponds h hρ hopen' harg.lt
    refine parallel_read hself hself' (parallel_read hopen hopen'
      (parallel_read hunwrap hunwrap' ?_))
    rw [parameterComparison, hunwrap] at hdirect
    rw [← hmode]
    cases hinner with
    | none => exact collectOrThrow_parallel h hinherits hρ harg (hdirect _ rfl) _
    | some hpart => exact collectOrThrow_parallel h hinherits hpart harg (hdirect _ rfl) _

/-- The result is matched in parallel if the return types are both wrapped or neither is, where that
matters. -/
theorem collectReturn_parallel (h : Detachment store signature detached own bound)
    (hinherits : store.InheritsClosed) {expected returns returns' : Handle}
    (hρ : Corresponds store signature detached own bound returns returns')
    (hexpected : store.IsClosed expected)
    (hwrapper : store.isOptionalWrapper expected = .ok true →
      store.isOptionalWrapper returns' = store.isOptionalWrapper returns)
    (hdirect : ∀ c, returnComparison store expected returns = .ok c →
      Direct store (Corresponds store signature detached own bound) Limits.collection.maxDepth c) :
    Parallel store.IsClosed signature.typeParams detached.typeParams
      (collectReturn store signature expected returns)
      (collectReturn store detached expected returns') := by
  obtain ⟨inner, hunwrap, hinner⟩ :=
    unwrap?_total h.interprets.lawful.wellFormed hexpected.lt (h.lt hρ)
  have hunwrap' : unwrap? store expected returns' = .ok inner := by
    rw [← hunwrap, unwrap?, unwrap?]
    obtain ⟨b, hb⟩ := Assignability.isOptionalWrapper_total hexpected.lt
    rw [hb, Query.ok_bind, Query.ok_bind]
    cases b with
    | false => rfl
    | true => rw [hwrapper hb]
  rw [returnComparison, hunwrap] at hdirect
  refine parallel_read hunwrap hunwrap' ?_
  cases inner with
  | none => exact collectOrThrow_parallel h hinherits hρ hexpected (hdirect _ rfl) _
  | some inner =>
      have hclosed := hexpected.arguments h.coherent (hinner inner rfl).2.2.2 inner (by simp)
      exact collectOrThrow_parallel h hinherits hρ hclosed (hdirect _ rfl) _

theorem returnComparison_target {expected returns : Handle} {c : Comparison}
    (hc : returnComparison store expected returns = .ok c) : c.target = returns := by
  obtain ⟨inner, -, hc⟩ := Query.bind_eq_ok.mp hc
  cases inner <;> cases hc <;> rfl

end Positions

section Passes

variable {store : Store} {args : List Handle} {P : Handle → Prop} {ps qs : List Handle}

/-- Passes over the positions of a call run in parallel if each pair of positions does. -/
theorem parallel_positions {ρ : Handle → Handle → Prop} {params params' : List Parameter}
    (hparams : List.Forall₂ (fun param param' => param.mode = param'.mode ∧ ρ param.type param'.type)
      params params') {f g : (Parameter × Handle) × Nat → InferM Unit}
    (h : ∀ (i : Nat) param param' arg, params[i]? = some param → args[i]? = some arg →
      param.mode = param'.mode → ρ param.type param'.type →
        Parallel P ps qs (f ((param, arg), i)) (g ((param', arg), i))) :
    Parallel P ps qs ((params.zip args).zipIdx.forM f) ((params'.zip args).zipIdx.forM g) := by
  obtain ⟨hlength, hparams⟩ := forall₂_iff_getElem?.mp hparams
  refine parallel_forM (forall₂_iff_getElem?.mpr ⟨by simp [hlength], ?_⟩)
  rintro i ⟨⟨param, arg⟩, j⟩ ⟨⟨param', arg'⟩, j'⟩ hi hi'
  simp only [List.getElem?_zipIdx, Nat.zero_add, Option.map_eq_some_iff, Prod.mk.injEq,
    List.getElem?_zip_eq_some] at hi hi'
  obtain ⟨_, ⟨hparam, harg⟩, rfl, rfl⟩ := hi
  obtain ⟨_, ⟨hparam', harg'⟩, rfl, rfl⟩ := hi'
  obtain rfl := Option.some.inj (harg.symm.trans harg')
  obtain ⟨hmode, hρ⟩ := hparams i param param' hparam hparam'
  exact h i param param' arg hparam harg hmode hρ

theorem Holds.set {bounds : List BoundSet} {fixed : List (Option Handle)} (h : Holds P bounds fixed)
    {position : Nat} {result : Option Handle} (hresult : ∀ type, result = some type → P type) :
    Holds P bounds (fixed.set position result) := by
  refine ⟨h.1, fun type hmem => ?_⟩
  rcases List.mem_or_eq_of_mem_set hmem with hmem | heq
  · exact h.2 type hmem
  · exact hresult type heq.symm

/-- Fixing reads the bounds only, and picks a witness. -/
theorem fixAt_parallel (breakEarly : Bool) (position : Nat) :
    Parallel P ps qs (fixAt store breakEarly position) (fixAt store breakEarly position) := by
  intro bounds fixed hP
  rw [ParallelAt, run_fixAt, run_fixAt]
  cases hfix : (bounds[position]?.getD {}).fix? store.isAssignable with
  | error fault => exact Or.inl ⟨fault, rfl, rfl⟩
  | ok result =>
      refine Or.inr ⟨_, bounds, fixed.set position result, hP.set fun type hresult => ?_, rfl, rfl⟩
      subst hresult
      obtain ⟨flow, hmem⟩ := (BoundSet.meets_of_fix? hfix).witness
      exact hP.1 position type flow (recorded_of_mem_side hmem)

theorem parallel_range {n : Nat} {f g : Nat → InferM Unit} (h : ∀ i, Parallel P ps qs (f i) (g i)) :
    Parallel P ps qs ((List.range n).forM f) ((List.range n).forM g) :=
  parallel_forM (List.forall₂_same.mpr fun i _ => h i)

theorem fixAll_parallel (hlength : ps.length = qs.length) (breakEarly : Bool) :
    Parallel P ps qs (fixAll store breakEarly) (fixAll store breakEarly) := by
  refine parallel_get fun bounds fixed hP => ?_
  dsimp only
  rw [hlength]
  refine (parallel_range (fixAt_parallel breakEarly)).bind (fun _ => ?_) bounds fixed hP
  refine parallel_get fun bounds fixed hP => ?_
  exact parallel_ite (parallel_throw _) (parallel_pure ()) bounds fixed hP

theorem constraintTargets_relates {ρ : Handle → Handle → Prop} {constraints constraints'}
    (h : List.Forall₂ (Constraint.Relates ρ) constraints constraints') {info info' : TypeParam}
    (hinfo : info.constraints = constraints) (hinfo' : info'.constraints = constraints') :
    List.Forall₂ ρ info.constraintTargets info'.constraintTargets := by
  rw [TypeParam.constraintTargets, TypeParam.constraintTargets, hinfo, hinfo']
  clear hinfo hinfo'
  induction h with
  | nil => exact .nil
  | cons hc _ ih =>
      cases hc with
      | base htarget => exact .cons htarget ih
      | _ => exact ih

end Passes

/-- A call for which putting the arguments of the enclosing type in makes a difference only where a
template is one of its parameters. Where such a parameter is the result, it must not turn into the
wrapper of optional values that is expected. -/
structure DirectCall (store : Store) (signature detached : Signature) (own bound args : List Handle)
    (options : InferenceOptions) : Prop where
  parameters : ∀ param ∈ signature.params, Compound store param.type →
    ∀ template', Corresponds store signature detached own bound param.type template' →
      store.isOpen template' = .ok true
  starts : ∀ c, Starts store signature args c →
    Direct store (Corresponds store signature detached own bound) Limits.collection.maxDepth c
  result : ∀ expected returns returns', args[signature.params.length]? = some expected →
    signature.returns = some returns → detached.returns = some returns' →
      store.isOptionalWrapper expected = .ok true →
        store.isOptionalWrapper returns' = store.isOptionalWrapper returns
  constraints : options.bootstrapFromConstraints = true →
    ∀ param ∈ signature.typeParams, ∀ info, store.param? param = .ok (some info) →
      ∀ target ∈ info.constraintTargets, ∀ type, store.IsClosed type →
        Direct store (Corresponds store signature detached own bound) Limits.collection.maxDepth
          ⟨type, target, .covariant⟩

/-- A direct call of two callables that are related, with closed argument types. -/
structure DetachedCall (store : Store) (signature detached : Signature)
    (own bound args : List Handle) (options : InferenceOptions) : Prop where
  detachment : Detachment store signature detached own bound
  detaches : Detaches store signature detached own bound
  inherits : store.InheritsClosed
  direct : DirectCall store signature detached own bound args options
  args : ∀ arg ∈ args, store.IsClosed arg

section Calls

variable {store : Store} {signature detached : Signature} {own bound args : List Handle}
  {options : InferenceOptions}

theorem checkParameters_parallel
    (h : DetachedCall store signature detached own bound args options) :
    Parallel store.IsClosed signature.typeParams detached.typeParams
      ((signature.params.zip args).zipIdx.forM fun ((param, arg), index) =>
        checkParameter store signature param arg index)
      ((detached.params.zip args).zipIdx.forM fun ((param, arg), index) =>
        checkParameter store detached param arg index) :=
  parallel_positions h.detaches.params fun _ _ _ _ hparam _ _ hρ =>
    checkParameter_parallel h.detachment hρ
      (fun hcompound => h.direct.parameters _ (List.mem_of_getElem? hparam) hcompound _ hρ) _

theorem collectParameters_parallel
    (h : DetachedCall store signature detached own bound args options) :
    Parallel store.IsClosed signature.typeParams detached.typeParams
      ((signature.params.zip args).zipIdx.forM fun ((param, arg), index) =>
        collectParameter store signature param arg index)
      ((detached.params.zip args).zipIdx.forM fun ((param, arg), index) =>
        collectParameter store detached param arg index) :=
  parallel_positions h.detaches.params fun _ _ _ arg hparam harg hmode hρ =>
    collectParameter_parallel h.detachment h.inherits hmode hρ
      (fun hcompound => h.direct.parameters _ (List.mem_of_getElem? hparam) hcompound _ hρ)
      (h.args arg (List.mem_of_getElem? harg))
      (fun c hc => h.direct.starts c (.parameter hparam harg hc)) _

/-- Collection for a call runs in parallel. -/
theorem collectBounds_parallel (h : DetachedCall store signature detached own bound args options) :
    Parallel store.IsClosed signature.typeParams detached.typeParams
      (collectBounds store signature args) (collectBounds store detached args) := by
  have hchecks := checkParameters_parallel h
  have hmatches := collectParameters_parallel h
  unfold collectBounds
  rw [← h.detaches.params.length_eq]
  split
  · exact parallel_fault _
  · cases hexpected : args[signature.params.length]? with
    | none => exact hchecks.bind fun _ => hmatches.bind fun _ => parallel_pure ()
    | some expected =>
        have hclosed := h.args expected (List.mem_of_getElem? hexpected)
        -- The comparison of the result has the return type as its target.
        have hstays : ∀ returns returns', signature.returns = some returns →
            Corresponds store signature detached own bound returns returns' →
            Compound store returns → store.isOpen returns' = .ok true := by
          intro returns returns' hreturns hρ hcompound
          obtain ⟨c, hc, -⟩ := returnComparison_total h.detachment.interprets.lawful.wellFormed
            hclosed.lt (h.detachment.lt hρ)
          obtain rfl := returnComparison_target hc
          exact (h.direct.starts c (.result hexpected hreturns hc)).1 hcompound _ hρ
        refine hchecks.bind fun _ => (checkReturn_parallel h.detachment h.detaches.returns ?_).bind
          fun _ => hmatches.bind fun _ => ?_
        · intro returns returns' hreturns hreturns'
          have hρ := h.detaches.returns
          rw [hreturns, hreturns'] at hρ
          cases hρ with
          | some hρ => exact hstays returns returns' hreturns hρ
        · have hρ := h.detaches.returns
          generalize hr : signature.returns = returns at hρ
          generalize hr' : detached.returns = returns' at hρ
          cases hρ with
          | none => exact parallel_pure ()
          | @some returns returns' hρ =>
              exact collectReturn_parallel h.detachment h.inherits hρ hclosed
                (h.direct.result expected returns returns' hexpected hr hr')
                fun c hc => h.direct.starts c (.result hexpected hr hc)

theorem feedConstraints_parallel (h : DetachedCall store signature detached own bound args options)
    (hbootstrap : options.bootstrapFromConstraints = true) (position : Nat) :
    Parallel store.IsClosed signature.typeParams detached.typeParams
      (feedConstraints store signature position) (feedConstraints store detached position) := by
  obtain ⟨hlength, hconstraints⟩ := forall₂_iff_getElem?.mp h.detaches.constraints
  unfold feedConstraints
  refine parallel_get fun bounds fixed hP => ?_
  dsimp only
  rcases hfixed : fixed[position]? with _ | _ | type
  · exact parallel_pure () bounds fixed hP
  · exact parallel_pure () bounds fixed hP
  · have hclosed : store.IsClosed type := hP.2 type (List.mem_of_getElem? hfixed)
    rcases hparam : signature.typeParams[position]? with _ | param
    · have hparam' : detached.typeParams[position]? = none := by
        rw [List.getElem?_eq_none_iff] at hparam ⊢
        omega
      rw [hparam']
      exact parallel_pure () bounds fixed hP
    · obtain ⟨param', hparam'⟩ := getElem?_of_length_eq hlength.symm hparam
      obtain ⟨info, info', hinfo, hinfo', hrelates⟩ :=
        hconstraints position param param' hparam hparam'
      rw [hparam']
      refine parallel_read hinfo hinfo' (parallel_forM ?_) bounds fixed hP
      refine forall₂_iff_getElem?.mpr ⟨?_, ?_⟩
      · exact (constraintTargets_relates hrelates rfl rfl).length_eq
      · intro i target target' htarget htarget'
        have hρ := (forall₂_iff_getElem?.mp (constraintTargets_relates hrelates rfl rfl)).2 i target
          target' htarget htarget'
        exact collectOrThrow_parallel (c := ⟨type, target, .covariant⟩) h.detachment h.inherits hρ
          hclosed (h.direct.constraints hbootstrap param (List.mem_of_getElem? hparam) info hinfo
            target (List.mem_of_getElem? htarget) type hclosed) _

theorem bootstrapPasses_parallel (h : DetachedCall store signature detached own bound args options)
    (hbootstrap : options.bootstrapFromConstraints = true) (passes : Nat) :
    Parallel store.IsClosed signature.typeParams detached.typeParams
      (bootstrapPasses store signature passes) (bootstrapPasses store detached passes) := by
  induction passes with
  | zero => exact parallel_fault _
  | succ passes ih =>
      refine parallel_get fun bounds fixed hP => ?_
      refine parallel_get (fun bounds fixed hP => ?_) bounds fixed hP
      dsimp only
      rw [h.detachment.encloses.typeParams]
      refine (parallel_range (feedConstraints_parallel h hbootstrap)).bind (fun _ => ?_) bounds fixed
        hP
      refine (fixAll_parallel h.detachment.encloses.typeParams false).tryCatch fun failure => ?_
      refine parallel_get fun bounds fixed hP => ?_
      exact parallel_ite (parallel_throw _) ih bounds fixed hP

theorem bootstrap_parallel (h : DetachedCall store signature detached own bound args options)
    (hbootstrap : options.bootstrapFromConstraints = true) :
    Parallel store.IsClosed signature.typeParams detached.typeParams
      (bootstrap store signature) (bootstrap store detached) :=
  parallel_get fun bounds fixed hP => bootstrapPasses_parallel h hbootstrap _ bounds fixed hP

theorem solve_parallel (h : DetachedCall store signature detached own bound args options) :
    Parallel store.IsClosed signature.typeParams detached.typeParams
      (solve store signature args options.bootstrapFromConstraints)
      (solve store detached args options.bootstrapFromConstraints) := by
  refine (collectBounds_parallel h).bind fun _ =>
    (fixAll_parallel h.detachment.encloses.typeParams _).tryCatch fun failure => ?_
  cases hbootstrap : options.bootstrapFromConstraints with
  | true => exact bootstrap_parallel h hbootstrap
  | false => exact parallel_throw failure

end Calls

section Detaching

variable {store : Store} {signature detached : Signature} {own bound args : List Handle}
  {options : InferenceOptions}

/-- A call whose inferred types are checked against constraints that read alike inside and outside: the
enclosing definition is neither the wrapper of optional values nor a sequence, and no check of the
inferred types hits a limit. -/
structure CheckedCall (store : Store) (signature detached : Signature) (args : List Handle)
    (options : InferenceOptions) : Prop where
  kinds : store.UniformKinds
  roles : ∀ declaring definition, signature.declaringType = some declaring →
    store.definition? declaring = .ok (some definition) →
      store.optionalWrapper ≠ some definition ∧ store.isSequenceInterface definition = false
  limits : ∀ types, store.inferTypes? signature args { options with skipConstraintCheck := true } =
      .ok (some types) →
    ConstraintCheck.WithinLimits store (.callable signature) types ∧
      ConstraintCheck.WithinLimits store (.callable detached) types

/-- From no bounds, the steps of the two callables give the same outcome and fix the same types. -/
theorem solve_cases (h : DetachedCall store signature detached own bound args options) :
    ParallelAt store.IsClosed signature.typeParams detached.typeParams
      (.replicate signature.typeParams.length {}) (.replicate signature.typeParams.length none)
      (solve store signature args options.bootstrapFromConstraints)
      (solve store detached args options.bootstrapFromConstraints) := by
  refine solve_parallel h _ _ ⟨fun position type flow hrecorded => ?_,
    fun type hmem => ?_⟩
  · obtain ⟨set, hset, hmem⟩ := hrecorded
    obtain rfl := (List.mem_replicate.mp (List.mem_of_getElem? hset)).2
    cases flow <;> cases hmem
  · cases (List.mem_replicate.mp hmem).2

/-- The type arguments of a call inside a closed instantiation are those of the call outside that has
the arguments of the instantiation put in. Interface sets have to be complete (`Settled`), what a
closed type inherits has to be closed (`InheritsClosed`), and a supertype mentions parameters of the
callable outside only if the type does (`Scoped`). Declared supertypes leave the parameters to the
definitions that have them: none mentions bare the enclosing definition, and arrays declare no
interfaces (`Delimits`). The call must not come to a template that loses its last parameter when the
arguments are put in, to one that has several instantiations of the definition it is searched for,
or to a return type that turns into the expected optional wrapper (`DirectCall`). Where inferred types
are checked, the enclosing definition is neither the optional wrapper nor a sequence interface, an
instantiation is a value type if its definition is, and no check hits a limit (`CheckedCall`). -/
theorem inferTypes?_detached (hreachable : store.Reachable) (hfinished : store.finished = true)
    (hsettled : store.Settled) (hdetaches : Detaches store signature detached own bound)
    (hdelimits : store.Delimits (own ++ signature.typeParams)) (hscoped : store.Scoped detached)
    (hinherits : store.InheritsClosed) (hargs : ∀ arg ∈ args, store.IsClosed arg)
    (hcall : DirectCall store signature detached own bound args options)
    (hchecked : options.skipConstraintCheck = false →
      CheckedCall store signature detached args options) :
    store.inferTypes? signature args options = store.inferTypes? detached args options := by
  have hassigns := hdetaches.toEncloses.assigns hreachable.lawful.wellFormed.coherent
  have h : Detachment store signature detached own bound :=
    ⟨hdetaches.toEncloses, ⟨hreachable.lawful, hfinished, hsettled, hassigns, hdelimits⟩, hscoped⟩
  have hsame : InferredBounds.ofTypeParams detached.typeParams =
      ⟨detached.typeParams, .replicate signature.typeParams.length {},
        .replicate signature.typeParams.length none⟩ := by
    rw [InferredBounds.ofTypeParams, List.map_const', List.map_const', ← h.encloses.typeParams]
  have hinferred := inferTypes?_eq store signature args options
  have hskipped := inferTypes?_eq store signature args { options with skipConstraintCheck := true }
  rw [inferTypes?_eq store detached, hinferred, hsame]
  rw [InferredBounds.ofTypeParams, List.map_const', List.map_const'] at hskipped ⊢
  rcases solve_cases ⟨h, hdetaches, hinherits, hcall, hargs⟩ with ⟨fault, hrun, hrun'⟩ |
    ⟨outcome, bounds, fixed, hholds, hrun, hrun'⟩
  · rw [hrun, hrun']
    rfl
  · rw [hrun, hrun']
    rw [hrun] at hskipped
    cases outcome with
    | error failure => rfl
    | ok =>
        simp only [Query.ok_bind, accepted?, InferredBounds.fixedTypes?] at hskipped ⊢
        cases htypes : fixed.mapM id with
        | none => rfl
        | some types =>
            cases hskip : options.skipConstraintCheck with
            | true => rfl
            | false =>
                rw [htypes] at hskipped
                have hchecked := hchecked hskip
                obtain ⟨hlimits, hlimits'⟩ := hchecked.limits types hskipped
                have hclosed : ∀ type ∈ types, store.IsClosed type := by
                  intro type htype
                  refine hholds.2 type ?_
                  rw [eq_map_some_of_mapM_id htypes]
                  exact List.mem_map_of_mem htype
                have hequal := h.satisfiesConstraints hdetaches hreachable.constraintsInRange
                  hchecked.kinds hchecked.roles hclosed hlimits hlimits'
                simp only [hequal]

/-- A template that is a parameter is matched directly. -/
theorem direct_of_param {ρ : Handle → Handle → Prop} {levels : Nat} {c : Comparison}
    (hparam : store.param? c.target ≠ .ok none) : Direct store ρ (levels + 1) c := by
  refine ⟨fun hcompound => absurd hcompound.1 hparam, fun _ hcompound => absurd hcompound.1 hparam,
    fun d hnested => ?_⟩
  cases hnested with
  | element hcompound => exact absurd hcompound.1 hparam
  | argument hcompound => exact absurd hcompound.1 hparam

theorem corresponds_of_check (hs : store.Coherent) {height : Nat} {template template' : Handle}
    (hlt : template < store.size) (havoids : store.avoids detached.typeParams template = true)
    (hreplaces : store.replacesWithin false (own ++ signature.typeParams) (bound ++ detached.typeParams)
      height template template' = true) :
    Corresponds store signature detached own bound template template' :=
  ⟨⟨hlt, (Store.avoids_iff hs).mp havoids⟩, Store.replaced_of_check hs hreplaces⟩

end Detaching

/-- Cages of animals, with a callable that picks from a source something that goes into the cage, and
the same callable for a cage of animals on its own. -/
def pickOperations : List Operation :=
  [.declareGeneric .interfaceType "ISource" [("X", .covariant)],
    .declareGeneric .classType "Cage" [("T", .invariant)],
    .declare .classType "Animal",
    .declare .classType "Dog",
    .setBase 6 5,
    .finish,
    .instantiate 3 [5],
    .declareCallable "Pick" ["U"],
    .instantiate 1 [8],
    .setDeclaringType 0 7,
    .addParameter 0 4 .byValue,
    .addParameter 0 9 .byValue,
    .setReturnType 0 8,
    .addConstraint 8 (.base 4),
    .declareCallable "PickAnimal" ["V"],
    .instantiate 1 [10],
    .addParameter 1 5 .byValue,
    .addParameter 1 11 .byValue,
    .setReturnType 1 10,
    .addConstraint 10 (.base 5),
    .instantiate 1 [6]]

/-- The store that `pickOperations` build. -/
def pickStore : Store := (Operation.runAll pickOperations (.ofRoot "object")).getD {}

/-- The callable inside the cage of animals. -/
def pick : Signature :=
  { id := 0, name := "Pick", typeParams := [8], params := [⟨4, .byValue⟩, ⟨9, .byValue⟩],
    returns := some 8, declaringType := some 7 }

/-- The callable outside. -/
def pickAnimal : Signature :=
  { id := 1, name := "PickAnimal", typeParams := [10], params := [⟨5, .byValue⟩, ⟨11, .byValue⟩],
    returns := some 10 }

/-- The type parameter of `pick`: what is picked goes into the cage. -/
def pickParam : TypeParam :=
  { name := "U", owner := .callable 0, position := 0, variance := .invariant,
    constraints := [.base 4] }

/-- The type parameter of `pickAnimal`. -/
def pickAnimalParam : TypeParam :=
  { name := "V", owner := .callable 1, position := 0, variance := .invariant,
    constraints := [.base 5] }

/-- The operations run, and the store answers about the two callables and the cage. -/
theorem pickStore_answers :
    Operation.runAll pickOperations (.ofRoot "object") = some pickStore ∧
      pickStore.callables[0]? = some pick ∧ pickStore.callables[1]? = some pickAnimal ∧
      pickStore.param? 8 = .ok (some pickParam) ∧
      pickStore.param? 10 = .ok (some pickAnimalParam) ∧
      (pickStore.form 3).map (·.shape) = some (.definition [4]) ∧
      (pickStore.form 7).map (·.shape) = some (.instantiation 3 [5]) ∧
      pickStore.isOpen 7 = .ok false ∧
      ∀ pair ∈ ([(4, 5), (9, 11), (8, 10)] : List (Handle × Handle)),
        pair.1 < pickStore.size ∧ pickStore.avoids pickAnimal.typeParams pair.1 = true ∧
        pickStore.replacesWithin false ([4] ++ pick.typeParams) ([5] ++ pickAnimal.typeParams) 2
          pair.1 pair.2 = true := by
  decide +kernel

theorem pickStore_reachable : pickStore.Reachable :=
  (Store.Reachable.ofRoot "object").runAll pickStore_answers.1

theorem pick_corresponds : ∀ pair ∈ ([(4, 5), (9, 11), (8, 10)] : List (Handle × Handle)),
    Corresponds pickStore pick pickAnimal [4] [5] pair.1 pair.2 := by
  obtain ⟨-, -, -, -, -, -, -, -, hcheck⟩ := pickStore_answers
  intro pair hpair
  obtain ⟨hlt, havoids, hreplaces⟩ := hcheck pair hpair
  exact corresponds_of_check pickStore_reachable.lawful.wellFormed.coherent hlt havoids hreplaces

theorem pick_detaches : Detaches pickStore pick pickAnimal [4] [5] := by
  have hs := pickStore_reachable.lawful.wellFormed.coherent
  obtain ⟨-, hcallable, hcallable', hinfo, hinfo', hcage, hcages, hclosed, -⟩ := pickStore_answers
  obtain ⟨cage, hcage, hcageShape⟩ := Option.map_eq_some_iff.mp hcage
  obtain ⟨cages, hcages, hcagesShape⟩ := Option.map_eq_some_iff.mp hcages
  obtain ⟨h4, h9, h8⟩ : Corresponds pickStore pick pickAnimal [4] [5] 4 5 ∧
      Corresponds pickStore pick pickAnimal [4] [5] 9 11 ∧
      Corresponds pickStore pick pickAnimal [4] [5] 8 10 := by
    simpa using pick_corresponds
  exact {
    callable := hcallable
    callable' := hcallable'
    declaring := ⟨7, 3, rfl, hclosed, ⟨cage, hcage, hcageShape⟩,
      hs.applies_self hcages hcagesShape⟩
    outside := rfl
    typeParams := rfl
    params := .cons ⟨rfl, h4⟩ (.cons ⟨rfl, h9⟩ .nil)
    returns := .some h8
    constraints := .cons ⟨pickParam, pickAnimalParam, hinfo, hinfo', .cons (.base h4) .nil⟩ .nil }

theorem pick_directCall : DirectCall pickStore pick pickAnimal [4] [5] [6, 12, 5]
    { bootstrapFromConstraints := true } := by
  have hs := pickStore_reachable.lawful.wellFormed.coherent
  have h9 := pick_corresponds (9, 11) (by simp)
  have hstays : ∀ template', Corresponds pickStore pick pickAnimal [4] [5] 9 template' →
      pickStore.isOpen template' = .ok true := by
    intro template' hρ
    obtain rfl := h9.2.functional hs hρ.2
    decide +kernel
  have hparams : pickStore.param? 4 ≠ .ok none ∧ pickStore.param? 8 ≠ .ok none := by decide +kernel
  have hstarts : startComparisons pickStore pick [6, 12, 5] =
      .ok [⟨6, 4, .covariant⟩, ⟨12, 9, .covariant⟩, ⟨5, 8, .contravariant⟩] := by decide +kernel
  have hnested : nestedComparisons pickStore ⟨12, 9, .covariant⟩ = .ok [⟨6, 8, .covariant⟩] := by
    decide +kernel
  refine ⟨?_, ?_, ?_, ?_⟩
  · intro param hparam hcompound template' hρ
    obtain rfl | rfl : param = ⟨4, .byValue⟩ ∨ param = ⟨9, .byValue⟩ := by
      simpa [pick] using hparam
    · exact absurd hcompound.1 hparams.1
    · exact hstays template' hρ
  · intro c hc
    obtain rfl | rfl | rfl := by simpa using mem_startComparisons hstarts hc
    · exact direct_of_param hparams.1
    · refine ⟨fun _ => hstays, nofun, fun d hd => ?_⟩
      obtain rfl : d = ⟨6, 8, .covariant⟩ := by simpa using mem_nestedComparisons hnested hd
      exact direct_of_param hparams.2
    · exact direct_of_param hparams.2
  · intro expected returns returns' hexpected _ _ hwrapper
    cases hexpected
    have hnot : pickStore.isOptionalWrapper 5 = .ok false := by decide +kernel
    cases hnot.symm.trans hwrapper
  · intro _ param hparam info hinfo target htarget type _
    obtain rfl : param = 8 := by simpa [pick] using hparam
    obtain ⟨-, -, -, hinfo', -⟩ := pickStore_answers
    obtain rfl := Option.some.inj (Except.ok.inj (hinfo.symm.trans hinfo'))
    obtain rfl : target = 4 := by simpa [pickParam, TypeParam.constraintTargets] using htarget
    exact direct_of_param hparams.1

/-- From a source of dogs, an animal is picked for a cage of animals where an animal is expected. -/
theorem inferTypes?_detached_pick :
    pickStore.inferTypes? pick [6, 12, 5] { bootstrapFromConstraints := true } = .ok (some [5]) := by
  have hs := pickStore_reachable.lawful.wellFormed.coherent
  have hskipped : pickStore.inferTypes? pick [6, 12, 5]
      { skipConstraintCheck := true, bootstrapFromConstraints := true } = .ok (some [5]) := by
    decide +kernel
  have hclosed : ∀ arg ∈ ([6, 12, 5] : List Handle), pickStore.isOpen arg = .ok false := by
    decide +kernel
  rw [inferTypes?_detached pickStore_reachable (by decide +kernel)
    (Store.settled_of_isSettled (by decide +kernel)) pick_detaches
    (Store.delimits_of_check hs (by decide +kernel))
    (Store.scoped_of_isScoped hs (by decide +kernel))
    (Store.inheritsClosed_of_check (by decide +kernel)) hclosed pick_directCall ?_]
  · decide +kernel
  · refine fun _ => ⟨Store.uniformKinds_of_check (by decide +kernel), ?_, ?_⟩
    · have hwrapper : pickStore.optionalWrapper = none := by decide +kernel
      have hsequence : pickStore.sequenceInterfaces = [] := by decide +kernel
      simp [hwrapper, hsequence, Store.isSequenceInterface]
    · intro types htypes
      obtain rfl : types = [5] :=
        Option.some.inj (Except.ok.inj (htypes.symm.trans hskipped))
      exact ⟨ConstraintCheck.withinLimits_of_check (by decide +kernel),
        ConstraintCheck.withinLimits_of_check (by decide +kernel)⟩

-- The condition on the result is needed: inside, the return type is a parameter, so an expected
-- wrapper is unwrapped, and what it wraps is not the wrapper for which the parameter stands.
example :
    (Operation.runAll
      [.declareGeneric .structType "Optional" [("X", .invariant)],
        .declareGeneric .classType "Box" [("T", .invariant)],
        .declare .structType "int",
        .declare .classType "string",
        .setOptionalWrapper 1,
        .finish,
        .instantiate 1 [5],
        .instantiate 3 [7],
        .declareCallable "Get" ["U"],
        .setDeclaringType 0 8,
        .addParameter 0 9 .byValue,
        .setReturnType 0 4,
        .declareCallable "GetBound" ["U"],
        .addParameter 1 10 .byValue,
        .setReturnType 1 7] (.ofRoot "object")).map (fun store =>
      store.callables.toList.map (store.inferTypes? · [6, 7] {})) =
      some [.ok none, .ok (some [6])] := by
  decide +kernel

end Inference

end NominalGenerics
