import NominalGenerics.Proofs.DetachedTemplates
import NominalGenerics.Proofs.WitnessOrigins

/-!
# Exact matching

Matched exactly, a template is compared with a type by one-way matching: the walk finds the types for
which the template denotes the type, if there are any. `Denotes` is the reading of a template that
this refers to. Inside a definition, the arguments of the declaring type stand for the parameters of
the definition, and a definition that is mentioned bare stands for its instantiation by them.

`collect_exact` states both directions. What a match says is shown by induction over its levels. That
a walk which does not come to the depth limit refuses nothing is shown of the walk itself, since how
deep it went is part of its final state.
-/

namespace NominalGenerics.Collection

open Relation (ReflTransGen)

variable {store : Store} {signature : Signature}

section Reading

/-- The type parameters of the definition around a callable, and the arguments that the declaring type
has for them. -/
inductive Encloses (store : Store) (signature : Signature) : List Handle → List Handle → Prop
  | plain (h : ∀ declaring, signature.declaringType = some declaring →
      store.definition? declaring = .ok none) : Encloses store signature [] []
  | generic {declaring definition : Handle} {own bound : List Handle}
      (hdeclaring : signature.declaringType = some declaring)
      (hdefines : store.Defines definition own)
      (happlies : store.Applies definition bound declaring) : Encloses store signature own bound

/-- The template is the type, with types put in for the type parameters of the callable and the
arguments of the declaring type for those of the definition around it. -/
def Denotes (store : Store) (signature : Signature) (types : List Handle)
    (template type : Handle) : Prop :=
  ∃ own bound, Encloses store signature own bound ∧
    store.Replaced false (signature.typeParams ++ own) (types ++ bound) template type

theorem exists_encloses (hs : store.Coherent) (hsignature : store.SignatureInRange signature) :
    ∃ own bound, Encloses store signature own bound := by
  cases hdeclaring : signature.declaringType with
  | none => exact ⟨[], [], .plain fun _ h => by cases hdeclaring.symm.trans h⟩
  | some declaring =>
      obtain ⟨form, hform⟩ := Store.form_isSome (hsignature.declaringType declaring hdeclaring)
      cases hdef : form.definition? declaring with
      | none =>
          refine ⟨[], [], .plain fun declaring' h => ?_⟩
          obtain rfl := Option.some.inj (hdeclaring.symm.trans h)
          rw [Store.definition?_of_form hform, hdef]
      | some definition =>
          have happlies := hs.applies_of_form hform hdef
          obtain ⟨own, hdefines, -⟩ := id happlies
          exact ⟨own, _, .generic hdeclaring hdefines happlies⟩

variable {own bound own' bound' : List Handle}

theorem Encloses.unique (h : Encloses store signature own bound)
    (h' : Encloses store signature own' bound') : own = own' ∧ bound = bound' := by
  have hplain : ∀ {declaring definition : Handle} {args : List Handle},
      store.Applies definition args declaring → store.definition? declaring ≠ .ok none := by
    intro declaring definition args happlies hnone
    obtain ⟨form, hform, hdef, -⟩ := happlies.exists_form
    rw [Store.definition?_of_form hform, hdef] at hnone
    cases hnone
  cases h with
  | plain h =>
      cases h' with
      | plain => exact ⟨rfl, rfl⟩
      | generic hdeclaring _ happlies => exact absurd (h _ hdeclaring) (hplain happlies)
  | generic hdeclaring hdefines happlies =>
      cases h' with
      | plain h' => exact absurd (h' _ hdeclaring) (hplain happlies)
      | generic hdeclaring' hdefines' happlies' =>
          obtain rfl := Option.some.inj (hdeclaring.symm.trans hdeclaring')
          obtain ⟨rfl, rfl⟩ := happlies.inj happlies'
          exact ⟨hdefines.unique hdefines', rfl⟩

/-- A template denotes one type. -/
theorem Denotes.functional (hs : store.Coherent) {types : List Handle} {template type type' : Handle}
    (h : Denotes store signature types template type)
    (h' : Denotes store signature types template type') : type = type' := by
  obtain ⟨own, bound, henclosed, hreplaced⟩ := h
  obtain ⟨own', bound', henclosed', hreplaced'⟩ := h'
  obtain ⟨rfl, rfl⟩ := henclosed.unique henclosed'
  exact hreplaced.functional hs hreplaced'

theorem Encloses.paramAt (h : Encloses store signature own bound) (hs : store.Coherent) :
    ∃ owner, ∀ (i : Nat) param, own[i]? = some param → store.ParamAt param owner i := by
  cases h with
  | plain => exact ⟨.type 0, by simp⟩
  | generic _ hdefines _ =>
      obtain ⟨form, hform, hshape⟩ := hdefines
      exact ⟨_, fun _ _ => hs.paramAt hform hshape⟩

theorem Encloses.parameters (h : Encloses store signature own bound) (hs : store.Coherent)
    (hcallable : store.HasCallable signature) :
    store.Parameters (signature.typeParams ++ own) := by
  intro param hparam
  rcases List.mem_append.mp hparam with hparam | hparam
  · obtain ⟨position, hat⟩ := hcallable.paramAt hs hparam
    exact ⟨_, position, hat⟩
  · obtain ⟨owner, hown⟩ := h.paramAt hs
    obtain ⟨i, hi⟩ := List.getElem?_of_mem hparam
    exact ⟨owner, i, hown i param hi⟩

variable {types : List Handle} {target : Handle}

theorem idxOf?_append (params own : List Handle) (type : Handle) : (params ++ own).idxOf? type =
    (params.idxOf? type).or ((own.idxOf? type).map (· + params.length)) :=
  List.findIdx?_append

/-- A type parameter of the callable becomes the type at its position. -/
theorem replaced_own (hs : store.Coherent) (hcallable : store.HasCallable signature) {i : Nat}
    (hposition : signature.typeParams[i]? = some target) {type : Handle}
    (htype : types[i]? = some type) :
    store.Replaced false (signature.typeParams ++ own) (types ++ bound) target type := by
  have hindex : (signature.typeParams ++ own).idxOf? target = some i := by
    rw [idxOf?_append, Store.idxOf?_of_paramAt (hs.callables hcallable).2 hposition, Option.some_or]
  have htype : (types ++ bound)[i]? = some type := by
    rw [List.getElem?_append_left (List.getElem?_eq_some_iff.mp htype).choose, htype]
  exact .bound hindex htype

theorem of_replaced_own (hs : store.Coherent) (hcallable : store.HasCallable signature)
    (hlength : types.length = signature.typeParams.length) {i : Nat}
    (hposition : signature.typeParams[i]? = some target) {type : Handle}
    (h : store.Replaced false (signature.typeParams ++ own) (types ++ bound) target type) :
    types[i]? = some type := by
  obtain ⟨type', htype'⟩ := getElem?_of_length_eq hlength hposition
  obtain rfl := (replaced_own hs hcallable hposition htype').functional hs h
  exact htype'

/-- The argument that stands for a type is the one bound to it, if there is one. -/
theorem Encloses.enclosingArgument (h : Encloses store signature own bound) (hs : store.Coherent)
    (hlt : target < store.size) :
    (∃ i : Nat, own[i]? = some target ∧ ∃ argument, bound[i]? = some argument ∧
        Collection.enclosingArgument store signature target = .ok argument) ∨
      target ∉ own ∧ Collection.enclosingArgument store signature target = .ok target := by
  cases h with
  | plain hplain =>
      exact Or.inr ⟨by simp, Inference.enclosingArgument_of_plain hplain hlt⟩
  | @generic declaring definition _ _ hdeclaring hdefines happlies =>
      obtain ⟨_, hdefines', hlength, -⟩ := id happlies
      obtain rfl := hdefines.unique hdefines'
      have hbinds : ({ typeOwner := some definition, typeArgs := bound } : Substitution).Binds store
          own [] :=
        ⟨fun _ howner => Option.some.inj howner ▸ hdefines, nofun, nofun, fun _ => rfl, hlength, rfl⟩
      rw [enclosingArgument_eq_resolve hdeclaring happlies]
      by_cases hmem : target ∈ own
      · obtain ⟨i, hi⟩ := List.getElem?_of_mem hmem
        obtain ⟨argument, hargument, hresolve⟩ := hbinds.resolve_bound hs (by simpa using hi)
        exact Or.inl ⟨i, hi, argument, by simpa using hargument, hresolve⟩
      · exact Or.inr ⟨hmem, hbinds.resolve_free hs hlt (by simpa using hmem)⟩

/-- A parameter of another declaration becomes the argument that stands for it. -/
theorem Encloses.replaced_foreign (h : Encloses store signature own bound) (hs : store.Coherent)
    (hcallable : store.HasCallable signature) (hlength : types.length = signature.typeParams.length)
    {info : TypeParam} (hparam : store.param? target = .ok (some info))
    (howner : info.owner ≠ .callable signature.id) {argument : Handle}
    (hargument : Collection.enclosingArgument store signature target = .ok argument) :
    store.Replaced false (signature.typeParams ++ own) (types ++ bound) target argument := by
  have hat := Store.paramAt_of_param? hparam
  obtain ⟨form, hform, hdef, harray⟩ := hat.exists_form
  have hfree : target ∉ signature.typeParams := by
    intro hmem
    obtain ⟨_, hat'⟩ := hcallable.paramAt hs hmem
    exact howner (hat.unique hat').1
  rcases h.enclosingArgument hs (Store.form_lt hform) with
    ⟨i, hi, bound', hbound, hargument'⟩ | ⟨hown, hself⟩
  · obtain rfl := Except.ok.inj (hargument.symm.trans hargument')
    have hindex : (signature.typeParams ++ own).idxOf? target =
        some (i + signature.typeParams.length) := by
      rw [idxOf?_append, List.idxOf?_eq_none_iff.mpr hfree, Option.none_or,
        Store.idxOf?_of_paramAt (h.paramAt hs).choose_spec hi]
      rfl
    have hbound : (types ++ bound)[i + signature.typeParams.length]? = some argument := by
      rw [List.getElem?_append_right (by omega), hlength, Nat.add_sub_cancel, hbound]
    exact .bound hindex hbound
  · obtain rfl := Except.ok.inj (hself.symm.trans hargument)
    exact .leaf (by simp [hfree, hown]) hform harray (Or.inl hdef)

end Reading

section Shapes

variable {params args : List Handle} {source target : Handle}

/-- A template that is no parameter is built like what it denotes. -/
theorem Compound.alike (hs : store.Coherent) (hparams : store.Parameters params)
    (hcompound : Compound store target) (h : store.Replaced false params args target source) :
    (∃ element part rank, store.IsArray element rank target ∧ store.IsArray part rank source ∧
        store.Replaced false params args element part) ∨
      ∃ definition targetArgs sourceArgs, store.Applies definition targetArgs target ∧
        store.Applies definition sourceArgs source ∧
        List.Forall₂ (store.Replaced false params args) targetArgs sourceArgs := by
  have hfree : target ∉ params := by
    rcases hcompound.cases hs with ⟨_, _, harray⟩ | ⟨_, _, happlies⟩
    · exact hparams.not_mem_of_isArray harray
    · exact hparams.not_mem_of_applies happlies
  cases h.alike hs hfree with
  | application ha hb hparts => exact Or.inr ⟨_, _, _, ha, hb, hparts⟩
  | array ha hb helement => exact Or.inl ⟨_, _, _, ha, hb, helement⟩
  | leaf hform hdef harray =>
      rcases hcompound.cases hs with ⟨_, _, hisArray⟩ | ⟨_, _, happlies⟩
      · obtain ⟨_, hform', harray', -⟩ := hisArray.exists_form
        obtain rfl := Option.some.inj (hform.symm.trans hform')
        cases harray.symm.trans harray'
      · obtain ⟨_, hform', hdef', -⟩ := happlies.exists_form
        obtain rfl := Option.some.inj (hform.symm.trans hform')
        cases hdef.symm.trans hdef'

theorem hasArray_of_isArray {element part : Handle} {rank : Nat}
    (ha : store.IsArray element rank target) (hb : store.IsArray part rank source) :
    HasArray store source target :=
  ⟨_, _, Store.array?_of_isArray hb, Store.array?_of_isArray ha, rfl⟩

theorem not_hasArray_of_applies {definition : Handle} {targetArgs sourceArgs : List Handle}
    (ha : store.Applies definition targetArgs target)
    (hb : store.Applies definition sourceArgs source) : ¬ HasArray store source target := by
  rintro ⟨s, t, hsource, htarget, hsome⟩
  obtain rfl := Except.ok.inj (hb.queries.2.2.1.symm.trans hsource)
  obtain rfl := Except.ok.inj (ha.queries.2.2.1.symm.trans htarget)
  cases hsome

/-- Where a template denotes the type that it is matched with exactly, its parts denote the parts. -/
theorem replaced_of_nested (hs : store.Coherent) (hparams : store.Parameters params)
    {c d : Comparison} (hflow : c.flow = .invariant)
    (h : store.Replaced false params args c.target c.source) (hnested : Nested store c d) :
    store.Replaced false params args d.target d.source := by
  obtain ⟨source, target, flow⟩ := c
  obtain ⟨dsource, dtarget, dflow⟩ := d
  obtain rfl : flow = .invariant := hflow
  cases hnested with
  | element hcompound harray helements =>
      obtain ⟨-, rank, hsource, htarget⟩ := helements
      rcases hcompound.alike hs hparams h with ⟨_, _, _, ha, hb, hpart⟩ | ⟨_, _, _, ha, hb, -⟩
      · obtain ⟨rfl, -⟩ := ha.inj (Store.isArray_of_array? htarget)
        obtain ⟨rfl, -⟩ := hb.inj (Store.isArray_of_array? hsource)
        exact hpart
      · exact absurd harray (not_hasArray_of_applies ha hb)
  | argument hcompound harray hinstances hsource htarget =>
      obtain ⟨-, -, hsargs, htargs⟩ := hinstances
      rcases hcompound.alike hs hparams h with ⟨_, _, _, ha, hb, -⟩ | ⟨_, _, _, ha, hb, hparts⟩
      · exact absurd (hasArray_of_isArray ha hb) harray
      · obtain rfl := Except.ok.inj (ha.queries.2.1.symm.trans htargs)
        obtain rfl := Except.ok.inj (hb.queries.2.1.symm.trans hsargs)
        exact (forall₂_iff_getElem?.mp hparts).2 _ _ _ htarget hsource

theorem replaced_of_path (hs : store.Coherent) (hparams : store.Parameters params)
    {c d : Comparison} (hflow : c.flow = .invariant)
    (h : store.Replaced false params args c.target c.source)
    (hpath : ReflTransGen (Nested store) c d) :
    store.Replaced false params args d.target d.source := by
  induction hpath with
  | refl => exact h
  | tail hpath hnested ih => exact replaced_of_nested hs hparams (flow_of_path hpath hflow) ih hnested

end Shapes

section Soundness

variable {own bound types : List Handle}

/-- A template that matches exactly denotes the type, if the types put in for the type parameters are
those recorded for them. -/
theorem replaced_of_recorded (hs : store.WellFormed) (hcallable : store.HasCallable signature)
    (henclosed : Encloses store signature own bound)
    (hlength : types.length = signature.typeParams.length) {bounds : List BoundSet}
    (hrecorded : ∀ position type, Recorded bounds position type .invariant →
      types[position]? = some type) {levels : Nat} {c : Comparison} (hflow : c.flow = .invariant)
    (hsource : c.source < store.size) (htarget : c.target < store.size)
    (hmatch : Matches store signature (Recorded bounds) levels c) :
    store.Replaced false (signature.typeParams ++ own) (types ++ bound) c.target c.source := by
  have hparams := henclosed.parameters hs.coherent hcallable
  have hclosed : ∀ {type : Handle}, store.isOpen type = .ok false →
      store.Replaced false (signature.typeParams ++ own) (types ++ bound) type type := by
    intro type htype
    obtain ⟨form, hform, hclosed⟩ := Store.form_of_isOpen htype
    exact hparams.replaced_closed hs.coherent hform hclosed
  induction levels generalizing c with
  | zero => exact hmatch.elim
  | succ levels ih =>
      obtain ⟨source, target, flow⟩ := c
      obtain rfl : flow = .invariant := hflow
      cases hmatch with
      | own hparam howner hrecord =>
          exact replaced_own hs.coherent hcallable
            (hcallable.position_of_owner hs.coherent hparam howner) (hrecorded _ _ hrecord)
      | foreign hparam howner hargument hrelated =>
          obtain rfl := eq_of_relateConcrete hrelated
          exact henclosed.replaced_foreign hs.coherent hcallable hlength hparam howner hargument
      | concrete _ htemplate hrelated =>
          obtain rfl : source = target := eq_of_relateConcrete hrelated
          exact hclosed htemplate
      | @elements d _ _ helements hmatch =>
          obtain ⟨hds, hdt⟩ := helements.lt hs hsource htarget
          obtain ⟨hdflow, rank, hsarray, htarray⟩ := helements
          have hsource' : store.IsArray d.source rank source := Store.isArray_of_array? hsarray
          have htarget' : store.IsArray d.target rank target := Store.isArray_of_array? htarray
          exact hparams.replaced_isArray htarget' hsource' (ih hdflow hds hdt hmatch)
      | ambiguous _ _ hambiguous => exact hambiguous.elim
      | arguments hcompound harray hinstances hargs =>
          obtain ⟨hsargslt, htargslt⟩ := hinstances.lt hs hsource htarget
          obtain ⟨happlies, hsapplies⟩ := hinstances.applies hs hsource htarget hcompound harray
          refine hparams.replaced_applies happlies hsapplies
            (forall₂_iff_getElem?.mpr ⟨hargs.1.symm, fun i y x hy hx => ?_⟩)
          obtain ⟨flow, ⟨variance, valueType, -, -, hflow⟩, hcase⟩ := hargs.2 i x y hx hy
          have hflow : flow = .invariant := hflow.trans (Flow.combine_invariant _ _)
          subst hflow
          rcases hcase with ⟨-, hmatch⟩ | ⟨htemplate, hrelated⟩
          · exact ih rfl (hsargslt x (List.mem_of_getElem? hx)) (htargslt y (List.mem_of_getElem? hy))
              hmatch
          · obtain rfl := eq_of_relateConcrete hrelated
            exact hclosed htemplate

end Soundness

/-- Whenever the walk ends, it has answered yes, unless it came to the depth limit. -/
def Accepts (width : Nat) (walk : CollectM Bool) : Prop :=
  ∀ collector matched collector', collector.bounds.length = width →
    walk.run collector = .ok (matched, collector') →
      collector'.bounds.length = width ∧ (matched = false → collector'.depth.exceeded = true)

section Walks

variable {α : Type} {width : Nat}

theorem accepts_true : Accepts width (pure true) := by
  intro collector matched collector' hwidth hrun
  obtain ⟨rfl, rfl⟩ := run_pure_eq_ok.mp hrun
  exact ⟨hwidth, nofun⟩

theorem accepts_throw (fault : Fault) : Accepts width (throw fault) :=
  fun _ _ _ _ hrun => nomatch hrun

/-- A walk that goes on from an answer of the store. -/
theorem accepts_read {x : Query α} {next : α → CollectM Bool}
    (hnext : ∀ a, x = .ok a → Accepts width (next a)) : Accepts width (liftM x >>= next) := by
  intro collector matched collector' hwidth hrun
  obtain ⟨a, between, hlift, hrun⟩ := run_bind_eq_ok.mp hrun
  obtain ⟨hx, rfl⟩ := run_lift_eq_ok.mp hlift
  exact hnext a hx collector matched collector' hwidth hrun

theorem accepts_known {x : Query α} {a : α} {next : α → CollectM Bool} (hx : x = .ok a)
    (hnext : Accepts width (next a)) : Accepts width (liftM x >>= next) := by
  subst hx
  exact hnext

theorem accepts_allM {f : α → CollectM Bool} {as : List α} (h : ∀ a ∈ as, Accepts width (f a)) :
    Accepts width (as.allM f) := by
  induction as with
  | nil => exact accepts_true
  | cons a as ih =>
      intro collector matched collector' hwidth hrun
      rw [List.allM] at hrun
      obtain ⟨answer, between, hfirst, hrun⟩ := run_bind_eq_ok.mp hrun
      obtain ⟨hwidth', hanswer⟩ := h a List.mem_cons_self collector answer between hwidth hfirst
      cases answer with
      | true => exact ih (fun b hb => h b (List.mem_cons_of_mem a hb)) _ _ _ hwidth' hrun
      | false =>
          obtain ⟨rfl, rfl⟩ := run_pure_eq_ok.mp hrun
          exact ⟨hwidth', hanswer⟩

theorem record_accepts {position : Nat} (hlt : position < width) (source : Handle) (flow : Flow) :
    Accepts width (record position source flow) := by
  intro collector matched collector' hwidth hrun
  rw [record] at hrun
  obtain ⟨_, _, hget, hrun⟩ := run_bind_eq_ok.mp hrun
  cases hget
  rw [if_pos (hwidth ▸ hlt)] at hrun
  cases hrun
  exact ⟨(List.length_modify _ _ _).trans hwidth, by simp⟩

theorem relateConcrete_accepts (store : Store) (type : Handle) :
    Accepts width (liftM (relateConcrete store type type .invariant)) := by
  intro collector matched collector' hwidth hrun
  obtain ⟨hanswer, rfl⟩ := run_lift_eq_ok.mp hrun
  obtain rfl : (type == type) = matched := Query.pure_eq_ok.mp hanswer
  exact ⟨hwidth, by simp⟩

end Walks

section Completeness

variable {collect : Handle → Handle → Flow → CollectM Bool} {params args : List Handle}
  {own bound types : List Handle} {source target : Handle} {width : Nat}

theorem arguments_accepts (hs : store.Coherent) (hparams : store.Parameters params)
    (hcollect : ∀ source target, store.Replaced false params args target source →
      Accepts width (collect source target .invariant))
    (definition : Handle) {sourceArgs targetArgs : List Handle}
    (hparts : List.Forall₂ (store.Replaced false params args) targetArgs sourceArgs) :
    Accepts width (arguments store collect definition sourceArgs targetArgs .invariant) := by
  obtain ⟨hlength, hparts⟩ := forall₂_iff_getElem?.mp hparts
  rw [arguments, if_pos hlength.symm]
  refine accepts_allM fun p hp => ?_
  obtain ⟨⟨x, y⟩, i⟩ := p
  obtain ⟨hx, hy⟩ := List.getElem?_zip_eq_some.mp (List.mem_zipIdx_iff_getElem?.mp hp)
  have hpart := hparts i y x hy hx
  refine accepts_read fun variance _ => accepts_read fun valueType _ =>
    accepts_read fun isOpen hopen => ?_
  rw [Flow.combine_invariant]
  cases isOpen with
  | true => exact hcollect x y hpart
  | false =>
      obtain ⟨form, hform, hclosed⟩ := Store.form_of_isOpen hopen
      obtain rfl := hparams.eq_of_closed hs hpart hform hclosed
      exact relateConcrete_accepts store x

/-- A step refuses no template that denotes the type. -/
theorem step_accepts (hs : store.Coherent) (hcallable : store.HasCallable signature)
    (henclosed : Encloses store signature own bound)
    (hlength : types.length = signature.typeParams.length)
    (hcollect : ∀ source target,
      store.Replaced false (signature.typeParams ++ own) (types ++ bound) target source →
        Accepts signature.typeParams.length (collect source target .invariant))
    (h : store.Replaced false (signature.typeParams ++ own) (types ++ bound) target source) :
    Accepts signature.typeParams.length
      (step store signature collect source target .invariant) := by
  have hparams := henclosed.parameters hs hcallable
  refine accepts_read fun info? hparam => ?_
  split
  · next info =>
      split
      · next howner =>
          have hposition := hcallable.position_of_owner hs hparam howner
          exact record_accepts (List.getElem?_eq_some_iff.mp hposition).choose _ _
      · next howner =>
          refine accepts_read fun argument hargument => ?_
          obtain rfl := (henclosed.replaced_foreign hs hcallable hlength hparam howner
            hargument).functional hs h
          exact relateConcrete_accepts store _
  · refine accepts_read fun isOpen hopen => ?_
    cases isOpen with
    | false =>
        obtain ⟨form, hform, hclosed⟩ := Store.form_of_isOpen hopen
        obtain rfl := hparams.eq_of_closed hs h hform hclosed
        exact relateConcrete_accepts store _
    | true =>
        rw [if_pos rfl]
        have hcompound : Compound store target := ⟨hparam, hopen⟩
        rcases hcompound.alike hs hparams h with
          ⟨element, part, rank, ha, hb, hpart⟩ | ⟨definition, targs, sargs, ha, hb, hparts⟩
        · have hsarray := Store.array?_of_isArray hb
          have htarray := Store.array?_of_isArray ha
          refine accepts_known hsarray (accepts_known htarray ?_)
          rw [if_pos (by simp), arrays]
          refine accepts_known hsarray (accepts_known htarray ?_)
          dsimp only
          rw [if_pos rfl]
          exact hcollect part element hpart
        · obtain ⟨hsd, hsargs, hsnone, -⟩ := hb.queries
          obtain ⟨htd, htargs, htnone, -⟩ := ha.queries
          refine accepts_known hsnone (accepts_known htnone ?_)
          rw [if_neg (by simp), implementation]
          refine accepts_known hsd (accepts_known htd ?_)
          dsimp only
          rw [if_pos rfl]
          exact accepts_known hsargs (accepts_known htargs
            (arguments_accepts hs hparams hcollect _ hparts))

theorem visit_accepts
    (hstep : Accepts width (step store signature collect source target .invariant)) :
    Accepts width (visit store signature collect source target .invariant) := by
  intro collector matched collector' hwidth hrun
  rw [visit] at hrun
  obtain ⟨_, _, hget, hrun⟩ := run_bind_eq_ok.mp hrun
  cases hget
  by_cases hfull : collector.depth.maxDepth ≤ collector.depth.depth
  · simp only [DepthCounter.enter, if_pos hfull] at hrun
    cases hrun
    exact ⟨hwidth, fun _ => rfl⟩
  · simp only [DepthCounter.enter, if_neg hfull] at hrun
    obtain ⟨_, _, hdown, hrun⟩ := run_bind_eq_ok.mp hrun
    cases hdown
    obtain ⟨answer, between, hrunStep, hrun⟩ := run_bind_eq_ok.mp hrun
    obtain ⟨hwidth', hanswer⟩ := hstep
      { collector with depth := { collector.depth with depth := collector.depth.depth + 1 } }
      answer between hwidth hrunStep
    obtain ⟨_, _, hget, hrun⟩ := run_bind_eq_ok.mp hrun
    cases hget
    obtain ⟨depth, _, hleave, hrun⟩ := run_bind_eq_ok.mp hrun
    obtain ⟨hleave, rfl⟩ := run_lift_eq_ok.mp hleave
    have hexceeded : depth.exceeded = between.depth.exceeded := by
      rw [DepthCounter.leave] at hleave
      split at hleave
      · cases hleave
      · cases hleave
        rfl
    cases hrun
    exact ⟨hwidth', fun hfalse => hexceeded.trans (hanswer hfalse)⟩

theorem collectWithin_accepts (hs : store.Coherent) (hcallable : store.HasCallable signature)
    (henclosed : Encloses store signature own bound)
    (hlength : types.length = signature.typeParams.length) (fuel : Nat)
    (h : store.Replaced false (signature.typeParams ++ own) (types ++ bound) target source) :
    Accepts signature.typeParams.length
      (collectWithin store signature fuel source target .invariant) := by
  induction fuel generalizing source target with
  | zero =>
      exact visit_accepts (step_accepts hs hcallable henclosed hlength
        (fun _ _ _ => accepts_throw _) h)
  | succ fuel ih =>
      exact visit_accepts (step_accepts hs hcallable henclosed hlength (fun _ _ => ih) h)

end Completeness

/-- Matching exactly, from bound sets that hold nothing, does not come to the depth limit. -/
def StaysShallow (store : Store) (signature : Signature) (source target : Handle)
    (bounds : List BoundSet) : Prop :=
  ∀ matched collector,
    (collectWithin store signature Limits.collection.maxDepth source target .invariant).run
        { bounds, depth := .ofLimits Limits.collection } = .ok (matched, collector) →
      collector.depth.exceeded = false

/-- Different witnesses are recorded for no type parameter. -/
def Unanimous (bounds : List BoundSet) : Prop :=
  ∀ position a b flow flow', Recorded bounds position a flow → Recorded bounds position b flow' →
    a = b

/-- One type for each type parameter of the callable: the witness, if one is recorded. -/
def Selects (signature : Signature) (bounds : List BoundSet) (types : List Handle) : Prop :=
  types.length = signature.typeParams.length ∧
    ∀ position type flow, Recorded bounds position type flow → types[position]? = some type

theorem Unanimous.exists_selects {bounds : List BoundSet} (h : Unanimous bounds)
    (hlength : bounds.length = signature.typeParams.length)
    (hexact : ∀ position type flow, Recorded bounds position type flow → flow = .invariant) :
    ∃ types, Selects signature bounds types := by
  refine ⟨bounds.map fun set => set.exact.headD 0, (List.length_map _).trans hlength, ?_⟩
  rintro position type flow hrecorded
  obtain rfl := hexact position type flow hrecorded
  obtain ⟨set, hset, htype⟩ := hrecorded
  rw [List.getElem?_map, hset, Option.map_some, Option.some.injEq]
  cases hwitnesses : set.exact with
  | nil =>
      rw [BoundSet.side, hwitnesses] at htype
      cases htype
  | cons head rest =>
      have hhead : Recorded bounds position head .invariant :=
        ⟨set, hset, by rw [BoundSet.side, hwitnesses]; exact List.mem_cons_self⟩
      exact h position head type _ _ hhead ⟨set, hset, htype⟩

/-- Matched exactly, from bound sets that hold nothing, a template gives exact witnesses only, each in
a comparison nested in the one that is matched. -/
theorem exact_origins (hs : store.WellFormed) (hsignature : store.SignatureInRange signature)
    {source target : Handle} (hsource : source < store.size) (htarget : target < store.size)
    {width : Nat} {matched : Bool} {bounds : List BoundSet}
    (h : Collection.collect store signature source target .invariant (List.replicate width {}) =
      .ok (matched, bounds)) {position : Nat} {type : Handle} {flow : Flow}
    (hrecorded : Recorded bounds position type flow) : flow = .invariant ∧
      ∃ d, ReflTransGen (Nested store) ⟨source, target, .invariant⟩ d ∧
        Gives store signature d ⟨position, type, flow⟩ := by
  obtain ⟨_, found, h', hfound, -⟩ := collect_found hs hsignature
    (c := ⟨source, target, .invariant⟩) hsource htarget (List.replicate width {})
  obtain ⟨rfl, rfl⟩ := Prod.mk.inj (Except.ok.inj (h.symm.trans h'))
  rcases recorded_recordAll.mp hrecorded with ⟨set, hset, htype⟩ | ⟨-, hmem⟩
  · obtain rfl := List.eq_of_mem_replicate (List.mem_of_getElem? hset)
    cases flow <;> cases htype
  · obtain ⟨-, d, hvisits, hgives⟩ := (hfound _).mp hmem
    obtain ⟨info, -, -, hwitness⟩ := id hgives
    obtain ⟨-, -, rfl⟩ := WitnessAt.mk.inj hwitness
    exact ⟨flow_of_path hvisits.path rfl, d, hvisits.path, hgives⟩

/-- A match that does not come to the depth limit refuses no template that denotes the type. -/
theorem matched_of_denotes (hs : store.Coherent) (hcallable : store.HasCallable signature)
    {source target : Handle} {bounds bounds' : List BoundSet} {types : List Handle} {matched : Bool}
    (hwidth : bounds.length = signature.typeParams.length)
    (hlength : types.length = signature.typeParams.length)
    (hshallow : StaysShallow store signature source target bounds)
    (hdenotes : Denotes store signature types target source)
    (h : Collection.collect store signature source target .invariant bounds =
      .ok (matched, bounds')) : matched = true := by
  obtain ⟨own, bound, henclosed, hreplaced⟩ := hdenotes
  obtain ⟨⟨answer, collector⟩, hrun, h⟩ := Query.bind_eq_ok.mp h
  obtain ⟨_, -, h⟩ := Query.bind_eq_ok.mp h
  obtain rfl := (Prod.mk.inj (Query.pure_eq_ok.mp h)).1
  obtain ⟨-, hanswer⟩ := collectWithin_accepts hs hcallable henclosed hlength _ hreplaced _ _ _
    hwidth hrun
  cases answer with
  | true => rfl
  | false => cases (hshallow _ _ hrun).symm.trans (hanswer rfl)

/-- What matching exactly finds out, from bound sets that hold nothing. It records exact witnesses.
If it succeeds and does not record different ones for one type parameter, then the template denotes
the type, with the witnesses put in. If the template denotes the type for some types, and the walk
does not come to the depth limit, it succeeds, and these types are the witnesses. -/
theorem collect_exact (hs : store.Reachable) (hcallable : store.HasCallable signature)
    {source target : Handle} (hsource : source < store.size) (htarget : target < store.size) :
    ∃ matched bounds, Collection.collect store signature source target .invariant
        (List.replicate signature.typeParams.length {}) = .ok (matched, bounds) ∧
      (∀ position type flow, Recorded bounds position type flow → flow = .invariant) ∧
      (matched = true → Unanimous bounds →
        (∃ types, Selects signature bounds types) ∧
          ∀ types, Selects signature bounds types → Denotes store signature types target source) ∧
      (StaysShallow store signature source target
          (List.replicate signature.typeParams.length {}) →
        ∀ types : List Handle, types.length = signature.typeParams.length →
          Denotes store signature types target source →
            matched = true ∧ Selects signature bounds types) := by
  have hwf := hs.lawful.wellFormed
  have hsignature := hwf.inRange.signatures hcallable
  obtain ⟨matched, bounds, hcollect, hgrow, hsound, -⟩ :=
    collect_matches hwf hsignature ⟨source, target, .invariant⟩
      (List.replicate signature.typeParams.length {}) hsource htarget
  have hmatch := fun hmatched => hsound hmatched bounds (BoundsGrow.refl _ _)
  have hexact : ∀ position type flow, Recorded bounds position type flow → flow = .invariant :=
    fun _ _ _ hrecorded => (exact_origins hwf hsignature hsource htarget hcollect hrecorded).1
  refine ⟨matched, bounds, hcollect, hexact, fun hmatched hunanimous => ⟨?_, ?_⟩, ?_⟩
  · exact hunanimous.exists_selects (hgrow.length.trans List.length_replicate) hexact
  · rintro types ⟨hlength, hselected⟩
    obtain ⟨own, bound, henclosed⟩ := exists_encloses hwf.coherent hsignature
    exact ⟨own, bound, henclosed, replaced_of_recorded hwf hcallable henclosed hlength
      (fun position type => hselected position type .invariant) rfl hsource htarget
      (hmatch hmatched)⟩
  · intro hshallow types hlength hdenotes
    refine ⟨matched_of_denotes hwf.coherent hcallable List.length_replicate hlength hshallow hdenotes
      hcollect, hlength, fun position type flow hrecorded => ?_⟩
    obtain ⟨own, bound, henclosed, hreplaced⟩ := hdenotes
    obtain ⟨-, d, hpath, info, hparam, howner, hwitness⟩ :=
      exact_origins hwf hsignature hsource htarget hcollect hrecorded
    obtain ⟨rfl, rfl, -⟩ := WitnessAt.mk.inj hwitness
    have hpart := replaced_of_path hwf.coherent (henclosed.parameters hwf.coherent hcallable) rfl
      hreplaced hpath
    exact of_replaced_own hwf.coherent hcallable hlength
      (hcallable.position_of_owner hwf.coherent hparam howner) hpart

/-- Boxes and pairs, and a callable inside boxes of `int` that takes a pair of a box and an array. -/
def copyOperations : List Operation :=
  [.declareGeneric .classType "Box" [("X", .invariant)],
    .declareGeneric .classType "Pair" [("A", .invariant), ("B", .invariant)],
    .declare .structType "int",
    .declare .classType "string",
    .finish,
    .instantiate 1 [6],
    .arrayOf 7 1,
    .instantiate 3 [8, 9],
    .declareCallable "Copy" ["T"],
    .setDeclaringType 0 8,
    .arrayOf 11 1,
    .instantiate 3 [1, 12],
    .addParameter 0 13 .byRef]

/-- The store that `copyOperations` build: `Copy<T>(ref Pair<Box, T[]>)` in `Box<int>`. -/
def copyStore : Store := (Operation.runAll copyOperations (.ofRoot "object")).getD {}

/-- The callable of `copyStore`. -/
def copy : Signature :=
  { id := 0, name := "Copy", typeParams := [11], params := [⟨13, .byRef⟩], declaringType := some 8 }

/-- `Pair<Box, T[]>` is `Pair<Box<int>, string[]>` for `string`, and not for `int`. -/
theorem collect_exact_copy :
    Collection.collect copyStore copy 10 13 .invariant [{}] = .ok (true, [{ exact := [7] }]) ∧
      Denotes copyStore copy [7] 13 10 ∧ ¬ Denotes copyStore copy [6] 13 10 := by
  have hreachable : copyStore.Reachable := (Store.Reachable.ofRoot "object").runAll
    (by decide +kernel : Operation.runAll copyOperations (.ofRoot "object") = some copyStore)
  have hcallable : copyStore.HasCallable copy :=
    (by decide +kernel : copyStore.callables[0]? = some copy)
  have hrun : (collectWithin copyStore copy Limits.collection.maxDepth 10 13 .invariant).run
      { bounds := [{}], depth := .ofLimits Limits.collection } =
        .ok (true, { bounds := [{ exact := [7] }], depth := .ofLimits Limits.collection }) := by
    decide +kernel
  have hanswer : Collection.collect copyStore copy 10 13 .invariant [{}] =
      .ok (true, [{ exact := [7] }]) := by
    rw [Collection.collect, hrun]
    rfl
  have hshallow : StaysShallow copyStore copy 10 13 [{}] := by
    intro matched collector hrun'
    obtain ⟨-, rfl⟩ := Prod.mk.inj (Except.ok.inj (hrun.symm.trans hrun'))
    rfl
  have hrecorded : ∀ {position type flow}, Recorded [{ exact := [7] }] position type flow →
      position = 0 ∧ type = 7 := by
    rintro (_ | position) type flow ⟨set, hset, htype⟩
    · obtain rfl := Option.some.inj hset
      cases flow with
      | invariant => exact ⟨rfl, List.mem_singleton.mp htype⟩
      | covariant | contravariant => cases htype
    · cases hset
  have hsource : 10 < copyStore.size := by decide +kernel
  have htarget : 13 < copyStore.size := by decide +kernel
  obtain ⟨matched, bounds, hcollect, -, hsound, hcomplete⟩ :=
    collect_exact hreachable hcallable hsource htarget
  obtain ⟨rfl, rfl⟩ := Prod.mk.inj (Except.ok.inj (hanswer.symm.trans hcollect))
  refine ⟨hanswer, ?_, fun hdenotes => ?_⟩
  · refine (hsound rfl ?_).2 [7] ⟨rfl, ?_⟩
    · intro position a b flow flow' ha hb
      rw [(hrecorded ha).2, (hrecorded hb).2]
    · intro position type flow h
      obtain ⟨rfl, rfl⟩ := hrecorded h
      rfl
  · obtain ⟨-, -, hselected⟩ := hcomplete hshallow [6] rfl hdenotes
    have hother := hselected 0 7 .invariant ⟨_, rfl, List.mem_singleton_self 7⟩
    cases hother

end NominalGenerics.Collection
