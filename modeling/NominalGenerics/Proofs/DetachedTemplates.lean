import NominalGenerics.Proofs.LazySubstitution
import NominalGenerics.Proofs.RelatedTemplates

/-!
# Templates of a callable inside a generic type

A callable that is declared inside an instantiation has templates that mention the parameters of the
enclosing definition. `Encloses` relates it to a callable outside of every type whose templates are
the same with the arguments of the instantiation put in. Matching a template of the one and the
corresponding template of the other record the same bounds, as long as matching comes to no template
that becomes concrete: a parameter of the enclosing type is resolved where it stands for itself, and
not inside another type.
-/

namespace NominalGenerics

open Assignability (StandsFor)

/-- A callable declared inside a closed instantiation, and one outside of every type. `own` are the
parameters of the enclosing definition and `bound` the arguments of the instantiation. -/
structure Encloses (store : Store) (signature detached : Signature) (own bound : List Handle) :
    Prop where
  callable : store.HasCallable signature
  callable' : store.HasCallable detached
  declaring : ∃ declaring definition, signature.declaringType = some declaring ∧
    store.isOpen declaring = .ok false ∧ store.Defines definition own ∧
    store.Applies definition bound declaring
  outside : detached.declaringType = none
  typeParams : signature.typeParams.length = detached.typeParams.length

/-- A template of the callable inside, and the template outside for which it stands: the arguments are
put in for the parameters of the enclosing definition, and the type parameters of the one callable for
those of the other. -/
def Corresponds (store : Store) (signature detached : Signature) (own bound : List Handle) :
    Handle → Handle → Prop :=
  StandsFor store (own ++ signature.typeParams) (bound ++ detached.typeParams)
    (store.Outside detached)

section Walks

variable {P : Handle → Prop} {levels : Nat} {walk walk' : CollectM Bool}

/-- All witnesses satisfy `P`. -/
def Witnessed (P : Handle → Prop) (bounds : List BoundSet) : Prop :=
  ∀ position type flow, Recorded bounds position type flow → P type

theorem Witnessed.modify {bounds : List BoundSet} (h : Witnessed P bounds) (position : Nat)
    {source : Handle} (hsource : P source) (flow : Flow) :
    Witnessed P (bounds.modify position (·.add source flow)) := by
  rintro i type flow' ⟨set, hset, hmem⟩
  rw [List.getElem?_modify] at hset
  obtain ⟨old, hold, rfl⟩ := Option.map_eq_some_iff.mp hset
  split at hmem
  · rcases BoundSet.mem_side_add.mp hmem with hmem | ⟨rfl, -⟩
    · exact h i type flow' ⟨old, hold, hmem⟩
    · exact hsource
  · exact h i type flow' ⟨old, hold, hmem⟩

namespace Collection

/-- From every collector that may go down a number of levels, the two walks give one answer and record
the same witnesses, which satisfy `P`. Both come back to the depth from which they start. -/
def Coincide (P : Handle → Prop) (levels : Nat) (walk walk' : CollectM Bool) : Prop :=
  ∀ collector : Collector, collector.depth.depth + levels = collector.depth.maxDepth →
    Witnessed P collector.bounds →
      ∃ matched bounds, walk.run collector = .ok (matched, { collector with bounds }) ∧
        walk'.run collector = .ok (matched, { collector with bounds }) ∧ Witnessed P bounds

theorem coincide_pure (matched : Bool) : Coincide P levels (pure matched) (pure matched) :=
  fun collector _ hP => ⟨matched, collector.bounds, rfl, rfl, hP⟩

theorem Coincide.trans {walk'' : CollectM Bool} (h : Coincide P levels walk walk')
    (h' : Coincide P levels walk' walk'') : Coincide P levels walk walk'' := by
  intro collector hdepth hP
  obtain ⟨matched, bounds, hrun, hrun', hbounds⟩ := h collector hdepth hP
  obtain ⟨matched', bounds', hrun'', hend, -⟩ := h' collector hdepth hP
  exact ⟨matched, bounds, hrun, hend.trans (hrun''.symm.trans hrun'), hbounds⟩

theorem coincide_read {α β : Type} {x : Query α} {y : Query β} {a : α} {b : β}
    {f : α → CollectM Bool} {g : β → CollectM Bool} (hx : x = .ok a) (hy : y = .ok b)
    (h : Coincide P levels (f a) (g b)) : Coincide P levels (liftM x >>= f) (liftM y >>= g) := by
  subst hx hy
  exact h

theorem coincide_query {x : Query Bool} (h : ∃ b, x = .ok b) :
    Coincide P levels (liftM x) (liftM x) := by
  obtain ⟨b, rfl⟩ := h
  exact fun collector _ hP => ⟨b, collector.bounds, rfl, rfl, hP⟩

theorem coincide_allM {α β : Type} {f : α → CollectM Bool} {g : β → CollectM Bool} {as : List α}
    {bs : List β} (h : List.Forall₂ (fun a b => Coincide P levels (f a) (g b)) as bs) :
    Coincide P levels (as.allM f) (bs.allM g) := by
  induction h with
  | nil => exact coincide_pure true
  | @cons a b as bs hab _ ih =>
      intro collector hdepth hP
      obtain ⟨matched, bounds, hf, hg, hbounds⟩ := hab collector hdepth hP
      cases matched with
      | false =>
          exact ⟨false, bounds, run_bind_eq_ok.mpr ⟨false, _, hf, rfl⟩,
            run_bind_eq_ok.mpr ⟨false, _, hg, rfl⟩, hbounds⟩
      | true =>
          obtain ⟨matched', bounds', hf', hg', hbounds'⟩ :=
            ih { collector with bounds } hdepth hbounds
          exact ⟨matched', bounds', run_bind_eq_ok.mpr ⟨true, _, hf, hf'⟩,
            run_bind_eq_ok.mpr ⟨true, _, hg, hg'⟩, hbounds'⟩

theorem coincide_record (position : Nat) {source : Handle} (hsource : P source) (flow : Flow) :
    Coincide P levels (record position source flow) (record position source flow) := by
  intro collector _ hP
  by_cases hlt : position < collector.bounds.length
  · have hrun : (record position source flow).run collector = .ok (true,
        { collector with bounds := collector.bounds.modify position (·.add source flow) }) := by
      rw [record]
      refine run_bind_eq_ok.mpr ⟨collector, collector, rfl, ?_⟩
      rw [if_pos hlt]
      rfl
    exact ⟨true, _, hrun, hrun, hP.modify position hsource flow⟩
  · have hrun : (record position source flow).run collector = .ok (false, collector) := by
      rw [record]
      refine run_bind_eq_ok.mpr ⟨collector, collector, rfl, ?_⟩
      rw [if_neg hlt]
      rfl
    exact ⟨false, collector.bounds, hrun, hrun, hP⟩

variable {store : Store} {signature detached : Signature} {source target target' : Handle}
  {flow : Flow}

/-- A visit that may go down runs the step one level deeper and comes back. -/
theorem run_visit {collect : Handle → Handle → Flow → CollectM Bool} {collector : Collector}
    {matched : Bool} {bounds : List BoundSet}
    (hdepth : collector.depth.depth + (levels + 1) = collector.depth.maxDepth)
    (hstep : (step store signature collect source target flow).run
        { collector with depth := { collector.depth with depth := collector.depth.depth + 1 } } =
      .ok (matched,
        { bounds, depth := { collector.depth with depth := collector.depth.depth + 1 } })) :
    (visit store signature collect source target flow).run collector =
      .ok (matched, { collector with bounds }) := by
  have hroom : ¬ collector.depth.maxDepth ≤ collector.depth.depth := by omega
  rw [visit]
  refine run_bind_eq_ok.mpr ⟨collector, collector, rfl, ?_⟩
  simp only [DepthCounter.enter, if_neg hroom]
  refine run_bind_eq_ok.mpr ⟨(), _, rfl, run_bind_eq_ok.mpr ⟨matched, _, hstep, ?_⟩⟩
  refine run_bind_eq_ok.mpr ⟨_, _, rfl, run_bind_eq_ok.mpr ⟨collector.depth,
    { bounds, depth := { collector.depth with depth := collector.depth.depth + 1 } }, ?_, rfl⟩⟩
  exact run_lift_eq_ok.mpr ⟨by simp [DepthCounter.leave], rfl⟩

theorem Coincide.visit {collect collect' : Handle → Handle → Flow → CollectM Bool}
    (h : Coincide P levels (step store signature collect source target flow)
      (step store detached collect' source target' flow)) :
    Coincide P (levels + 1) (visit store signature collect source target flow)
      (visit store detached collect' source target' flow) := by
  intro collector hdepth hP
  obtain ⟨matched, bounds, hrun, hrun', hbounds⟩ := h
    { collector with depth := { collector.depth with depth := collector.depth.depth + 1 } }
    (by simp only; omega) hP
  exact ⟨matched, bounds, run_visit hdepth hrun, run_visit hdepth hrun', hbounds⟩

/-- Matching a concrete template relates it to the source. -/
theorem coincide_concrete (hparam : store.param? target = .ok none)
    (hclosed : store.isOpen target = .ok false)
    (htotal : ∃ b, relateConcrete store source target flow = .ok b) :
    Coincide P (levels + 1) (collectWithin store detached (levels + 1) source target flow)
      (liftM (relateConcrete store source target flow)) := by
  obtain ⟨b, hb⟩ := htotal
  intro collector hdepth hP
  refine ⟨b, collector.bounds, run_visit hdepth ?_, by rw [hb]; rfl, hP⟩
  rw [step]
  refine run_bind_eq_ok.mpr ⟨none, _, run_lift_eq_ok.mpr ⟨hparam, rfl⟩, ?_⟩
  refine run_bind_eq_ok.mpr ⟨false, _, run_lift_eq_ok.mpr ⟨hclosed, rfl⟩, ?_⟩
  exact run_lift_eq_ok.mpr ⟨hb, rfl⟩

end Collection

end Walks

section Templates

variable {store : Store} {signature detached : Signature} {own bound : List Handle}

open Collection (enclosingArgument)

/-- The argument that stands for a type inside an instantiation is its resolution under the arguments
of the instantiation. -/
theorem Collection.enclosingArgument_eq_resolve {declaring definition : Handle}
    (hdeclaring : signature.declaringType = some declaring)
    (happlies : store.Applies definition bound declaring) (type : Handle) :
    enclosingArgument store signature type =
      ({ typeOwner := some definition, typeArgs := bound } : Substitution).resolve store type := by
  obtain ⟨form, hform, hdefinition, hargs, -⟩ := happlies.exists_form
  rw [enclosingArgument, Substitution.resolve]
  cases hparam : store.param? type with
  | error fault => rfl
  | ok info? =>
      rw [Query.ok_bind, Query.ok_bind, hdeclaring]
      cases info? with
      | none => rfl
      | some info =>
          dsimp only
          rw [Option.bind_some, Substitution.lookup?]
          cases info.owner with
          | callable id => rfl
          | type owner =>
              dsimp only
              rw [Store.definition?_of_form hform, hdefinition, Query.ok_bind,
                Store.arguments_of_form hform, hargs, Query.ok_bind]
              split <;> rfl

/-- The substitution of a call inside an instantiation: it binds the parameters of the enclosing
definition and those of the callable. -/
def Signature.bindingInside (signature : Signature) (definition : Handle)
    (bound types : List Handle) : Substitution :=
  { typeOwner := some definition, typeArgs := bound, callable := some signature.id,
    callableArgs := types }

namespace Encloses

/-- The arguments of the closed instantiation are closed. -/
theorem closed (h : Encloses store signature detached own bound) (hs : store.Coherent) :
    ∀ arg ∈ bound, ∃ form, store.form arg = some form ∧ form.isOpen = false := by
  intro arg harg
  obtain ⟨declaring, definition, -, hclosed, -, happlies⟩ := h.declaring
  obtain ⟨form, hform, -, rfl, -⟩ := happlies.exists_form
  obtain ⟨form', hform', hopen⟩ := Store.form_of_isOpen hclosed
  obtain rfl := Option.some.inj (hform.symm.trans hform')
  obtain ⟨part, hpart, hpartOpen⟩ := hs.argument hform harg
  exact ⟨part, hpart, (hpartOpen hopen).1⟩

theorem binds (h : Encloses store signature detached own bound) {types : List Handle}
    (htypes : signature.typeParams.length = types.length) {definition : Handle}
    {declaring : Handle} (hd : store.Defines definition own)
    (happlies : store.Applies definition bound declaring) :
    (signature.bindingInside definition bound types).Binds store own signature.typeParams where
  definition owner howner := by
    cases howner
    exact hd
  noDefinition hnone := by cases hnone
  callable id hid := by
    cases hid
    rw [Store.typeParams?, h.callable]
    rfl
  noCallable hnone := by cases hnone
  typeArity := by
    obtain ⟨own', hd', hlength, -⟩ := happlies
    rw [hd.unique hd']
    exact hlength
  callableArity := htypes

/-- The arguments are put in for the parameters of the enclosing definition, and the type parameters of
the callable outside for those of the callable inside. -/
theorem assigns (h : Encloses store signature detached own bound) (hs : store.Coherent) :
    store.Assigns (own ++ signature.typeParams) (bound ++ detached.typeParams) := by
  obtain ⟨declaring, definition, -, -, hd, happlies⟩ := h.declaring
  have hbinds := h.binds h.typeParams hd happlies
  refine ⟨fun param => hbinds.parameter hs, hbinds.length_eq, fun arg harg => ?_,
    fun arg harg definition position hparam => ?_⟩
  · rcases List.mem_append.mp harg with harg | harg
    · obtain ⟨form, hform, -⟩ := h.closed hs arg harg
      exact Store.form_lt hform
    · obtain ⟨_, form, _, hform, -⟩ := h.callable'.paramAt hs harg
      exact Store.form_lt hform
  · rcases List.mem_append.mp harg with harg | harg
    · obtain ⟨form, hform, hclosed⟩ := h.closed hs arg harg
      exact hparam.not_closed hs hform hclosed
    · obtain ⟨position', hparam'⟩ := h.callable'.paramAt hs harg
      obtain ⟨info, hinfo, howner, -⟩ := Substitution.param?_of_paramAt hparam
      obtain ⟨info', hinfo', howner', -⟩ := Substitution.param?_of_paramAt hparam'
      obtain rfl := Option.some.inj (Except.ok.inj (hinfo.symm.trans hinfo'))
      cases howner.symm.trans howner'

end Encloses

/-- A finished store in which a callable inside an instantiation is related to one outside, and in
which putting in the arguments commutes with taking supertypes. -/
structure Detachment (store : Store) (signature detached : Signature) (own bound : List Handle) :
    Prop where
  encloses : Encloses store signature detached own bound
  interprets : store.Interprets (own ++ signature.typeParams) (bound ++ detached.typeParams)
  scope : store.Scoped detached

namespace Detachment

variable {template template' : Handle}

theorem coherent (h : Detachment store signature detached own bound) : store.Coherent :=
  h.interprets.coherent

theorem lt (_ : Detachment store signature detached own bound)
    (hρ : Corresponds store signature detached own bound template template') :
    template < store.size :=
  hρ.1.1

theorem lt' (h : Detachment store signature detached own bound)
    (hρ : Corresponds store signature detached own bound template template') :
    template' < store.size :=
  h.interprets.assigns.lt hρ.2

/-- A concrete template stays. -/
theorem eq_of_closed (h : Detachment store signature detached own bound)
    (hρ : Corresponds store signature detached own bound template template')
    (hclosed : store.isOpen template = .ok false) : template' = template := by
  obtain ⟨form, hform, hopen⟩ := Store.form_of_isOpen hclosed
  exact h.interprets.assigns.parameters.eq_of_closed h.coherent hρ.2 hform hopen

/-- A template that is a parameter belongs to the callable, or to the enclosing definition, or to
another declaration. -/
theorem param_cases (h : Detachment store signature detached own bound)
    (hρ : Corresponds store signature detached own bound template template') {info : TypeParam}
    (hparam : store.param? template = .ok (some info)) :
    (info.owner = .callable signature.id ∧ ∃ info', store.param? template' = .ok (some info') ∧
      info'.owner = .callable detached.id ∧ info'.position = info.position) ∨
    info.owner ≠ .callable signature.id ∧
      enclosingArgument store signature template = .ok template' ∧
      (store.param? template' = .ok none ∧ store.isOpen template' = .ok false ∨
        template' = template ∧ info.owner ≠ .callable detached.id) := by
  obtain ⟨declaring, definition, hdeclaring, -, hd, happlies⟩ := h.encloses.declaring
  have hbinds := h.encloses.binds h.encloses.typeParams hd happlies
  have hsame : ∀ {owner position}, store.ParamAt template owner position →
      info.owner = owner ∧ info.position = position := by
    intro owner position hat
    obtain ⟨info', hinfo', howner, hposition⟩ := Substitution.param?_of_paramAt hat
    obtain rfl := Option.some.inj (Except.ok.inj (hparam.symm.trans hinfo'))
    exact ⟨howner, hposition⟩
  rw [Collection.enclosingArgument_eq_resolve hdeclaring happlies]
  by_cases hmem : template ∈ own ++ signature.typeParams
  · obtain ⟨i, hi, harg⟩ := hρ.2.of_mem hmem
    have hlength : own.length = bound.length := hbinds.typeArity
    rcases hbinds.paramAt h.coherent hi with ⟨owner, howner, hlt, hat⟩ | ⟨id, hid, hge, hat⟩
    · cases howner
      obtain ⟨howner, hposition⟩ := hsame hat
      rw [List.getElem?_append_left (hlength ▸ hlt)] at harg
      obtain ⟨form, hform, hclosed⟩ := h.encloses.closed h.coherent template' (List.mem_of_getElem? harg)
      refine Or.inr ⟨by simp [howner], ?_, Or.inl ⟨Store.param?_of_proper ⟨form, hform,
        Substitution.isParameter_of_closed h.coherent hform hclosed⟩,
        by rw [Store.isOpen_of_form hform, hclosed]⟩⟩
      rw [Substitution.resolve, hparam, Query.ok_bind, Option.bind_some, Substitution.lookup?,
        howner, hposition]
      simp only [if_pos, harg, Option.getD_some]
      rfl
    · cases hid
      obtain ⟨howner, hposition⟩ := hsame hat
      rw [List.getElem?_append_right (hlength ▸ hge), ← hlength] at harg
      obtain ⟨info', hinfo', howner', hposition'⟩ := Substitution.param?_of_paramAt
        ((h.coherent.callables h.encloses.callable').2 _ _ harg)
      exact Or.inl ⟨howner, info', hinfo', howner', hposition'.trans hposition.symm⟩
  · have hself : template' = template := by
      have hproper : store.param? template ≠ .ok none := by rw [hparam]; simp
      cases hρ.2.alike h.coherent hmem with
      | application ha => exact absurd (Store.param?_of_proper ha.proper) hproper
      | array ha => exact absurd (Store.param?_of_proper ha.proper) hproper
      | leaf => rfl
    have hresolve := hbinds.typeOnly.resolve_free h.coherent (h.lt hρ) fun hown =>
      hmem (List.mem_append_left _ (by simpa using hown))
    refine Or.inr ⟨fun howner => hmem (List.mem_append_right _ ?_), hself ▸ hresolve,
      Or.inr ⟨hself, fun howner => ?_⟩⟩
    · exact List.mem_of_getElem?
        (h.encloses.callable.position_of_owner h.coherent hparam howner)
    · exact hρ.1.2 template (List.mem_of_getElem?
        (h.encloses.callable'.position_of_owner h.coherent hparam howner)) .self

/-- The parts of a type outside the callable are outside of it. -/
theorem outside_argument (h : Detachment store signature detached own bound) {type arg : Handle}
    {form : Entry} (hout : store.Outside detached type) (hform : store.form type = some form)
    (harg : arg ∈ form.arguments) : store.Outside detached arg := by
  obtain ⟨_, hpart, -⟩ := h.coherent.argument hform harg
  exact ⟨Store.form_lt hpart, hout.2.argument h.coherent h.encloses.callable' hform harg⟩

theorem outside_element (h : Detachment store signature detached own bound) {type element : Handle}
    {form : Entry} {rank : Nat} (hout : store.Outside detached type)
    (hform : store.form type = some form) (harray : form.array? = some (element, rank)) :
    store.Outside detached element := by
  obtain ⟨_, hpart, -⟩ := h.coherent.element hform harray
  exact ⟨Store.form_lt hpart, hout.2.element hform harray⟩

theorem outside_supertype (h : Detachment store signature detached own bound) {type super : Handle}
    (hout : store.Outside detached type) (hsuper : store.Supertype type super) :
    store.Outside detached super :=
  ⟨hsuper.lt h.interprets.lawful.wellFormed hout.1, h.scope type super hsuper hout.2⟩

/-- A template that is no parameter and what it stands for have one build. -/
theorem alike (h : Detachment store signature detached own bound)
    (hρ : Corresponds store signature detached own bound template template')
    (hfree : template ∉ own ++ signature.typeParams) :
    store.Alike (Corresponds store signature detached own bound) template template' := by
  cases hρ.2.alike h.coherent hfree with
  | application ha hb hparts =>
      obtain ⟨form, hform, -, rfl, -⟩ := ha.exists_form
      exact .application ha hb ((List.forall₂_and_left _ _).mpr
        ⟨fun part hpart => h.outside_argument hρ.1 hform hpart, hparts⟩)
  | array ha hb helement =>
      obtain ⟨form, hform, harray, -⟩ := ha.exists_form
      exact .array ha hb ⟨h.outside_element hρ.1 hform harray, helement⟩
  | leaf hform hdefinition harray => exact .leaf hform hdefinition harray

theorem not_mem_of_param? (h : Detachment store signature detached own bound)
    (hparam : store.param? template = .ok none) : template ∉ own ++ signature.typeParams := by
  intro hmem
  obtain ⟨_, _, hat⟩ := h.interprets.assigns.parameter template hmem
  exact hat.param?_ne hparam

/-- A template that is no parameter stands for none. -/
theorem param?_eq_none (h : Detachment store signature detached own bound)
    (hρ : Corresponds store signature detached own bound template template')
    (hparam : store.param? template = .ok none) : store.param? template' = .ok none := by
  cases h.alike hρ (h.not_mem_of_param? hparam) with
  | application _ hb => exact Store.param?_of_proper hb.proper
  | array _ hb => exact Store.param?_of_proper hb.proper
  | leaf => exact hparam

/-- Applications of a definition that correspond and stay templates are both bare or neither. -/
theorem eq_definition_iff (h : Detachment store signature detached own bound)
    (hopen : store.isOpen template' = .ok true) {definition : Handle} {parts parts' : List Handle}
    (ha : store.Applies definition parts template) (hb : store.Applies definition parts' template')
    (hparts : List.Forall₂ (Corresponds store signature detached own bound) parts parts') :
    template = definition ↔ template' = definition := by
  have hreplaced := hparts.imp fun _ _ hρ => hρ.2
  obtain ⟨params, hd, -⟩ := id ha
  by_cases hown : ∀ param ∈ params, param ∉ own ++ signature.typeParams
  · exact h.interprets.assigns.eq_definition_iff h.coherent hd hown ha hb hreplaced
  · -- The bare enclosing definition stands for the closed instantiation.
    obtain ⟨param, hparam, hmem⟩ : ∃ param ∈ params, param ∈ own ++ signature.typeParams := by
      simpa only [not_forall, not_not, exists_prop] using hown
    obtain ⟨declaring, owner, hdeclaring, hclosed, hd', happlies⟩ := h.encloses.declaring
    have hbinds := h.encloses.binds h.encloses.typeParams hd' happlies
    obtain rfl := Option.some.inj (hbinds.typeOwner_of_mem h.coherent hd hparam hmem)
    obtain rfl := hd.unique hd'
    refine ⟨fun hbare => ?_, fun hbare => ?_⟩
    · subst hbare
      obtain ⟨-, rfl⟩ := ha.inj ⟨_, hd, rfl, Or.inl ⟨rfl, rfl⟩⟩
      obtain ⟨hlength, hparts⟩ := forall₂_iff_getElem?.mp hparts
      have heq : parts' = bound := by
        refine eq_of_getElem? (hlength.symm.trans hbinds.typeArity) fun i x y hx hy => ?_
        obtain ⟨p, hp⟩ := getElem?_of_length_eq hlength hx
        obtain ⟨dform, hdform, hdshape⟩ := id hd
        obtain ⟨info, hinfo, howner, -⟩ :=
          Substitution.param?_of_paramAt (h.coherent.paramAt hdform hdshape hp)
        obtain ⟨arg, harg, hresolve⟩ := hbinds.typeOnly.resolve_bound h.coherent
          (by simpa using hp : (_ ++ [])[i]? = some p)
        rcases h.param_cases (hparts i p x hp hx) hinfo with ⟨hown, -⟩ | ⟨-, hargument, -⟩
        · cases howner.symm.trans hown
        · rw [Collection.enclosingArgument_eq_resolve hdeclaring happlies] at hargument
          obtain rfl := Except.ok.inj (hargument.symm.trans hresolve)
          simpa [Signature.bindingInside, hy] using harg.symm
      subst heq
      rw [h.coherent.applies_unique hb happlies, hclosed] at hopen
      cases hopen
    · subst hbare
      exact h.interprets.assigns.eq_definition h.coherent ha hb hreplaced

theorem isSequenceInstance (h : Detachment store signature detached own bound)
    (hρ : Corresponds store signature detached own bound template template')
    (hparam : store.param? template = .ok none) (hopen : store.isOpen template' = .ok true) :
    Assignability.isSequenceInstance store template' =
      Assignability.isSequenceInstance store template :=
  (h.alike hρ (h.not_mem_of_param? hparam)).isSequenceInstance fun _ ha hb hparts =>
    h.eq_definition_iff hopen ha hb hparts

theorem isOptionalWrapper (h : Detachment store signature detached own bound)
    (hρ : Corresponds store signature detached own bound template template')
    (hparam : store.param? template = .ok none) (hopen : store.isOpen template' = .ok true) :
    store.isOptionalWrapper template' = store.isOptionalWrapper template :=
  (h.alike hρ (h.not_mem_of_param? hparam)).isOptionalWrapper fun _ ha hb hparts =>
    h.eq_definition_iff hopen ha hb hparts

/-- Containers that correspond have elements that correspond. -/
theorem containerElement? (h : Detachment store signature detached own bound)
    (hρ : Corresponds store signature detached own bound template template')
    (hparam : store.param? template = .ok none) (hopen : store.isOpen template' = .ok true)
    (rank : Nat) :
    ∃ element element', Collection.containerElement? store template rank = .ok element ∧
      Collection.containerElement? store template' rank = .ok element' ∧
      Option.Rel (Corresponds store signature detached own bound) element element' := by
  have halike := h.alike hρ (h.not_mem_of_param? hparam)
  obtain ⟨form, hform⟩ := Store.form_isSome (h.lt hρ)
  rw [Collection.containerElement?, Collection.containerElement?, Store.array?_of_form hform]
  cases hshape : form.array? with
  | some shape =>
      obtain ⟨element, arrayRank⟩ := shape
      obtain ⟨element', harray', hρ'⟩ := halike.element (Store.isArray_of_form hform hshape)
      rw [Store.array?_of_isArray harray', Query.ok_bind, Query.ok_bind]
      refine ⟨_, _, rfl, rfl, ?_⟩
      split
      · exact .some hρ'
      · exact .none
  | none =>
      have harray : store.array? template = .ok none := by
        rw [Store.array?_of_form hform, hshape]
      rw [(halike.nonarray harray).1, Query.ok_bind, Query.ok_bind]
      dsimp only
      split
      · exact ⟨none, none, rfl, rfl, .none⟩
      · rw [h.isSequenceInstance hρ hparam hopen]
        obtain ⟨sequence, hsequence⟩ := Assignability.isSequenceInstance_total (h.lt hρ)
        rw [hsequence, Query.ok_bind, Query.ok_bind]
        cases sequence with
        | false => exact ⟨none, none, rfl, rfl, .none⟩
        | true =>
            obtain ⟨parts, hparts⟩ : ∃ parts, store.arguments template = .ok parts :=
              ⟨_, Store.arguments_of_form hform⟩
            obtain ⟨parts', hparts', hρparts⟩ := halike.arguments hparts
            rw [if_pos rfl, if_pos rfl, hparts, hparts', Query.ok_bind, Query.ok_bind]
            cases hρparts with
            | nil => exact ⟨none, none, rfl, rfl, .none⟩
            | cons hhead htail =>
                cases htail with
                | nil => exact ⟨_, _, rfl, rfl, .some hhead⟩
                | cons => exact ⟨none, none, rfl, rfl, .none⟩

/-- Where one supertype of a template at most has a definition, the search for it finds supertypes that
correspond, or nothing on either side. -/
theorem findImplementation (h : Detachment store signature detached own bound)
    (hρ : Corresponds store signature detached own bound template template')
    (hparam : store.param? template = .ok none) {definition : Handle}
    (hd : store.definitionOrSelf definition = .ok definition)
    (harray : store.array? definition = .ok none)
    (hunivocal : store.Univocal template definition) :
    (store.findImplementation template definition = .ok .notFound ∧
      store.findImplementation template' definition = .ok .notFound) ∨
    ∃ found found' parts parts',
      store.findImplementation template definition = .ok (.found found) ∧
      store.findImplementation template' definition = .ok (.found found') ∧
      store.arguments found = .ok parts ∧ store.arguments found' = .ok parts' ∧
      List.Forall₂ (Corresponds store signature detached own bound) parts parts' := by
  have hs := h.interprets.lawful.wellFormed
  have hfree := h.not_mem_of_param? hparam
  -- A supertype of the one side with the definition has a counterpart on the other.
  have hup : ∀ super, store.Supertype template super →
      store.definitionOrSelf super = .ok definition → ∃ super', store.Supertype template' super' ∧
        store.definitionOrSelf super' = .ok definition ∧
        store.Alike (Corresponds store signature detached own bound) super super' := by
    intro super hsuper hsuperDef
    obtain ⟨super', ⟨hsuperFree, hr⟩, hsuper'⟩ := h.interprets.ascends.supertype
      h.interprets.lawful h.interprets.settled hsuper (h.lt hρ) (h.lt' hρ) ⟨hfree, hρ.2⟩
    have halike := h.alike ⟨h.outside_supertype hρ.1 hsuper, hr⟩ hsuperFree
    have hnone := Store.array?_of_definitionOrSelf h.coherent hsuperDef hd harray
    exact ⟨super', hsuper', (halike.nonarray hnone).2.trans hsuperDef, halike⟩
  have hdown : ∀ super', store.Supertype template' super' →
      store.definitionOrSelf super' = .ok definition → ∃ super, store.Supertype template super ∧
        store.definitionOrSelf super = .ok definition ∧
        store.Replaced false (own ++ signature.typeParams) (bound ++ detached.typeParams) super
          super' := by
    intro super' hsuper' hsuperDef
    obtain ⟨super, ⟨hsuperFree, hr⟩, hsuper⟩ := h.interprets.descends.supertype
      h.interprets.lawful h.interprets.settled hsuper' (h.lt' hρ) (h.lt hρ) ⟨hfree, hρ.2⟩
    have hnone := Store.array?_of_definitionOrSelf h.coherent hsuperDef hd harray
    have halike := (hr.alike h.coherent hsuperFree).flip
    exact ⟨super, hsuper, (halike.nonarray hnone).2.trans hsuperDef, hr⟩
  have hunivocal' : store.Univocal template' definition := by
    intro x' y' hx' hy' hxd hyd
    obtain ⟨x, hx, hxd, hxr⟩ := hdown x' hx' hxd
    obtain ⟨y, hy, hyd, hyr⟩ := hdown y' hy' hyd
    obtain rfl := hunivocal x y hx hy hxd hyd
    exact hxr.functional h.coherent hyr
  rcases Store.findImplementation_of_univocal hs (h.lt hρ) hunivocal with
    ⟨super, hsuper, hsuperDef, hfound⟩ | ⟨hnone, hresult⟩
  · obtain ⟨super', hsuper', hsuperDef', halike⟩ := hup super hsuper hsuperDef
    rcases Store.findImplementation_of_univocal hs (h.lt' hρ) hunivocal' with
      ⟨other, hother, hotherDef, hfound'⟩ | ⟨hnone', -⟩
    · obtain rfl := hunivocal' super' other hsuper' hother hsuperDef' hotherDef
      obtain ⟨form, hform⟩ := Store.form_isSome (hsuper.lt hs (h.lt hρ))
      obtain ⟨parts', hparts', hρparts⟩ := halike.arguments (Store.arguments_of_form hform)
      exact Or.inr ⟨super, super', _, parts', hfound, hfound', Store.arguments_of_form hform,
        hparts', hρparts⟩
    · exact absurd hsuperDef' (hnone' super' hsuper')
  · rcases Store.findImplementation_of_univocal hs (h.lt' hρ) hunivocal' with
      ⟨other, hother, hotherDef, -⟩ | ⟨-, hresult'⟩
    · obtain ⟨super, hsuper, hsuperDef, -⟩ := hdown other hother hotherDef
      exact absurd hsuperDef (hnone super hsuper)
    · split at hresult
      · next hroot =>
          rw [if_pos hroot] at hresult'
          subst hroot
          have hargs := (Store.isNamed_root h.coherent).queries.2.2.1
          exact Or.inr ⟨_, _, [], [], hresult, hresult', hargs, hargs, .nil⟩
      · next hroot =>
          rw [if_neg hroot] at hresult'
          exact Or.inl ⟨hresult, hresult'⟩

end Detachment

end Templates

namespace Collection

/-- Matching the comparison within a number of levels comes to no template that becomes concrete under
`ρ`, and where it searches the hierarchy of a template there is one instantiation at most. -/
def Direct (store : Store) (ρ : Handle → Handle → Prop) : Nat → Comparison → Prop
  | 0, _ => False
  | levels + 1, c =>
      (Compound store c.target → ∀ target', ρ c.target target' → store.isOpen target' = .ok true) ∧
      (c.flow = .contravariant → Compound store c.target → ¬ HasArray store c.source c.target →
        ∀ definition, store.definitionOrSelf c.source = .ok definition →
          store.Univocal c.target definition) ∧
      ∀ d, Nested store c d → Direct store ρ levels d

section Steps

variable {store : Store} {signature detached : Signature} {own bound : List Handle}
  {P : Handle → Prop} {levels : Nat} {collect collect' : Handle → Handle → Flow → CollectM Bool}
  {c : Comparison} {target' : Handle}

/-- Matching arrays in a direction. -/
theorem arraysDirected_coincide (h : Detachment store signature detached own bound)
    (hcollect : ∀ d d', Nested store c d →
      Corresponds store signature detached own bound d.target d' →
        Coincide P levels (collect d.source d.target d.flow) (collect' d.source d' d.flow))
    (hρ : Corresponds store signature detached own bound c.target target')
    (hcompound : Compound store c.target) (hopen : store.isOpen target' = .ok true)
    (harray : HasArray store c.source c.target) (hsource : c.source < store.size)
    (hflow : c.flow ≠ .invariant) :
    Coincide P levels
      (do
        match ← store.array? (if c.flow = .contravariant then c.target else c.source) with
        | none => return false
        | some (_, rank) =>
            match ← containerElement? store c.source rank,
              ← containerElement? store c.target rank with
            | some sourceElement, some targetElement =>
                let elementFlow := if ← store.isValueType sourceElement then .invariant else c.flow
                collect sourceElement targetElement elementFlow
            | _, _ => return false)
      (do
        match ← store.array? (if c.flow = .contravariant then target' else c.source) with
        | none => return false
        | some (_, rank) =>
            match ← containerElement? store c.source rank,
              ← containerElement? store target' rank with
            | some sourceElement, some targetElement =>
                let elementFlow := if ← store.isValueType sourceElement then .invariant else c.flow
                collect' sourceElement targetElement elementFlow
            | _, _ => return false) := by
  have hs := h.interprets.lawful.wellFormed
  have halike := h.alike hρ (h.not_mem_of_param? hcompound.1)
  -- The more derived sides are arrays of one rank, or neither is an array.
  have hderived : ∃ shape shape',
      store.array? (if c.flow = .contravariant then c.target else c.source) = .ok shape ∧
      store.array? (if c.flow = .contravariant then target' else c.source) = .ok shape' ∧
      shape.map (·.2) = shape'.map (·.2) := by
    split
    · obtain ⟨form, hform⟩ := Store.form_isSome (h.lt hρ)
      cases hshape : form.array? with
      | none =>
          have hnone : store.array? c.target = .ok none := by
            rw [Store.array?_of_form hform, hshape]
          exact ⟨none, none, hnone, (halike.nonarray hnone).1, rfl⟩
      | some shape =>
          obtain ⟨element, rank⟩ := shape
          have htarget := Store.isArray_of_form hform hshape
          obtain ⟨element', htarget', -⟩ := halike.element htarget
          exact ⟨_, _, Store.array?_of_isArray htarget, Store.array?_of_isArray htarget', rfl⟩
    · obtain ⟨form, hform⟩ := Store.form_isSome hsource
      exact ⟨_, _, Store.array?_of_form hform, Store.array?_of_form hform, rfl⟩
  obtain ⟨shape, shape', hshape, hshape', hrank⟩ := hderived
  refine coincide_read hshape hshape' ?_
  cases shape with
  | none =>
      cases shape' with
      | none => exact coincide_pure false
      | some => cases hrank
  | some shape =>
      obtain ⟨element, rank⟩ := shape
      cases shape' with
      | none => cases hrank
      | some shape' =>
          obtain ⟨element', rank'⟩ := shape'
          obtain rfl : rank = rank' := by simpa using hrank
          obtain ⟨rs, hrs, hrslt⟩ := containerElement?_total hs hsource rank
          obtain ⟨rt, rt', hrt, hrt', hrel⟩ := h.containerElement? hρ hcompound.1 hopen rank
          refine coincide_read hrs hrs (coincide_read hrt hrt' ?_)
          cases rs with
          | none => cases hrel <;> exact coincide_pure false
          | some sourceElement =>
              cases hrel with
              | none => exact coincide_pure false
              | some helement =>
                  obtain ⟨valueType, hvalue⟩ := isValueType_total (hrslt sourceElement rfl)
                  refine coincide_read hvalue hvalue ?_
                  exact hcollect ⟨sourceElement, _, if valueType then .invariant else c.flow⟩ _
                    (.element hcompound harray ((elements_iff_of_ne hflow).mpr
                      ⟨element, rank, valueType, hshape, hrs, hrt, hvalue, rfl⟩)) helement

theorem arrays_coincide (h : Detachment store signature detached own bound)
    (hcollect : ∀ d d', Nested store c d →
      Corresponds store signature detached own bound d.target d' →
        Coincide P levels (collect d.source d.target d.flow) (collect' d.source d' d.flow))
    (hρ : Corresponds store signature detached own bound c.target target')
    (hcompound : Compound store c.target) (hopen : store.isOpen target' = .ok true)
    (harray : HasArray store c.source c.target) (hsource : c.source < store.size) :
    Coincide P levels (arrays store collect c.source c.target c.flow)
      (arrays store collect' c.source target' c.flow) := by
  obtain ⟨source, target, flow⟩ := c
  cases flow with
  | covariant =>
      exact arraysDirected_coincide h hcollect hρ hcompound hopen harray hsource (by simp)
  | contravariant =>
      exact arraysDirected_coincide h hcollect hρ hcompound hopen harray hsource (by simp)
  | invariant =>
      have halike := h.alike hρ (h.not_mem_of_param? hcompound.1)
      obtain ⟨sform, hsform⟩ := Store.form_isSome hsource
      obtain ⟨tform, htform⟩ := Store.form_isSome (h.lt hρ)
      have hsarray := Store.array?_of_form hsform
      have htarray := Store.array?_of_form htform
      cases htshape : tform.array? with
      | none =>
          rw [htshape] at htarray
          refine coincide_read hsarray hsarray
            (coincide_read htarray (halike.nonarray htarray).1 ?_)
          cases sform.array? <;> exact coincide_pure false
      | some tshape =>
          obtain ⟨element, rank⟩ := tshape
          rw [htshape] at htarray
          obtain ⟨element', htarray', helement⟩ :=
            halike.element (Store.isArray_of_form htform htshape)
          refine coincide_read hsarray hsarray
            (coincide_read htarray (Store.array?_of_isArray htarray') ?_)
          cases hsshape : sform.array? with
          | none => exact coincide_pure false
          | some sshape =>
              obtain ⟨sourceElement, sourceRank⟩ := sshape
              rw [hsshape] at hsarray
              dsimp only
              split
              · next hrank =>
                  subst hrank
                  exact hcollect ⟨sourceElement, element, .invariant⟩ element'
                    (.element hcompound harray ⟨rfl, sourceRank, hsarray, htarray⟩) helement
              · exact coincide_pure false

/-- Arguments that correspond. A parameter of the enclosing type is matched on the one side and, having
become concrete, related on the other. -/
theorem argument_coincide (h : Detachment store signature detached own bound)
    {definition source target target' : Handle} {position : Nat} {flow : Flow}
    (hd : definition < store.size) (hsource : source < store.size)
    (hρ : Corresponds store signature detached own bound target target')
    (hcollect : ∀ d, d.source = source → d.target = target →
      ArgumentAt store flow definition position d →
        Coincide P levels (collect source target d.flow) (collect' source target' d.flow) ∧
        (store.param? target' = .ok none → store.isOpen target' = .ok false →
          Coincide P levels (collect' source target' d.flow)
            (liftM (relateConcrete store source target' d.flow)))) :
    Coincide P levels (argument store collect definition flow source target position)
      (argument store collect' definition flow source target' position) := by
  have hs := h.interprets.lawful.wellFormed
  obtain ⟨variance, hvariance⟩ := Assignability.declaredVariance_total h.coherent hd position
  obtain ⟨valueType, hvalue⟩ := isValueType_total hsource
  obtain ⟨form, hform⟩ := Store.form_isSome (h.lt hρ)
  obtain ⟨form', hform'⟩ := Store.form_isSome (h.lt' hρ)
  have hopen := Store.isOpen_of_form hform
  have hopen' := Store.isOpen_of_form hform'
  obtain ⟨hsame, hconcrete⟩ := hcollect ⟨source, target, flow.combine variance valueType⟩ rfl rfl
    ⟨variance, valueType, hvariance, hvalue, rfl⟩
  refine coincide_read hvariance hvariance (coincide_read hvalue hvalue
    (coincide_read hopen hopen' ?_))
  cases htemplate : form.isOpen with
  | false =>
      rw [htemplate] at hopen
      obtain rfl := h.eq_of_closed hρ hopen
      obtain rfl := Option.some.inj (hform.symm.trans hform')
      rw [htemplate]
      exact coincide_query (relateConcrete_total hs hsource (h.lt hρ) _)
  | true =>
      cases htemplate' : form'.isOpen with
      | true => exact hsame
      | false =>
          rw [htemplate'] at hopen'
          have hparam := Store.param?_of_proper
            ⟨form', hform', Substitution.isParameter_of_closed h.coherent hform' htemplate'⟩
          exact hsame.trans (hconcrete hparam hopen')

theorem arguments_coincide (h : Detachment store signature detached own bound)
    {definition : Handle} {sourceArgs targetArgs targetArgs' : List Handle} {flow : Flow}
    (hd : definition < store.size) (hsourceArgs : ∀ x ∈ sourceArgs, x < store.size)
    (hρ : List.Forall₂ (Corresponds store signature detached own bound) targetArgs targetArgs')
    (hcollect : ∀ (i : Nat) d d', sourceArgs[i]? = some d.source → targetArgs[i]? = some d.target →
      ArgumentAt store flow definition i d →
      Corresponds store signature detached own bound d.target d' →
        Coincide P levels (collect d.source d.target d.flow) (collect' d.source d' d.flow) ∧
        (store.param? d' = .ok none → store.isOpen d' = .ok false →
          Coincide P levels (collect' d.source d' d.flow)
            (liftM (relateConcrete store d.source d' d.flow)))) :
    Coincide P levels (arguments store collect definition sourceArgs targetArgs flow)
      (arguments store collect' definition sourceArgs targetArgs' flow) := by
  obtain ⟨hlength, hρ⟩ := forall₂_iff_getElem?.mp hρ
  rw [arguments, arguments, ← hlength]
  split
  · refine coincide_allM (forall₂_iff_getElem?.mpr ⟨by simp [hlength], ?_⟩)
    rintro i ⟨⟨x, y⟩, j⟩ ⟨⟨x', y'⟩, j'⟩ hxy hxy'
    simp only [List.getElem?_zipIdx, Nat.zero_add, Option.map_eq_some_iff, Prod.mk.injEq,
      List.getElem?_zip_eq_some] at hxy hxy'
    obtain ⟨_, ⟨hx, hy⟩, rfl, rfl⟩ := hxy
    obtain ⟨_, ⟨hx', hy'⟩, rfl, rfl⟩ := hxy'
    obtain rfl := Option.some.inj (hx.symm.trans hx')
    have hyy' := hρ i y y' hy hy'
    refine argument_coincide h hd (hsourceArgs x (List.mem_of_getElem? hx)) hyy' ?_
    rintro ⟨_, _, argumentFlow⟩ rfl rfl hargument
    exact hcollect i _ y' hx hy hargument hyy'
  · exact coincide_pure false

theorem implementation_coincide (h : Detachment store signature detached own bound)
    (hcollect : ∀ d d', Nested store c d →
      Corresponds store signature detached own bound d.target d' →
        Coincide P levels (collect d.source d.target d.flow) (collect' d.source d' d.flow) ∧
        (store.param? d' = .ok none → store.isOpen d' = .ok false →
          Coincide P levels (collect' d.source d' d.flow)
            (liftM (relateConcrete store d.source d' d.flow))))
    (hρ : Corresponds store signature detached own bound c.target target')
    (hcompound : Compound store c.target) (harray : ¬ HasArray store c.source c.target)
    (hsource : c.source < store.size)
    (hunivocal : c.flow = .contravariant → ∀ definition,
      store.definitionOrSelf c.source = .ok definition → store.Univocal c.target definition) :
    Coincide P levels (implementation store collect c.source c.target c.flow)
      (implementation store collect' c.source target' c.flow) := by
  have hs := h.interprets.lawful.wellFormed
  have halike := h.alike hρ (h.not_mem_of_param? hcompound.1)
  obtain ⟨hsnone, htnone⟩ := array?_of_not_hasArray hsource (h.lt hρ) harray
  obtain ⟨sd, hsd, hsdlt, hsdself⟩ := definitionOrSelf_total hs hsource
  obtain ⟨td, htd, htdlt, htdself⟩ := definitionOrSelf_total hs (h.lt hρ)
  obtain ⟨sargs, hsargs, hsargslt⟩ := arguments_total hs hsource
  obtain ⟨targs, htargs, -⟩ := arguments_total hs (h.lt hρ)
  obtain ⟨targs', htargs', hρargs⟩ := halike.arguments htargs
  have htd' : store.definitionOrSelf target' = .ok td := (halike.nonarray htnone).2.trans htd
  have hnested : ∀ {definition sourceArgs targetArgs},
      Instances store c definition sourceArgs targetArgs → ∀ (i : Nat) d d',
      sourceArgs[i]? = some d.source → targetArgs[i]? = some d.target →
      ArgumentAt store c.flow definition i d →
      Corresponds store signature detached own bound d.target d' → _ :=
    fun hinstances i d d' hx hy hargument hρd =>
      hcollect d d' (.argument hcompound harray hinstances hx hy hargument) hρd
  obtain ⟨source, target, flow⟩ := c
  refine coincide_read hsd hsd (coincide_read htd htd' ?_)
  cases flow with
  | invariant =>
      dsimp only
      split
      · next hsame =>
          subst hsame
          exact coincide_read hsargs hsargs (coincide_read htargs htargs'
            (arguments_coincide h htdlt hsargslt hρargs (hnested ⟨hsd, htd, hsargs, htargs⟩)))
      · exact coincide_pure false
  | covariant =>
      obtain ⟨result, hresult, -⟩ := Store.findImplementation_total hs hsource htdself
      refine coincide_read hresult hresult ?_
      cases result with
      | found found =>
          obtain ⟨fargs, hfargs, hfargslt⟩ := arguments_total hs (found_lt hs hsource htdself hresult)
          exact coincide_read hfargs hfargs (coincide_read htargs htargs'
            (arguments_coincide h htdlt hfargslt hρargs
              (hnested ⟨htd, htargs, found, hresult, hfargs⟩)))
      | ambiguous => exact coincide_pure true
      | notFound => exact coincide_pure false
  | contravariant =>
      have hsdnone := Store.array?_of_definitionOrSelf h.coherent hsdself hsd hsnone
      rcases h.findImplementation hρ hcompound.1 hsdself hsdnone (hunivocal rfl sd hsd) with
        ⟨hnone, hnone'⟩ | ⟨found, found', fargs, fargs', hfound, hfound', hfargs, hfargs', hρfound⟩
      · exact coincide_read hnone hnone' (coincide_pure false)
      · exact coincide_read hfound hfound' (coincide_read hsargs hsargs (coincide_read hfargs hfargs'
          (arguments_coincide h hsdlt hsargslt hρfound
            (hnested ⟨hsd, hsargs, found, hfound, hfargs⟩))))

theorem step_coincide (h : Detachment store signature detached own bound)
    (hcollect : ∀ d d', Nested store c d →
      Corresponds store signature detached own bound d.target d' →
        Coincide P levels (collect d.source d.target d.flow) (collect' d.source d' d.flow) ∧
        (store.param? d' = .ok none → store.isOpen d' = .ok false →
          Coincide P levels (collect' d.source d' d.flow)
            (liftM (relateConcrete store d.source d' d.flow))))
    (hρ : Corresponds store signature detached own bound c.target target')
    (hsource : c.source < store.size) (hP : P c.source)
    (hstays : Compound store c.target → store.isOpen target' = .ok true)
    (hunivocal : c.flow = .contravariant → Compound store c.target →
      ¬ HasArray store c.source c.target → ∀ definition,
        store.definitionOrSelf c.source = .ok definition → store.Univocal c.target definition) :
    Coincide P levels (step store signature collect c.source c.target c.flow)
      (step store detached collect' c.source target' c.flow) := by
  have hs := h.interprets.lawful.wellFormed
  obtain ⟨entry, hentry⟩ := Store.entry_of_lt (h.lt hρ)
  obtain ⟨sform, hsform⟩ := Store.form_isSome hsource
  obtain ⟨tform, htform⟩ := Store.form_isSome (h.lt hρ)
  have hparam : store.param? c.target = .ok entry.param? := Store.query_of_entry hentry (·.param?)
  have hopen := Store.isOpen_of_form htform
  cases hinfo : entry.param? with
  | some info =>
      rw [hinfo] at hparam
      rcases h.param_cases hρ hparam with ⟨howner, info', hparam', howner', hposition⟩ |
        ⟨howner, hargument, ⟨hparam', hclosed⟩ | ⟨rfl, howner'⟩⟩
      · refine coincide_read hparam hparam' ?_
        simp only [howner, howner', if_true, hposition]
        exact coincide_record _ hP _
      · refine coincide_read hparam hparam' ?_
        simp only [howner, if_false]
        exact coincide_read hargument hclosed
          (coincide_query (relateConcrete_total hs hsource (h.lt' hρ) _))
      · refine coincide_read hparam hparam ?_
        simp only [howner, howner', if_false]
        exact coincide_read hargument
          (Inference.enclosingArgument_of_none h.encloses.outside (h.lt hρ))
          (coincide_query (relateConcrete_total hs hsource (h.lt hρ) _))
  | none =>
      rw [hinfo] at hparam
      cases htemplate : tform.isOpen with
      | false =>
          rw [htemplate] at hopen
          obtain rfl := h.eq_of_closed hρ hopen
          exact coincide_read hparam hparam (coincide_read hopen hopen
            (coincide_query (relateConcrete_total hs hsource (h.lt hρ) _)))
      | true =>
          rw [htemplate] at hopen
          have hcompound : Compound store c.target := ⟨hparam, hopen⟩
          have hopen' := hstays hcompound
          have hsarray := Store.array?_of_form hsform
          have htarray := Store.array?_of_form htform
          obtain ⟨shape', htarray', hsome⟩ : ∃ shape', store.array? target' = .ok shape' ∧
              shape'.isSome = tform.array?.isSome := by
            have halike := h.alike hρ (h.not_mem_of_param? hparam)
            cases hshape : tform.array? with
            | none =>
                rw [hshape] at htarray
                exact ⟨none, (halike.nonarray htarray).1, rfl⟩
            | some shape =>
                obtain ⟨_, htarget', -⟩ := halike.element (Store.isArray_of_form htform hshape)
                exact ⟨_, Store.array?_of_isArray htarget', rfl⟩
          refine coincide_read hparam (h.param?_eq_none hρ hparam) (coincide_read hopen hopen'
            (coincide_read hsarray hsarray (coincide_read htarray htarray' ?_)))
          rw [hsome]
          split
          · next harray =>
              exact arrays_coincide h (fun d d' hd hρd => (hcollect d d' hd hρd).1) hρ hcompound
                hopen' ⟨_, _, hsarray, htarray, harray⟩ hsource
          · next harray =>
              have hnone : ¬ HasArray store c.source c.target := by
                rintro ⟨s, t, hs', ht', hor⟩
                obtain rfl := Except.ok.inj (hsarray.symm.trans hs')
                obtain rfl := Except.ok.inj (htarray.symm.trans ht')
                exact harray hor
              exact implementation_coincide h hcollect hρ hcompound hnone hsource
                fun hflow => hunivocal hflow hcompound hnone

/-- The parts of a comparison of types of the store are types of the store. -/
theorem Nested.lt (hs : store.WellFormed) {d : Comparison} (hsource : c.source < store.size)
    (htarget : c.target < store.size) (h : Nested store c d) :
    d.source < store.size ∧ d.target < store.size := by
  cases h with
  | element _ _ helements => exact helements.lt hs hsource htarget
  | argument _ _ hinstances hx hy _ =>
      obtain ⟨hsourceArgs, htargetArgs⟩ := hinstances.lt hs hsource htarget
      exact ⟨hsourceArgs _ (List.mem_of_getElem? hx), htargetArgs _ (List.mem_of_getElem? hy)⟩

/-- Matching a template and matching the corresponding template of the callable outside record the same
witnesses. -/
theorem collectWithin_coincide (h : Detachment store signature detached own bound)
    (hρ : Corresponds store signature detached own bound c.target target')
    (hsource : c.source < store.size) (hP : P c.source)
    (hnestedP : ∀ c d, Nested store c d → P c.source → P d.source)
    (hdirect : Direct store (Corresponds store signature detached own bound) levels c) :
    Coincide P levels (collectWithin store signature levels c.source c.target c.flow)
      (collectWithin store detached levels c.source target' c.flow) := by
  have hs := h.interprets.lawful.wellFormed
  induction levels generalizing c target' with
  | zero => exact hdirect.elim
  | succ levels ih =>
      obtain ⟨hstays, hunivocal, hnested⟩ := hdirect
      refine (step_coincide h (fun d d' hd hρd => ?_) hρ hsource hP
        (fun hcompound => hstays hcompound target' hρ) hunivocal).visit
      have hdsource := (hd.lt hs hsource (h.lt hρ)).1
      refine ⟨ih hρd hdsource (hnestedP c d hd hP) (hnested d hd), fun hparam hclosed => ?_⟩
      cases levels with
      | zero => exact (hnested d hd).elim
      | succ levels =>
          exact coincide_concrete hparam hclosed
            (relateConcrete_total hs hdsource (h.lt' hρd) _)

/-- On a new depth counter the two matches give the same answer and the same bounds. -/
theorem collect_coincide (h : Detachment store signature detached own bound)
    (hρ : Corresponds store signature detached own bound c.target target')
    (hsource : c.source < store.size) (hP : P c.source)
    (hnestedP : ∀ c d, Nested store c d → P c.source → P d.source)
    (hdirect : Direct store (Corresponds store signature detached own bound)
      Limits.collection.maxDepth c) {bounds : List BoundSet} (hbounds : Witnessed P bounds) :
    ∃ matched bounds', Witnessed P bounds' ∧
      Collection.collect store signature c.source c.target c.flow bounds =
        .ok (matched, bounds') ∧
      Collection.collect store detached c.source target' c.flow bounds = .ok (matched, bounds') := by
  obtain ⟨matched, bounds', hrun, hrun', hbounds'⟩ :=
    collectWithin_coincide h hρ hsource hP hnestedP hdirect
      { bounds, depth := .ofLimits Limits.collection } (Nat.zero_add _) hbounds
  refine ⟨matched, bounds', hbounds', ?_, ?_⟩
  · rw [Collection.collect, hrun]
    rfl
  · rw [Collection.collect, hrun']
    rfl

end Steps

end Collection

end NominalGenerics
