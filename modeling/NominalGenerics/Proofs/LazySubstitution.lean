import NominalGenerics.Proofs.Interpretation

/-!
# Checks under a substitution and checks of substituted types

A check under a substitution replaces parameters as it meets them and never builds the types that it
relates. It answers as a check of the substituted types does, in any later store that holds them:
`StandsFor` relates a type to what it stands for, and this is a simulation in both directions.

The walk decides by the template alone whether it is the wrapper of optional values, or a sequence. A
definition that stands for itself is neither, although with arguments put in for its parameters it may
be both. So the definition whose parameters are bound must not have these roles.
-/

namespace NominalGenerics

namespace Substitution

variable {store : Store} {sub : Substitution} {own called : List Handle}

/-- The substitution binds the parameters `own` of a definition and `called` of a callable, each by an
argument of its own. -/
structure Binds (sub : Substitution) (store : Store) (own called : List Handle) : Prop where
  definition : ∀ owner, sub.typeOwner = some owner → store.Defines owner own
  noDefinition : sub.typeOwner = none → own = []
  callable : ∀ id, sub.callable = some id → store.typeParams? id = some called
  noCallable : sub.callable = none → called = []
  typeArity : own.length = sub.typeArgs.length
  callableArity : called.length = sub.callableArgs.length

theorem param?_of_paramAt {param : Handle} {owner : ParamOwner} {position : Nat}
    (h : store.ParamAt param owner position) :
    ∃ info, store.param? param = .ok (some info) ∧ info.owner = owner ∧ info.position = position := by
  obtain ⟨form, info, hform, hshape, rfl, rfl⟩ := h
  obtain ⟨entry, hentry, rfl⟩ := Store.form_eq_some.mp hform
  have hparam : entry.form.param? = some info := by rw [Entry.param?, hshape]
  rw [Entry.form_param?] at hparam
  obtain ⟨info', hinfo, rfl⟩ := Option.map_eq_some_iff.mp hparam
  exact ⟨info', by rw [Store.param?, Store.query_of_entry hentry (·.param?), hinfo], rfl, rfl⟩

namespace Binds

theorem mono (h : sub.Binds store own called) {store' : Store} (hext : store.Extends store') :
    sub.Binds store' own called where
  definition owner howner := hext.defines (h.definition owner howner)
  noDefinition := h.noDefinition
  callable id hid := hext.typeParams (h.callable id hid)
  noCallable := h.noCallable
  typeArity := h.typeArity
  callableArity := h.callableArity

/-- The part of the substitution that binds the parameters of the definition. -/
theorem typeOnly (h : sub.Binds store own called) :
    ({ typeOwner := sub.typeOwner, typeArgs := sub.typeArgs } : Substitution).Binds store own [] where
  definition := h.definition
  noDefinition := h.noDefinition
  callable id hid := by cases hid
  noCallable _ := rfl
  typeArity := h.typeArity
  callableArity := rfl

/-- A bound parameter belongs to the definition or to the callable. -/
theorem paramAt (h : sub.Binds store own called) (hs : store.Coherent) {i : Nat} {param : Handle}
    (hi : (own ++ called)[i]? = some param) :
    (∃ owner, sub.typeOwner = some owner ∧ i < own.length ∧
        store.ParamAt param (.type owner) i) ∨
      ∃ id, sub.callable = some id ∧ own.length ≤ i ∧
        store.ParamAt param (.callable id) (i - own.length) := by
  rcases Nat.lt_or_ge i own.length with hlt | hge
  · rw [List.getElem?_append_left hlt] at hi
    cases howner : sub.typeOwner with
    | none => simp [h.noDefinition howner] at hlt
    | some owner =>
        obtain ⟨form, hform, hshape⟩ := h.definition owner howner
        exact Or.inl ⟨owner, rfl, hlt, hs.paramAt hform hshape hi⟩
  · rw [List.getElem?_append_right hge] at hi
    cases hid : sub.callable with
    | none => simp [h.noCallable hid] at hi
    | some id =>
        obtain ⟨signature, hsignature, rfl⟩ := Option.map_eq_some_iff.mp (h.callable id hid)
        exact Or.inr ⟨id, rfl, hge, (hs.callables hsignature).2 _ _ hi⟩

theorem parameter (h : sub.Binds store own called) (hs : store.Coherent) {param : Handle}
    (hparam : param ∈ own ++ called) : ∃ owner position, store.ParamAt param owner position := by
  obtain ⟨i, hi⟩ := List.getElem?_of_mem hparam
  rcases h.paramAt hs hi with ⟨_, -, -, hparam⟩ | ⟨_, -, -, hparam⟩
  · exact ⟨_, _, hparam⟩
  · exact ⟨_, _, hparam⟩

theorem length_eq (h : sub.Binds store own called) :
    (own ++ called).length = (sub.typeArgs ++ sub.callableArgs).length := by
  rw [List.length_append, List.length_append, h.typeArity, h.callableArity]

theorem resolve_bound (h : sub.Binds store own called) (hs : store.Coherent) {i : Nat}
    {param : Handle} (hi : (own ++ called)[i]? = some param) :
    ∃ arg, (sub.typeArgs ++ sub.callableArgs)[i]? = some arg ∧
      sub.resolve store param = .ok arg := by
  obtain ⟨hlt, -⟩ := List.getElem?_eq_some_iff.mp hi
  have hlt' : i < (sub.typeArgs ++ sub.callableArgs).length := h.length_eq ▸ hlt
  refine ⟨_, List.getElem?_eq_getElem hlt', ?_⟩
  have hlookup : ∀ info, store.param? param = .ok (some info) →
      sub.lookup? info = (sub.typeArgs ++ sub.callableArgs)[i]? →
      sub.resolve store param = .ok (sub.typeArgs ++ sub.callableArgs)[i] := by
    intro info hparam heq
    rw [resolve, hparam, Query.ok_bind, Option.bind_some, heq, List.getElem?_eq_getElem hlt']
    rfl
  rcases h.paramAt hs hi with ⟨owner, howner, hi', hparam⟩ | ⟨id, hid, hi', hparam⟩
  · obtain ⟨info, hinfo, hown, hposition⟩ := param?_of_paramAt hparam
    refine hlookup info hinfo ?_
    rw [lookup?, hown, hposition, List.getElem?_append_left (h.typeArity ▸ hi')]
    exact if_pos howner
  · obtain ⟨info, hinfo, hown, hposition⟩ := param?_of_paramAt hparam
    refine hlookup info hinfo ?_
    rw [lookup?, hown, hposition, List.getElem?_append_right (h.typeArity ▸ hi'), ← h.typeArity]
    exact if_pos hid

/-- A type that is no bound parameter resolves to itself. -/
theorem resolve_free (h : sub.Binds store own called) (hs : store.Coherent) {type : Handle}
    (hlt : type < store.size) (hfree : type ∉ own ++ called) :
    sub.resolve store type = .ok type := by
  obtain ⟨entry, hentry⟩ := Store.entry_of_lt hlt
  have hparam : store.param? type = .ok entry.param? := Store.query_of_entry hentry (·.param?)
  rw [resolve, hparam, Query.ok_bind]
  cases hinfo : entry.param? with
  | none => rfl
  | some info =>
      rw [hinfo] at hparam
      suffices hnone : sub.lookup? info = none by rw [Option.bind_some, hnone]; rfl
      -- The owner of a parameter lists it.
      have hlists := (Store.paramAt_of_param? hparam).lists hs
      rw [lookup?]
      cases hown : info.owner with
      | type owner =>
          rw [hown] at hlists
          obtain ⟨params, hd, hmem⟩ := hlists
          refine if_neg fun hsame => hfree (List.mem_append_left _ ?_)
          rw [(h.definition owner hsame).unique hd]
          exact List.mem_of_getElem? hmem
      | callable id =>
          rw [hown] at hlists
          obtain ⟨params, hparams, hmem⟩ := hlists
          refine if_neg fun hsame => hfree (List.mem_append_right _ ?_)
          obtain rfl := Option.some.inj ((h.callable id hsame).symm.trans hparams)
          exact List.mem_of_getElem? hmem

/-- A definition that has a bound parameter is the one whose parameters are bound. -/
theorem typeOwner_of_mem (h : sub.Binds store own called) (hs : store.Coherent)
    {definition param : Handle} {params : List Handle} (hd : store.Defines definition params)
    (hmem : param ∈ params) (hbound : param ∈ own ++ called) : sub.typeOwner = some definition := by
  obtain ⟨_, hown⟩ := hs.paramAt_of_mem hd hmem
  obtain ⟨i, hi⟩ := List.getElem?_of_mem hbound
  rcases h.paramAt hs hi with ⟨owner, hsub, -, hparam⟩ | ⟨id, -, -, hparam⟩
  · rw [hsub, ParamOwner.type.inj (hparam.unique hown).1]
  · cases (hparam.unique hown).1

end Binds

end Substitution

namespace Store

variable {s : Store} {params args : List Handle} {ρ : Handle → Handle → Prop} {a b : Handle}

/-- An instantiation is a value type if its definition is, and an array never is one. -/
structure UniformKinds (store : Store) : Prop where
  application : ∀ {definition args type}, store.Applies definition args type →
    store.isValueType type = store.isValueType definition
  array : ∀ {element rank type}, store.IsArray element rank type →
    store.isValueType type = .ok false

/-- Whether instantiations are value types as their definitions are, and arrays are none. -/
def uniformKinds (store : Store) : Bool :=
  store.types.toList.all fun entry =>
    match entry.shape with
    | .instantiation definition _ => store.types[definition]?.any fun declared =>
        entry.flags.valueType == declared.flags.valueType
    | .array _ _ => !entry.flags.valueType
    | _ => true

theorem uniformKinds_of_check (h : s.uniformKinds = true) : s.UniformKinds := by
  have hcheck : ∀ {type form}, s.form type = some form → ∃ entry, s.types[type]? = some entry ∧
      entry.form = form ∧ s.isValueType type = .ok entry.flags.valueType ∧
      entry ∈ s.types.toList := by
    intro type form hform
    obtain ⟨entry, hentry, rfl⟩ := form_eq_some.mp hform
    refine ⟨entry, hentry, rfl, ?_, Array.mem_toList_iff.mpr (Array.mem_of_getElem? hentry)⟩
    rw [isValueType, flags, query_of_entry hentry (·.flags)]
    rfl
  refine ⟨?_, ?_⟩
  · rintro definition args type ⟨own, hd, -, ⟨-, rfl⟩ | ⟨-, form, hform, hshape⟩⟩
    · rfl
    · obtain ⟨dform, hdform, -⟩ := hd
      obtain ⟨entry, -, rfl, hvalue, hmem⟩ := hcheck hform
      obtain ⟨declared, hdeclared, -, hdvalue, -⟩ := hcheck hdform
      have hkind := List.all_eq_true.mp h entry hmem
      rw [Entry.form_shape_eq_instantiation] at hshape
      simp only [hshape, hdeclared, Option.any_some, beq_iff_eq] at hkind
      rw [hvalue, hdvalue, hkind]
  · rintro element rank type ⟨form, hform, hshape⟩
    obtain ⟨entry, -, rfl, hvalue, hmem⟩ := hcheck hform
    have hkind := List.all_eq_true.mp h entry hmem
    rw [Entry.form_shape_eq_array] at hshape
    simp only [hshape, Bool.not_eq_true'] at hkind
    rw [hvalue, hkind]

/-- A type that is no parameter is a reference type unless it is a value type. -/
theorem isReferenceType_eq {type : Handle}
    (h : ∃ form, s.form type = some form ∧ form.isParameter = false) :
    s.isReferenceType type = (s.isValueType type).map (!·) := by
  obtain ⟨form, hform, hparameter⟩ := h
  obtain ⟨entry, hentry, rfl⟩ := form_eq_some.mp hform
  rw [Entry.form_isParameter] at hparameter
  rw [isReferenceType, isValueType, flags, entry_eq_ok.mpr hentry]
  simp [hparameter, bind, Except.bind, pure, Except.pure, Except.map]

namespace Alike

theorem element (h : s.Alike ρ a b) {element : Handle} {rank : Nat}
    (harray : s.IsArray element rank a) :
    ∃ element', s.IsArray element' rank b ∧ ρ element element' := by
  obtain ⟨form, hform, hshape, hdef⟩ := harray.exists_form
  cases h with
  | application ha =>
      obtain ⟨form', hform', hdef', -⟩ := ha.exists_form
      obtain rfl := Option.some.inj (hform.symm.trans hform')
      rw [hdef] at hdef'
      cases hdef'
  | array ha hb helement =>
      obtain ⟨rfl, rfl⟩ := harray.inj ha
      exact ⟨_, hb, helement⟩
  | leaf hform' _ hnone =>
      obtain rfl := Option.some.inj (hform.symm.trans hform')
      rw [hshape] at hnone
      cases hnone

theorem application_parts (h : s.Alike ρ a b) {definition : Handle} {parts : List Handle}
    (happlies : s.Applies definition parts a) :
    ∃ parts', s.Applies definition parts' b ∧ List.Forall₂ ρ parts parts' := by
  obtain ⟨form, hform, hdef, -, harray⟩ := happlies.exists_form
  cases h with
  | application ha hb hparts =>
      obtain ⟨rfl, rfl⟩ := happlies.inj ha
      exact ⟨_, hb, hparts⟩
  | array ha =>
      obtain ⟨form', hform', harray', -⟩ := ha.exists_form
      obtain rfl := Option.some.inj (hform.symm.trans hform')
      rw [harray] at harray'
      cases harray'
  | leaf hform' hnone =>
      obtain rfl := Option.some.inj (hform.symm.trans hform')
      rw [hdef] at hnone
      cases hnone

theorem nonarray (h : s.Alike ρ a b) (harray : s.array? a = .ok none) :
    s.array? b = .ok none ∧ s.definitionOrSelf b = s.definitionOrSelf a := by
  cases h with
  | application ha hb =>
      obtain ⟨hda, -⟩ := ha.queries
      obtain ⟨hdb, -, hnone, -⟩ := hb.queries
      exact ⟨hnone, hdb.trans hda.symm⟩
  | array ha =>
      rw [array?_of_isArray ha] at harray
      cases harray
  | leaf => exact ⟨harray, rfl⟩

theorem arguments (h : s.Alike ρ a b) {parts : List Handle} (hargs : s.arguments a = .ok parts) :
    ∃ parts', s.arguments b = .ok parts' ∧ List.Forall₂ ρ parts parts' := by
  cases h with
  | application ha hb hparts =>
      obtain ⟨-, hargs', -⟩ := ha.queries
      obtain rfl := Except.ok.inj (hargs.symm.trans hargs')
      exact ⟨_, hb.queries.2.1, hparts⟩
  | array ha hb =>
      obtain ⟨form, hform, hshape⟩ := ha
      obtain ⟨form', hform', hshape'⟩ := hb
      rw [arguments_of_form hform, Entry.arguments, hshape] at hargs
      obtain rfl := Except.ok.inj hargs
      exact ⟨[], by rw [arguments_of_form hform', Entry.arguments, hshape'], .nil⟩
  | @leaf form hform hdef harray =>
      have hnil : form.arguments = [] := by
        cases hshape : form.shape <;>
          simp [Entry.arguments, Entry.definition?, hshape] at hdef ⊢
      rw [arguments_of_form hform, hnil] at hargs
      obtain rfl := Except.ok.inj hargs
      exact ⟨[], by rw [arguments_of_form hform, hnil], .nil⟩

theorem isReferenceType (h : s.Alike ρ a b) (hkinds : s.UniformKinds) :
    s.isReferenceType b = s.isReferenceType a := by
  cases h with
  | application ha hb =>
      rw [isReferenceType_eq hb.proper, isReferenceType_eq ha.proper,
        hkinds.application ha, hkinds.application hb]
  | array ha hb =>
      rw [isReferenceType_eq hb.proper, isReferenceType_eq ha.proper,
        hkinds.array ha, hkinds.array hb]
  | leaf => rfl

theorem eq_of_leaf (h : s.Alike ρ a b) {form : Entry} (hform : s.form b = some form)
    (hdef : form.definition? b = none) (harray : form.array? = none) : a = b := by
  cases h with
  | application _ hb =>
      obtain ⟨form', hform', hdef', -⟩ := hb.exists_form
      obtain rfl := Option.some.inj (hform.symm.trans hform')
      rw [hdef] at hdef'
      cases hdef'
  | array _ hb =>
      obtain ⟨form', hform', harray', -⟩ := hb.exists_form
      obtain rfl := Option.some.inj (hform.symm.trans hform')
      rw [harray] at harray'
      cases harray'
  | leaf => rfl

theorem eq_root (h : s.Alike ρ a s.root) (hs : s.Coherent) : a = s.root := by
  obtain ⟨form, hform, hshape⟩ := isNamed_root hs
  exact h.eq_of_leaf hform (by simp [Entry.definition?, hshape]) (by simp [Entry.array?, hshape])

theorem bne_of_iff {definition : Handle} (h : a = definition ↔ b = definition) :
    (definition != b) = (definition != a) := by
  rw [Bool.eq_iff_iff, bne_iff_ne, bne_iff_ne]
  exact not_congr (eq_comm.trans (h.symm.trans eq_comm))

/-- Types that are alike are both the wrapper of optional values, unless one of them is the bare
wrapper and the other is not. -/
theorem isOptionalWrapper (h : s.Alike ρ a b)
    (hbare : ∀ {definition parts parts'}, s.optionalWrapper = some definition →
      s.Applies definition parts a → s.Applies definition parts' b → List.Forall₂ ρ parts parts' →
        (a = definition ↔ b = definition)) :
    s.isOptionalWrapper b = s.isOptionalWrapper a := by
  cases h with
  | @application _ definition parts parts' ha hb hparts =>
      obtain ⟨_, hform, hdef, -⟩ := ha.exists_form
      obtain ⟨_, hform', hdef', -⟩ := hb.exists_form
      rw [Store.isOptionalWrapper, Store.isOptionalWrapper, definition?_of_form hform,
        definition?_of_form hform', hdef, hdef', Query.ok_bind, Query.ok_bind]
      cases hwrapper : s.optionalWrapper with
      | none => rfl
      | some wrapper =>
          dsimp only
          by_cases hsame : wrapper = definition
          · subst hsame
            rw [bne_of_iff (hbare hwrapper ha hb hparts)]
          · rw [beq_false_of_ne hsame]
            rfl
  | array ha hb =>
      obtain ⟨_, hform, -, hdef⟩ := ha.exists_form
      obtain ⟨_, hform', -, hdef'⟩ := hb.exists_form
      rw [Store.isOptionalWrapper, Store.isOptionalWrapper, definition?_of_form hform,
        definition?_of_form hform', hdef, hdef', Query.ok_bind, Query.ok_bind]
      cases s.optionalWrapper <;> rfl
  | leaf => rfl

theorem isSequenceInstance (h : s.Alike ρ a b)
    (hbare : ∀ {definition parts parts'}, s.isSequenceInterface definition = true →
      s.Applies definition parts a → s.Applies definition parts' b → List.Forall₂ ρ parts parts' →
        (a = definition ↔ b = definition)) :
    Assignability.isSequenceInstance s b = Assignability.isSequenceInstance s a := by
  cases h with
  | @application _ definition parts parts' ha hb hparts =>
      obtain ⟨_, hform, hdef, -⟩ := ha.exists_form
      obtain ⟨_, hform', hdef', -⟩ := hb.exists_form
      rw [Assignability.isSequenceInstance, Assignability.isSequenceInstance,
        definition?_of_form hform, definition?_of_form hform', hdef, hdef', Query.ok_bind,
        Query.ok_bind]
      dsimp only
      cases hsequence : s.isSequenceInterface definition with
      | false => rw [Bool.and_false, Bool.and_false]
      | true => rw [bne_of_iff (hbare hsequence ha hb hparts)]
  | array ha hb =>
      obtain ⟨_, hform, -, hdef⟩ := ha.exists_form
      obtain ⟨_, hform', -, hdef'⟩ := hb.exists_form
      rw [Assignability.isSequenceInstance, Assignability.isSequenceInstance,
        definition?_of_form hform, definition?_of_form hform', hdef, hdef', Query.ok_bind,
        Query.ok_bind]
  | leaf => rfl

end Alike

namespace Assigns

/-- Only a parameter of a definition that is not replaced becomes one. -/
theorem eq_of_paramAt (h : s.Assigns params args) (hr : s.Replaced false params args a b)
    {definition : Handle} {position : Nat} (hparam : s.ParamAt b (.type definition) position) :
    a = b := by
  obtain ⟨form, hform, hdef, harray⟩ := hparam.exists_form
  cases hr with
  | bound _ harg => exact absurd hparam (h.free b (List.mem_of_getElem? harg) _ _)
  | application _ _ _ _ _ _ happlies =>
      obtain ⟨form', hform', hdef', -⟩ := happlies.exists_form
      obtain rfl := Option.some.inj (hform.symm.trans hform')
      rw [hdef] at hdef'
      cases hdef'
  | array _ _ _ _ hresult =>
      obtain ⟨form', hform', harray', -⟩ := hresult.exists_form
      obtain rfl := Option.some.inj (hform.symm.trans hform')
      rw [harray] at harray'
      cases harray'
  | leaf => rfl

/-- Only a bare definition becomes bare. -/
theorem eq_definition (h : s.Assigns params args) (hs : s.Coherent) {definition : Handle}
    {parts parts' : List Handle} (ha : s.Applies definition parts a)
    (hb : s.Applies definition parts' definition)
    (hparts : List.Forall₂ (s.Replaced false params args) parts parts') : a = definition := by
  obtain ⟨own, hd, -⟩ := id hb
  obtain ⟨dform, hdform, hdshape⟩ := id hd
  have hself : s.Applies definition own definition := ⟨own, hd, rfl, Or.inl ⟨rfl, rfl⟩⟩
  obtain ⟨-, rfl⟩ := hb.inj hself
  obtain ⟨hlength, hparts⟩ := forall₂_iff_getElem?.mp hparts
  have heq : parts = parts' := eq_of_getElem? hlength fun i x p hx hp =>
    h.eq_of_paramAt (hparts i x p hx hp) (hs.paramAt hdform hdshape hp)
  subst heq
  exact hs.applies_unique ha hself

/-- A definition whose parameters stay is bare before and after. -/
theorem eq_definition_iff (h : s.Assigns params args) (hs : s.Coherent) {definition : Handle}
    {own parts parts' : List Handle} (hd : s.Defines definition own)
    (hown : ∀ param ∈ own, param ∉ params) (ha : s.Applies definition parts a)
    (hb : s.Applies definition parts' b)
    (hparts : List.Forall₂ (s.Replaced false params args) parts parts') :
    a = definition ↔ b = definition := by
  constructor
  · rintro rfl
    exact (h.parameters.replaced_applies ha hb hparts).functional hs
      (hs.replaced_bare (h.parameters.not_mem_of_applies ha) hd hown)
  · rintro rfl
    exact h.eq_definition hs ha hb hparts

end Assigns

end Store

namespace Assignability

open Substitution (Identical BindsClosed)

/-- A store and a later one, each with a substitution, and types of the later store that are put in for
the parameters which the first substitution binds. What is put in resolves, under the second
substitution, to the closed type to which the parameter is bound. `P` holds of the types in play. -/
structure Realizes (store store' : Store) (sub sub' : Substitution) (params args : List Handle)
    (P : Handle → Prop) : Prop where
  wellFormed : store.WellFormed
  closed : ∀ {type : Handle} {entry}, store.types[type]? = some entry → entry.closed = true
  later : store.Later store'
  interprets : store'.Interprets params args
  kinds : store'.UniformKinds
  bound : ∀ (i : Nat) param arg, params[i]? = some param → args[i]? = some arg →
    ∃ type form, sub.resolve store param = .ok type ∧ sub'.resolve store' arg = .ok type ∧
      store.form type = some form ∧ form.isOpen = false
  free : ∀ {a}, a < store.size → a ∉ params → sub.resolve store a = .ok a
  free' : ∀ {a b}, P a → a ∉ params → store'.Replaced false params args a b →
    sub'.resolve store' b = .ok b
  inRange : ∀ {a}, P a → a < store.size
  ground : ∀ {a form}, store.form a = some form → form.isOpen = false → P a
  argument : ∀ {a form arg}, P a → store.form a = some form → arg ∈ form.arguments → P arg
  element : ∀ {a form element rank}, P a → store.form a = some form →
    form.array? = some (element, rank) → P element
  supertype : ∀ {a super}, P a → store.Supertype a super → P super
  /-- The wrapper of optional values and the sequences keep their parameters. -/
  wrapper : ∀ {definition own}, store'.optionalWrapper = some definition →
    store'.Defines definition own → ∀ param ∈ own, param ∉ params
  sequence : ∀ {definition own}, store'.isSequenceInterface definition = true →
    store'.Defines definition own → ∀ param ∈ own, param ∉ params

/-- A type in play, and the type of the later store for which it stands. -/
def StandsFor (store' : Store) (params args : List Handle) (P : Handle → Prop) (a b : Handle) :
    Prop :=
  P a ∧ store'.Replaced false params args a b

/-- A type in play that is no bound parameter, and the type for which it stands. -/
def Resolved (store' : Store) (params args : List Handle) (P : Handle → Prop) (a b : Handle) :
    Prop :=
  a ∉ params ∧ StandsFor store' params args P a b

namespace Realizes

variable {store store' : Store} {sub sub' : Substitution} {params args : List Handle}
  {P : Handle → Prop} {a a' b c c' d element : Handle} {rank : Nat}

theorem coherent (h : Realizes store store' sub sub' params args P) : store.Coherent :=
  h.wellFormed.coherent

theorem coherent' (h : Realizes store store' sub sub' params args P) : store'.Coherent :=
  h.interprets.coherent

theorem agree (h : Realizes store store' sub sub' params args P) :
    Agree store store' .empty .empty (· < store.size) :=
  agree_of_later h.wellFormed h.interprets.lawful.wellFormed h.later h.closed

theorem isArray_iff (h : Realizes store store' sub sub' params args P) (ha : P a) :
    store'.IsArray element rank a ↔ store.IsArray element rank a := by
  rw [Store.IsArray, Store.IsArray, h.agree.form (h.inRange ha)]

theorem applies_of_later (h : Realizes store store' sub sub' params args P) (ha : P a)
    {definition : Handle} {parts : List Handle} (happlies : store'.Applies definition parts a) :
    store.Applies definition parts a ∧ ∀ part ∈ parts, P part := by
  obtain ⟨form, hform, hdef, rfl, -⟩ := happlies.exists_form
  rw [h.agree.form (h.inRange ha)] at hform
  exact ⟨h.coherent.applies_of_form hform hdef, fun part hpart => h.argument ha hform hpart⟩

theorem lt (h : Realizes store store' sub sub' params args P) (ha : P a) : a < store'.size :=
  Nat.lt_of_lt_of_le (h.inRange ha) h.later.size_le

theorem array?_eq (h : Realizes store store' sub sub' params args P) (ha : P a) :
    store'.array? a = store.array? a := by
  rw [Store.array?, Store.array?, h.agree.entry (h.inRange ha)]

theorem arguments_eq (h : Realizes store store' sub sub' params args P) (ha : P a) :
    store'.arguments a = store.arguments a := by
  rw [Store.arguments, Store.arguments, h.agree.entry (h.inRange ha)]

theorem element_of_isArray (h : Realizes store store' sub sub' params args P) (ha : P a)
    (harray : store.IsArray element rank a) : P element := by
  obtain ⟨form, hform, hshape, -⟩ := harray.exists_form
  exact h.element ha hform hshape

theorem of_arguments (h : Realizes store store' sub sub' params args P) (ha : P a)
    {parts : List Handle} (hparts : store.arguments a = .ok parts) : ∀ part ∈ parts, P part := by
  obtain ⟨form, hform⟩ := Store.form_isSome (h.inRange ha)
  rw [Store.arguments_of_form hform] at hparts
  obtain rfl := Except.ok.inj hparts
  exact fun part hpart => h.argument ha hform hpart

theorem alike (h : Realizes store store' sub sub' params args P)
    (hσ : Resolved store' params args P a b) :
    store'.Alike (store'.Replaced false params args) a b :=
  hσ.2.2.alike h.coherent' hσ.1

/-- A closed type stands for itself. -/
theorem resolved_closed (h : Realizes store store' sub sub' params args P) {form : Entry}
    (hform : store.form a = some form) (hclosed : form.isOpen = false) :
    Resolved store' params args P a a := by
  have hform' := h.later.extends.forms hform
  exact ⟨h.interprets.assigns.parameters.not_mem hform'
      (Substitution.isParameter_of_closed h.coherent' hform' hclosed), h.ground hform hclosed,
    h.interprets.assigns.parameters.replaced_closed h.coherent' hform' hclosed⟩

/-- A bound parameter and what it stands for resolve to one closed type, and other types stay. -/
theorem resolve_cases (h : Realizes store store' sub sub' params args P)
    (hρ : StandsFor store' params args P a b) :
    (a ∈ params ∧ ∃ type form, sub.resolve store a = .ok type ∧ sub'.resolve store' b = .ok type ∧
      store.form type = some form ∧ form.isOpen = false) ∨
    a ∉ params ∧ sub.resolve store a = .ok a ∧ sub'.resolve store' b = .ok b := by
  by_cases hbound : a ∈ params
  · obtain ⟨i, hi, harg⟩ := hρ.2.of_mem hbound
    exact Or.inl ⟨hbound, h.bound i a b hi harg⟩
  · exact Or.inr ⟨hbound, h.free (h.inRange hρ.1) hbound, h.free' hρ.1 hbound hρ.2⟩

/-- What a type stands for resolves to what its resolution stands for. -/
theorem resolve (h : Realizes store store' sub sub' params args P)
    (hρ : StandsFor store' params args P a b) :
    ∃ a' b', sub.resolve store a = .ok a' ∧ sub'.resolve store' b = .ok b' ∧
      Resolved store' params args P a' b' := by
  rcases h.resolve_cases hρ with ⟨-, type, form, ha, hb, hform, hclosed⟩ | ⟨hfree, ha, hb⟩
  · exact ⟨type, type, ha, hb, h.resolved_closed hform hclosed⟩
  · exact ⟨a, b, ha, hb, hfree, hρ⟩

/-- Identical types stand for identical types. -/
theorem identical (h : Realizes store store' sub sub' params args P)
    (hidentical : Identical store sub a c) (hab : StandsFor store' params args P a b)
    (hcd : StandsFor store' params args P c d) : Identical store' sub' b d := by
  induction hidentical generalizing b d with
  | same ha hc =>
      obtain ⟨x, b', hx, hb, hσb⟩ := h.resolve hab
      obtain ⟨y, d', hy, hd, hσd⟩ := h.resolve hcd
      obtain rfl := Except.ok.inj (ha.symm.trans hx)
      obtain rfl := Except.ok.inj (hc.symm.trans hy)
      obtain rfl := hσb.2.2.functional h.coherent' hσd.2.2
      exact .same hb hd
  | array ha hc haa hca _ ih =>
      obtain ⟨x, b', hx, hb, hσb⟩ := h.resolve hab
      obtain ⟨y, d', hy, hd, hσd⟩ := h.resolve hcd
      obtain rfl := Except.ok.inj (ha.symm.trans hx)
      obtain rfl := Except.ok.inj (hc.symm.trans hy)
      obtain ⟨u, hu, hρu⟩ := (h.alike hσb).element ((h.isArray_iff hσb.2.1).mpr haa)
      obtain ⟨v, hv, hρv⟩ := (h.alike hσd).element ((h.isArray_iff hσd.2.1).mpr hca)
      exact .array hb hd hu hv (ih ⟨h.element_of_isArray hσb.2.1 haa, hρu⟩
        ⟨h.element_of_isArray hσd.2.1 hca, hρv⟩)
  | application ha hc haa hca _ ih =>
      obtain ⟨x, b', hx, hb, hσb⟩ := h.resolve hab
      obtain ⟨y, d', hy, hd, hσd⟩ := h.resolve hcd
      obtain rfl := Except.ok.inj (ha.symm.trans hx)
      obtain rfl := Except.ok.inj (hc.symm.trans hy)
      have haa' := h.later.extends.applies haa
      have hca' := h.later.extends.applies hca
      obtain ⟨us, hus, hρu⟩ := (h.alike hσb).application_parts haa'
      obtain ⟨vs, hvs, hρv⟩ := (h.alike hσd).application_parts hca'
      obtain ⟨hlength, hρu⟩ := forall₂_iff_getElem?.mp hρu
      obtain ⟨hlength', hρv⟩ := forall₂_iff_getElem?.mp hρv
      have hparts := (h.applies_of_later hσb.2.1 haa').2
      have hparts' := (h.applies_of_later hσd.2.1 hca').2
      refine .application hb hd hus hvs fun i u v hu hv => ?_
      obtain ⟨s, hs⟩ := getElem?_of_length_eq hlength hu
      obtain ⟨t, ht⟩ := getElem?_of_length_eq hlength' hv
      exact ih i s t hs ht ⟨hparts s (List.mem_of_getElem? hs), hρu i s u hs hu⟩
        ⟨hparts' t (List.mem_of_getElem? ht), hρv i t v ht hv⟩

/-- Types whose resolutions stand for the same type are identical. -/
theorem identical_of_resolved (h : Realizes store store' sub sub' params args P)
    (ha : sub.resolve store a = .ok a') (hc : sub.resolve store c = .ok c')
    (hσa : Resolved store' params args P a' b) (hσc : Resolved store' params args P c' b) :
    Identical store sub a c := by
  have hs' := h.coherent'
  induction b using Nat.strong_induction_on generalizing a a' c c' with
  | _ b ih =>
      -- Two bound parameters that stand for one type are bound to one type.
      have hparts : ∀ x y z, y < b → StandsFor store' params args P x y →
          StandsFor store' params args P z y → Identical store sub x z := by
        intro x y z hlt hx hz
        rcases h.resolve_cases hx with ⟨-, t, form, hx', hy, hform, hclosed⟩ | ⟨hxfree, hx', hy⟩
        · rcases h.resolve_cases hz with ⟨-, t', _, hz', hy', -⟩ | ⟨hzfree, hz', hy'⟩
          · obtain rfl := Except.ok.inj (hy.symm.trans hy')
            exact .same hx' hz'
          · obtain rfl := Except.ok.inj (hy.symm.trans hy')
            exact ih t hlt hx' hz' (h.resolved_closed hform hclosed) ⟨hzfree, hz⟩
        · rcases h.resolve_cases hz with ⟨-, t, form, hz', hy', hform, hclosed⟩ | ⟨hzfree, hz', -⟩
          · obtain rfl := Except.ok.inj (hy.symm.trans hy')
            exact ih y hlt hx' hz' ⟨hxfree, hx⟩ (h.resolved_closed hform hclosed)
          · exact ih y hlt hx' hz' ⟨hxfree, hx⟩ ⟨hzfree, hz⟩
      cases h.alike hσa with
      | @application _ definition parts parts' haa hb hforall =>
          obtain ⟨parts'', hca, hforall'⟩ := (h.alike hσc).flip.application_parts hb
          obtain ⟨hlength, hforall⟩ := forall₂_iff_getElem?.mp hforall
          obtain ⟨-, hforall'⟩ := forall₂_iff_getElem?.mp hforall'
          obtain ⟨haa, hPa⟩ := h.applies_of_later hσa.2.1 haa
          obtain ⟨hca, hPc⟩ := h.applies_of_later hσc.2.1 hca
          refine .application ha hc haa hca fun i x z hx hz => ?_
          obtain ⟨y, hy⟩ := getElem?_of_length_eq hlength.symm hx
          have hxy := hforall i x y hx hy
          have hzy := hforall' i y z hy hz
          have hPx := hPa x (List.mem_of_getElem? hx)
          obtain ⟨own, ⟨dform, hdform, hdshape⟩, -, ⟨rfl, rfl⟩ | ⟨-, form, hform, hshape⟩⟩ := hb
          · -- The parameters of a bare definition stand only for themselves.
            have hparam := hs'.paramAt hdform hdshape hy
            obtain rfl := h.interprets.assigns.eq_of_paramAt hxy hparam
            obtain rfl := h.interprets.assigns.eq_of_paramAt hzy hparam
            exact .refl (h.inRange hPx)
          · exact hparts x y z (hs'.instantiation_arg_lt hform hshape (List.mem_of_getElem? hy))
              ⟨hPx, hxy⟩ ⟨hPc z (List.mem_of_getElem? hz), hzy⟩
      | @array _ element element' rank haa hb helement =>
          obtain ⟨element'', hca, helement'⟩ := (h.alike hσc).flip.element hb
          have haa := (h.isArray_iff hσa.2.1).mp haa
          have hca := (h.isArray_iff hσc.2.1).mp hca
          obtain ⟨form, hform, hshape⟩ := hb
          exact .array ha hc haa hca (hparts _ element' _ (hs'.array hform hshape).2.1
            ⟨h.element_of_isArray hσa.2.1 haa, helement⟩
            ⟨h.element_of_isArray hσc.2.1 hca, helement'⟩)
      | leaf hform hdef harray =>
          obtain rfl := (h.alike hσc).eq_of_leaf hform hdef harray
          exact .same ha hc

/-- Types that stand for identical types are identical. -/
theorem identical' (h : Realizes store store' sub sub' params args P)
    (hidentical : Identical store' sub' b d) (hab : StandsFor store' params args P a b)
    (hcd : StandsFor store' params args P c d) : Identical store sub a c := by
  induction hidentical generalizing a c with
  | same hb hd =>
      obtain ⟨a', x, ha, hx, hσa⟩ := h.resolve hab
      obtain ⟨c', y, hc, hy, hσc⟩ := h.resolve hcd
      obtain rfl := Except.ok.inj (hb.symm.trans hx)
      obtain rfl := Except.ok.inj (hd.symm.trans hy)
      exact h.identical_of_resolved ha hc hσa hσc
  | array hb hd hba hda _ ih =>
      obtain ⟨a', x, ha, hx, hσa⟩ := h.resolve hab
      obtain ⟨c', y, hc, hy, hσc⟩ := h.resolve hcd
      obtain rfl := Except.ok.inj (hb.symm.trans hx)
      obtain rfl := Except.ok.inj (hd.symm.trans hy)
      obtain ⟨u, hu, hρu⟩ := (h.alike hσa).flip.element hba
      obtain ⟨v, hv, hρv⟩ := (h.alike hσc).flip.element hda
      have hu := (h.isArray_iff hσa.2.1).mp hu
      have hv := (h.isArray_iff hσc.2.1).mp hv
      exact .array ha hc hu hv (ih ⟨h.element_of_isArray hσa.2.1 hu, hρu⟩
        ⟨h.element_of_isArray hσc.2.1 hv, hρv⟩)
  | application hb hd hba hda _ ih =>
      obtain ⟨a', x, ha, hx, hσa⟩ := h.resolve hab
      obtain ⟨c', y, hc, hy, hσc⟩ := h.resolve hcd
      obtain rfl := Except.ok.inj (hb.symm.trans hx)
      obtain rfl := Except.ok.inj (hd.symm.trans hy)
      obtain ⟨us, hus, hρu⟩ := (h.alike hσa).flip.application_parts hba
      obtain ⟨vs, hvs, hρv⟩ := (h.alike hσc).flip.application_parts hda
      obtain ⟨hlength, hρu⟩ := forall₂_iff_getElem?.mp hρu
      obtain ⟨hlength', hρv⟩ := forall₂_iff_getElem?.mp hρv
      obtain ⟨hus, hPu⟩ := h.applies_of_later hσa.2.1 hus
      obtain ⟨hvs, hPv⟩ := h.applies_of_later hσc.2.1 hvs
      refine .application ha hc hus hvs fun i u v hu hv => ?_
      obtain ⟨s, hs⟩ := getElem?_of_length_eq hlength hu
      obtain ⟨t, ht⟩ := getElem?_of_length_eq hlength' hv
      exact ih i s t hs ht ⟨hPu u (List.mem_of_getElem? hu), hρu i s u hs hu⟩
        ⟨hPv v (List.mem_of_getElem? hv), hρv i t v ht hv⟩

/-- A check under the one substitution and a check of what the types stand for under the other
simulate each other. -/
theorem simulates (h : Realizes store store' sub sub' params args P) :
    Simulates store store' sub sub' (StandsFor store' params args P)
      (Resolved store' params args P) where
  resolve hρ hresolve := by
    obtain ⟨a', b', ha, hb, hσ⟩ := h.resolve hρ
    obtain rfl := Except.ok.inj (hresolve.symm.trans ha)
    exact ⟨b', hb, hσ⟩
  related hσ := hσ.2
  identical hab hcd hidentical := h.identical hidentical hab hcd
  root hσ := by
    obtain ⟨form, hform, hshape⟩ := Store.isNamed_root h.coherent'
    have hclosed := (h.coherent'.named hform hshape).1
    rw [h.later.root] at hform ⊢
    exact h.interprets.assigns.parameters.eq_of_closed h.coherent' hσ.2.2 hform hclosed
  array hσ harray := by
    obtain ⟨element', harray', hρ⟩ := (h.alike hσ).element ((h.isArray_iff hσ.2.1).mpr harray)
    exact ⟨element', harray', h.element_of_isArray hσ.2.1 harray, hρ⟩
  nonarray {a b} hσ harray := by
    rw [← h.agree.definitionOrSelf (h.inRange hσ.2.1)]
    rw [← h.array?_eq hσ.2.1] at harray
    exact (h.alike hσ).nonarray harray
  arguments {a b parts} hσ hparts := by
    have hP := h.of_arguments hσ.2.1 hparts
    rw [← h.arguments_eq hσ.2.1] at hparts
    obtain ⟨parts', hparts', hρ⟩ := (h.alike hσ).arguments hparts
    exact ⟨parts', hparts', (List.forall₂_and_left _ _).mpr ⟨hP, hρ⟩⟩
  variance hσ _ hdefinition := h.agree.variance (h.inRange hσ.2.1) hdefinition
  isReferenceType {a b} hσ := by
    rw [(h.alike hσ).isReferenceType h.kinds, Store.isReferenceType, Store.isReferenceType,
      h.agree.entry (h.inRange hσ.2.1)]
  isOptionalWrapper hσ := by
    rw [← h.agree.isOptionalWrapper (h.inRange hσ.2.1)]
    refine (h.alike hσ).isOptionalWrapper fun hwrapper ha hb hparts => ?_
    obtain ⟨own, hd, -⟩ := id ha
    exact h.interprets.assigns.eq_definition_iff h.coherent' hd (h.wrapper hwrapper hd) ha hb hparts
  isSequenceInstance hσ := by
    rw [← h.agree.isSequenceInstance (h.inRange hσ.2.1)]
    refine (h.alike hσ).isSequenceInstance fun hsequence ha hb hparts => ?_
    obtain ⟨own, hd, -⟩ := id ha
    exact h.interprets.assigns.eq_definition_iff h.coherent' hd (h.sequence hsequence hd) ha hb hparts
  supertype hσ hsuper := by
    have hsuper' := (h.agree.supertype (h.inRange hσ.2.1) hsuper).2
    obtain ⟨super', ⟨hfree, hρ⟩, hsuper'⟩ := h.interprets.ascends.supertype h.interprets.lawful
      h.interprets.settled hsuper' (h.lt hσ.2.1) (h.interprets.assigns.lt hσ.2.2) ⟨hσ.1, hσ.2.2⟩
    exact ⟨super', hsuper', hfree, h.supertype hσ.2.1 hsuper, hρ⟩

theorem simulates' (h : Realizes store store' sub sub' params args P) :
    Simulates store' store sub' sub (fun b a => StandsFor store' params args P a b)
      (fun b a => Resolved store' params args P a b) where
  resolve {b a x} hρ hresolve := by
    obtain ⟨a', b', ha, hb, hσ⟩ := h.resolve hρ
    obtain rfl := Except.ok.inj (hresolve.symm.trans hb)
    exact ⟨a', ha, hσ⟩
  related hσ := hσ.2
  identical hab hcd hidentical := h.identical' hidentical hab hcd
  root hσ := by
    rw [← h.later.root]
    exact (h.alike hσ).eq_root h.coherent'
  array {b a element rank} hσ harray := by
    obtain ⟨element', harray', hρ⟩ := (h.alike hσ).flip.element harray
    have harray' := (h.isArray_iff hσ.2.1).mp harray'
    exact ⟨element', harray', h.element_of_isArray hσ.2.1 harray', hρ⟩
  nonarray {b a} hσ harray := by
    rw [← h.agree.definitionOrSelf (h.inRange hσ.2.1), ← h.array?_eq hσ.2.1]
    exact (h.alike hσ).flip.nonarray harray
  arguments {b a parts} hσ hparts := by
    obtain ⟨parts', hparts', hρ⟩ := (h.alike hσ).flip.arguments hparts
    rw [h.arguments_eq hσ.2.1] at hparts'
    have hP := h.of_arguments hσ.2.1 hparts'
    exact ⟨parts', hparts', ((List.forall₂_and_left _ _).mpr ⟨hP, hρ.flip⟩).flip⟩
  variance {b a definition} hσ harray hdefinition position := by
    have hsame := ((h.alike hσ).flip.nonarray harray).2
    rw [hdefinition, h.agree.definitionOrSelf (h.inRange hσ.2.1)] at hsame
    exact (h.agree.variance (h.inRange hσ.2.1) hsame position).symm
  isReferenceType hσ := (h.simulates.isReferenceType hσ).symm
  isOptionalWrapper hσ := (h.simulates.isOptionalWrapper hσ).symm
  isSequenceInstance hσ := (h.simulates.isSequenceInstance hσ).symm
  supertype {b a super} hσ hsuper := by
    obtain ⟨super', ⟨hfree, hρ⟩, hsuper'⟩ := h.interprets.descends.supertype h.interprets.lawful
      h.interprets.settled hsuper (h.interprets.assigns.lt hσ.2.2) (h.lt hσ.2.1) ⟨hσ.1, hσ.2.2⟩
    have hsuper' := (supertype_iff_of_later h.wellFormed h.interprets.lawful.wellFormed h.later
      h.closed (h.inRange hσ.2.1)).mp hsuper'
    exact ⟨super', hsuper', hfree, h.supertype hσ.2.1 hsuper', hρ⟩

/-- Types are related under the one substitution if and only if what they stand for is related under
the other. -/
theorem sub_iff_sub (h : Realizes store store' sub sub' params args P)
    (hab : StandsFor store' params args P a b) (hcd : StandsFor store' params args P c d) :
    Sub store sub a c ↔ Sub store' sub' b d :=
  ⟨h.simulates.assignable h.coherent hab hcd, h.simulates'.assignable h.coherent' hab hcd⟩

end Realizes

variable {store store' : Store} {sub : Substitution} {own called : List Handle}
  {source target target' : Handle}

/-- Closed types are put in for the parameters that a substitution binds to them. -/
theorem realizes_of_binds (hs : store.WellFormed)
    (hclosed : ∀ {type : Handle} {entry}, store.types[type]? = some entry → entry.closed = true)
    (hlater : store.Later store') (hlawful' : store'.Lawful) (hfinished' : store'.finished = true)
    (hsettled : store'.Settled) (hbinds : sub.Binds store own called)
    (hsub : sub.BindsClosed store) (hdelimits : store'.Delimits (own ++ called))
    (hkinds : store'.UniformKinds)
    (hwrapper : ∀ owner, sub.typeOwner = some owner → store.optionalWrapper ≠ some owner)
    (hsequence : ∀ owner, sub.typeOwner = some owner → store.isSequenceInterface owner = false) :
    Realizes store store' sub .empty (own ++ called) (sub.typeArgs ++ sub.callableArgs)
      (· < store.size) := by
  have hs' := hlawful'.wellFormed.coherent
  have hbinds' := hbinds.mono hlater.extends
  have hassigns : store'.Assigns (own ++ called) (sub.typeArgs ++ sub.callableArgs) := by
    refine ⟨fun param => hbinds'.parameter hs', hbinds.length_eq, fun arg harg => ?_,
      fun arg harg definition position hparam => ?_⟩
    · obtain ⟨form, hform, -⟩ := hsub arg harg
      exact Store.form_lt (hlater.extends.forms hform)
    · obtain ⟨form, hform, hclosed⟩ := hsub arg harg
      exact hparam.not_closed hs' (hlater.extends.forms hform) hclosed
  exact {
    wellFormed := hs
    closed := hclosed
    later := hlater
    interprets := ⟨hlawful', hfinished', hsettled, hassigns, hdelimits⟩
    kinds := hkinds
    bound := by
      intro i param arg hparam harg
      obtain ⟨arg', harg', hresolve⟩ := hbinds.resolve_bound hs.coherent hparam
      obtain rfl := Option.some.inj (harg.symm.trans harg')
      obtain ⟨form, hform, hclosed⟩ := hsub arg (List.mem_of_getElem? harg)
      exact ⟨arg, form, hresolve,
        Substitution.resolve_empty (Store.form_lt (hlater.extends.forms hform)), hform, hclosed⟩
    free := hbinds.resolve_free hs.coherent
    free' := fun _ _ hr => Substitution.resolve_empty (hassigns.lt hr)
    inRange := id
    ground := fun hform _ => Store.form_lt hform
    argument := by
      intro a form arg _ hform harg
      obtain ⟨_, harg, -⟩ := hs.coherent.argument hform harg
      exact Store.form_lt harg
    element := by
      intro a form element rank _ hform harray
      obtain ⟨_, hpart, -⟩ := hs.coherent.element hform harray
      exact Store.form_lt hpart
    supertype := fun hlt hsuper => hsuper.lt hs hlt
    wrapper := fun hdefinition hd param hparam hbound =>
      hwrapper _ (hbinds'.typeOwner_of_mem hs' hd hparam hbound)
        (hlater.optionalWrapper ▸ hdefinition)
    sequence := by
      intro definition params hdefinition hd param hparam hbound
      have hnot := hsequence _ (hbinds'.typeOwner_of_mem hs' hd hparam hbound)
      rw [Store.isSequenceInterface, hlater.sequenceInterfaces] at hdefinition
      exact absurd hdefinition (by rw [Bool.not_eq_true]; exact hnot) }

/-- A check under a substitution by closed types answers as the check of the substituted type does in
any later store that holds it, if neither hits a limit. Interface sets have to be complete
(`Settled`). No declared supertype may mention bare a definition with bound parameters, as in a
declaration that compares with itself, nor bound parameters of another declaration, nor be a
parameter, and arrays declare no interfaces (`Delimits`). An instantiation has to be a value type if
its definition is (`UniformKinds`). The substitution must not bind the parameters of the optional
wrapper or of a sequence interface, since the walk takes neither for an instantiation while it is
bare. -/
theorem check_eq_isAssignable (hreachable : store.Reachable) (hfinished : store.finished = true)
    (hclosed : ∀ {type : Handle} {entry}, store.types[type]? = some entry → entry.closed = true)
    (hbinds : sub.Binds store own called) (hsub : sub.BindsClosed store) {ops : List Operation}
    (hops : ∀ op ∈ ops, op.interns = true) (hrun : Operation.runAll ops store = some store')
    (hsettled : store'.Settled) (hdelimits : store'.Delimits (own ++ called))
    (hkinds : store'.UniformKinds)
    (hwrapper : ∀ owner, sub.typeOwner = some owner → store.optionalWrapper ≠ some owner)
    (hsequence : ∀ owner, sub.typeOwner = some owner → store.isSequenceInterface owner = false)
    (hsource : store.isOpen source = .ok false) (htarget : target < store.size)
    (htarget' : store'.Replaced false (own ++ called) (sub.typeArgs ++ sub.callableArgs) target
      target')
    (hlimits : WithinLimits store sub source target)
    (hlimits' : WithinLimits store' .empty source target') :
    ∃ answer guard, (check store sub source target).run (Guard.ofLimits Limits.assignability) =
        .ok (answer, guard) ∧ store'.isAssignable source target' = .ok answer := by
  have hs := hreachable.lawful.wellFormed
  obtain ⟨hlawful', hlater⟩ := hreachable.lawful.later_of_runAll hops hrun
  have h := realizes_of_binds hs hclosed hlater hlawful' (hlater.finished.trans hfinished) hsettled
    hbinds hsub hdelimits hkinds hwrapper hsequence
  obtain ⟨form, hform, hopen⟩ := Store.form_of_isOpen hsource
  have hsource := (h.resolved_closed hform hopen).2
  have hiff := h.sub_iff_sub hsource ⟨htarget, htarget'⟩
  obtain ⟨answer, guard, hcheck, -, hsound, hcomplete⟩ := check_decides hs hsub hsource.1 htarget
  obtain ⟨answer', hanswer', hsound', hcomplete'⟩ := isAssignable_decides hlawful'.wellFormed
    (h.lt hsource.1) (h.interprets.assigns.lt htarget')
  have hwithin := hlimits answer guard hcheck
  refine ⟨answer, guard, hcheck, hanswer'.trans (congrArg Except.ok ?_)⟩
  cases answer with
  | true => exact hcomplete' hlimits' (hiff.mp (hsound rfl))
  | false =>
      cases answer' with
      | false => rfl
      | true => exact absurd (hiff.mpr (hsound' rfl)) (hcomplete rfl hwithin)

/-- Kennels are sources of dogs, and zoos ask for sources of what they hold. -/
def zooOperations : List Operation :=
  [.declareGeneric .interfaceType "ISource" [("X", .covariant)],
    .declareGeneric .classType "Zoo" [("T", .invariant)],
    .declare .classType "Animal",
    .declare .classType "Dog",
    .setBase 6 5,
    .declare .classType "Kennel",
    .instantiate 1 [6],
    .addInterface 7 8,
    .instantiate 1 [4],
    .addConstraint 4 (.base 9),
    .finish]

/-- The store that `zooOperations` build. -/
def zooStore : Store := (Operation.runAll zooOperations (.ofRoot "object")).getD {}

theorem zooStore_reachable : zooStore.Reachable :=
  (Store.Reachable.ofRoot "object").runAll
    (by decide +kernel : Operation.runAll zooOperations (.ofRoot "object") = some zooStore)

/-- The store with sources of animals. -/
def animalStore : Store := (Operation.runAll [.instantiate 1 [5]] zooStore).getD {}

/-- The substitution for a zoo of animals. -/
def animals : Substitution := { typeOwner := some 3, typeArgs := [5] }

/-- For a zoo of animals, a kennel is a source of what the zoo holds, as it is a source of
animals. -/
theorem check_eq_isAssignable_zoo :
    outcome? zooStore animals 7 9 = some (true, false) ∧
      animalStore.isAssignable 7 10 = .ok true := by
  have hrun : Operation.runAll [.instantiate 1 [5]] zooStore = some animalStore := by
    decide +kernel
  have hs' := (zooStore_reachable.runAll hrun).lawful.wellFormed.coherent
  have hzoo : (zooStore.form 3).map (·.shape) = some (.definition [4]) := by decide +kernel
  obtain ⟨zoo, hzoo, hzooShape⟩ := Option.map_eq_some_iff.mp hzoo
  have hbinds : animals.Binds zooStore [4] [] := by
    refine ⟨?_, by simp [animals], by simp [animals], fun _ => rfl, rfl, rfl⟩
    rintro owner ⟨rfl⟩
    exact ⟨zoo, hzoo, hzooShape⟩
  have hopen : zooStore.isOpen 5 = .ok false := by decide +kernel
  have hclosed : animals.BindsClosed zooStore := by
    intro type htype
    obtain rfl : type = 5 := by simpa [animals] using htype
    exact Store.form_of_isOpen hopen
  have hreplaced : animalStore.Replaced false [4] [5] 9 10 :=
    Store.replaced_of_check hs'
      (by decide +kernel : animalStore.replacesWithin false [4] [5] 2 9 10 = true)
  have hwrapper : zooStore.optionalWrapper = none := by decide +kernel
  have hsequence : zooStore.sequenceInterfaces = [] := by decide +kernel
  have hsettled : zooStore.Settled := Store.settled_of_isSettled (by decide +kernel)
  have hkennel : zooStore.isOpen 7 = .ok false := by decide +kernel
  have hlimits : WithinLimits zooStore animals 7 9 :=
    withinLimits_of_outcome? (by decide +kernel)
  have hlimits' : WithinLimits animalStore .empty 7 10 :=
    withinLimits_of_outcome? (by decide +kernel)
  obtain ⟨answer, guard, hanswer, hassignable⟩ := check_eq_isAssignable zooStore_reachable
    (by decide +kernel) hsettled.closed hbinds hclosed (by decide) hrun
    (Store.settled_of_isSettled (by decide +kernel))
    (Store.delimits_of_check hs' (by decide +kernel))
    (Store.uniformKinds_of_check (by decide +kernel)) (by simp [hwrapper])
    (by simp [Store.isSequenceInterface, hsequence]) hkennel (by decide +kernel) hreplaced hlimits
    hlimits'
  have hcheck : outcome? zooStore animals 7 9 = some (true, false) := by decide +kernel
  have houtcome := hcheck
  simp only [outcome?, hanswer, Option.some.injEq, Prod.mk.injEq] at houtcome
  exact ⟨hcheck, hassignable.trans (congrArg Except.ok houtcome.1)⟩

-- The condition on the wrapper is needed: with its own parameter bound to `int`, the bare wrapper
-- stands for the wrapper of `int`, which accepts `int`, but the walk does not take it for a wrapper.
example :
    (Operation.runAll
      [.declareGeneric .structType "Optional" [("T", .invariant)], .declare .structType "int",
        .setOptionalWrapper 1, .finish, .instantiate 1 [3]] (.ofRoot "object")).map (fun store =>
      (outcome? store { typeOwner := some 1, typeArgs := [3] } 3 1, store.isAssignable 3 4)) =
      some (some (false, false), .ok true) := by
  decide +kernel

end Assignability

end NominalGenerics
