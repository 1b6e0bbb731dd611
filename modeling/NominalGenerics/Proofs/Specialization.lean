import NominalGenerics.Proofs.Scoping
import NominalGenerics.Proofs.SupertypeSubstitution

/-!
# Specialization of types

Putting types in for the type parameters of a callable commutes with taking supertypes: what a
template inherits is, after specialization, what the specialized template inherits. The direct
supertypes of an instantiation are those of its definition with the arguments put in, so this is
composition of replacements, as long as declarations do not mention the parameters of the callable
and interface sets are complete.
-/

namespace NominalGenerics.Store

variable {s : Store} {params types : List Handle} {type result : Handle}

/-- The interface sets are complete: a type lists the interfaces it declares and those that its direct
supertypes list. No limit kept a type from being expanded or closed. -/
structure Settled (store : Store) : Prop where
  closed : ∀ {type : Handle} {entry}, store.types[type]? = some entry → entry.closed = true
  shallow : ∀ {type : Handle} {entry}, store.types[type]? = some entry →
    entry.nesting ≤ maxInstantiationDepth
  declared : ∀ {type : Handle} {entry}, store.types[type]? = some entry →
    entry.directInterfaces ⊆ entry.interfaces
  interface : ∀ {type : Handle} {entry}, store.types[type]? = some entry →
    ∀ (interface : Handle) entry', interface ∈ entry.directInterfaces →
      store.types[interface]? = some entry' → entry'.interfaces ⊆ entry.interfaces
  base : ∀ {type : Handle} {entry}, store.types[type]? = some entry →
    ∀ (base : Handle) entry', entry.base = some base → store.types[base]? = some entry' →
      entry'.interfaces ⊆ entry.interfaces

/-- Complete interface sets list everything inherited. -/
theorem Inherited.mem_interfaces (hs : s.WellFormed) (hsettled : s.Settled) {super : Handle}
    (h : s.Inherited type super) {entry : Entry} (hentry : s.types[type]? = some entry) :
    super ∈ entry.interfaces := by
  induction h generalizing entry with
  | declared hlinks hmem =>
      cases (links_of_entry hentry).symm.trans hlinks
      exact hsettled.declared hentry hmem
  | interface hlinks hmem _ ih =>
      cases (links_of_entry hentry).symm.trans hlinks
      obtain ⟨entry', hentry'⟩ := entry_of_lt ((hs.inRange.links hentry).directInterfaces _ hmem)
      exact hsettled.interface hentry _ entry' hmem hentry' (ih hentry')
  | base hlinks _ ih =>
      have hbase := (links_of_entry hentry).symm.trans hlinks
      simp only [Option.some.injEq, Prod.mk.injEq] at hbase
      obtain ⟨entry', hentry'⟩ := entry_of_lt ((hs.inRange.links hentry).base _ hbase.1)
      exact hsettled.base hentry _ entry' hbase.1 hentry' (ih hentry')

section Ascent

variable {ρ : Handle → Handle → Prop} {super : Handle}

/-- Each direct supertype of a type is related to one of every type that it is related to. -/
def Ascends (store : Store) (ρ : Handle → Handle → Prop) : Prop :=
  ∀ ⦃a b base interfaces⦄, ρ a b → store.links a = some (base, interfaces) →
    ∃ base' interfaces', store.links b = some (base', interfaces') ∧
      (∀ x, base = some x → ∃ y, base' = some y ∧ ρ x y) ∧
      ∀ x ∈ interfaces, ∃ y ∈ interfaces', ρ x y

theorem exists_of_forall₂ {base base' : Option Handle} {interfaces interfaces' : List Handle}
    (hbase : List.Forall₂ ρ base.toList base'.toList)
    (hinterfaces : List.Forall₂ ρ interfaces interfaces') :
    (∀ x, base = some x → ∃ y, base' = some y ∧ ρ x y) ∧
      ∀ x ∈ interfaces, ∃ y ∈ interfaces', ρ x y := by
  refine ⟨?_, fun x hx => mem_of_forall₂ hinterfaces hx⟩
  rintro x rfl
  obtain ⟨y, hy, hxy⟩ := mem_of_forall₂ hbase (List.mem_singleton_self x)
  exact ⟨y, Option.mem_toList.mp hy, hxy⟩

theorem Ascends.baseSteps (h : s.Ascends ρ) {n : Nat} (hsteps : s.BaseSteps n type super)
    (hρ : ρ type result) : ∃ super', ρ super super' ∧ s.BaseSteps n result super' := by
  induction hsteps generalizing result with
  | zero => exact ⟨result, hρ, .zero⟩
  | succ hl _ ih =>
      obtain ⟨base', interfaces', hl', hbase, -⟩ := h hρ hl
      obtain ⟨next, rfl, hnext⟩ := hbase _ rfl
      obtain ⟨super', hsuper', hsteps'⟩ := ih hnext
      exact ⟨super', hsuper', .succ hl' hsteps'⟩

theorem Ascends.inherited (h : s.Ascends ρ) (hinherited : s.Inherited type super)
    (hρ : ρ type result) : ∃ super', ρ super super' ∧ s.Inherited result super' := by
  induction hinherited generalizing result with
  | declared hl hmem =>
      obtain ⟨base', interfaces', hl', -, hinterfaces⟩ := h hρ hl
      obtain ⟨super', hmem', hsuper'⟩ := hinterfaces _ hmem
      exact ⟨super', hsuper', .declared hl' hmem'⟩
  | interface hl hmem _ ih =>
      obtain ⟨base', interfaces', hl', -, hinterfaces⟩ := h hρ hl
      obtain ⟨interface', hmem', hinterface'⟩ := hinterfaces _ hmem
      obtain ⟨super', hsuper', hinherited'⟩ := ih hinterface'
      exact ⟨super', hsuper', .interface hl' hmem' hinherited'⟩
  | base hl _ ih =>
      obtain ⟨base', interfaces', hl', hbase, -⟩ := h hρ hl
      obtain ⟨next, rfl, hnext⟩ := hbase _ rfl
      obtain ⟨super', hsuper', hinherited'⟩ := ih hnext
      exact ⟨super', hsuper', .base hl' hinherited'⟩

/-- Where interface sets are complete, what holds of direct supertypes holds of all. -/
theorem Ascends.supertype (h : s.Ascends ρ) (hs : s.Lawful) (hsettled : s.Settled)
    (hsuper : s.Supertype type super) (hlt : type < s.size) (hlt' : result < s.size)
    (hρ : ρ type result) : ∃ super', ρ super super' ∧ s.Supertype result super' := by
  obtain ⟨entry, hentry⟩ := entry_of_lt hlt
  obtain ⟨entry', hentry'⟩ := entry_of_lt hlt'
  rcases (supertype_iff hs.wellFormed hentry).mp hsuper with ⟨n, hn, hsteps⟩ | hmem
  · obtain ⟨super', hsuper', hsteps'⟩ := h.baseSteps hsteps hρ
    exact ⟨super', hsuper', (supertype_iff hs.wellFormed hentry').mpr (Or.inl ⟨n, hn, hsteps'⟩)⟩
  · obtain ⟨super', hsuper', hinherited⟩ :=
      h.inherited (hs.inheriting type entry hentry super hmem) hρ
    have hmem' := hinherited.mem_interfaces hs.wellFormed hsettled hentry'
    exact ⟨super', hsuper', (supertype_iff hs.wellFormed hentry').mpr (Or.inr hmem')⟩

end Ascent

/-- The declarations of the store do not involve the type parameters: these have no supertypes, no
declared supertype mentions them, and no array that declares interfaces of its own does. -/
structure Isolates (store : Store) (params : List Handle) : Prop where
  parameter : ∀ param ∈ params, store.links param = some (none, [])
  declared : ∀ type base interfaces, ¬ store.Interned type →
    store.links type = some (base, interfaces) →
    ∀ super ∈ base.toList ++ interfaces, store.Avoids params super
  array : ∀ type element rank base interfaces, store.IsArray element rank type →
    store.links type = some (base, interfaces) →
    ∀ interface ∈ interfaces, store.Avoids params type ∧ store.Avoids params interface
  arrayRoot : ∀ root, store.arrayRoot = some root → store.Avoids params root

/-- A type stays as it is if the parameters that it mentions do. -/
theorem replaced_refl (hs : s.Coherent) (hlt : type < s.size)
    (h : ∀ param ∈ params, s.Mentions param type → s.Replaced true params types param param) :
    s.Replaced true params types type type := by
  induction type using Nat.strong_induction_on with
  | _ type ih =>
      by_cases hfree : type ∈ params
      · exact h type hfree .self
      · obtain ⟨form, hform⟩ := form_isSome hlt
        cases hshape : form.shape with
        | instantiation definition args =>
            have hargs : form.arguments = args := by simp [Entry.arguments, hshape]
            refine .application hfree hform (by simp [Entry.definition?, hshape])
              (fun _ => Nat.ne_of_lt (hs.instantiation hform hshape).2.1) (by rw [hargs])
              (fun i a b ha hb => ?_) (hs.applies_self hform hshape)
            rw [hargs] at ha
            obtain rfl : a = b := Option.some.inj (ha.symm.trans hb)
            have hmem := List.mem_of_getElem? ha
            have hsmaller := hs.instantiation_arg_lt hform hshape hmem
            exact ih a hsmaller (Nat.lt_trans hsmaller hlt) fun param hparam hmention =>
              h param hparam (.argument hform hshape hmem hmention)
        | array element rank =>
            have hsmaller := (hs.array hform hshape).2.1
            have harray : form.array? = some (element, rank) := by simp [Entry.array?, hshape]
            refine .array hfree hform harray ?_ ⟨form, hform, hshape⟩
            exact ih element hsmaller (Nat.lt_trans hsmaller hlt) fun param hparam hmention =>
              h param hparam (.element hform hshape hmention)
        | named =>
            exact .leaf hfree hform (by simp [Entry.array?, hshape])
              (Or.inl (by simp [Entry.definition?, hshape]))
        | definition own =>
            exact .leaf hfree hform (by simp [Entry.array?, hshape])
              (Or.inr ⟨rfl, by simp [Entry.definition?, hshape]⟩)
        | parameter info =>
            exact .leaf hfree hform (by simp [Entry.array?, hshape])
              (Or.inl (by simp [Entry.definition?, hshape]))

theorem replaced_of_avoids (hs : s.Coherent) (hlt : type < s.size) (h : s.Avoids params type) :
    s.Replaced true params types type type :=
  replaced_refl hs hlt fun param hparam hmention => absurd hmention (h param hparam)

theorem Replaced.eq_of_avoids (hs : s.Coherent) (hr : s.Replaced true params types type result)
    (hlt : type < s.size) (h : s.Avoids params type) : result = type :=
  hr.functional hs (replaced_of_avoids hs hlt h)

/-- Putting the parameters of a definition in for themselves changes nothing. -/
theorem replaced_own (hs : s.Coherent) {definition : Handle} {own : List Handle}
    (hd : s.Defines definition own) (hlt : type < s.size) : s.Replaced true own own type type := by
  refine replaced_refl hs hlt fun param hparam _ => ?_
  obtain ⟨i, hi⟩ := List.getElem?_of_mem hparam
  exact .bound (hs.idxOf?_param hd hi) hi

section Composition

/-- Type parameters of callables. -/
def CallableParams (store : Store) (params : List Handle) : Prop :=
  ∀ param ∈ params, ∃ id position, store.ParamAt param (.callable id) position

theorem CallableParams.parameters (hparams : s.CallableParams params) : s.Parameters params := by
  intro param hmem
  obtain ⟨id, position, hparam⟩ := hparams param hmem
  exact ⟨_, position, hparam⟩

/-- The parameters of a definition are no parameters of a callable. -/
theorem CallableParams.not_mem_own (hs : s.Coherent) (hparams : s.CallableParams params)
    {definition param : Handle} {own : List Handle} (hd : s.Defines definition own)
    (hparam : param ∈ own) : param ∉ params := by
  intro hmem
  obtain ⟨id, position, hcalled⟩ := hparams param hmem
  obtain ⟨_, hown⟩ := hs.paramAt_of_mem hd hparam
  cases (hcalled.unique hown).1

variable {definition result' : Handle} {parts parts' : List Handle}

/-- The parameters of a definition stay. -/
theorem CallableParams.replaced_own (hs : s.Coherent) (hparams : s.CallableParams params)
    {own : List Handle} (hd : s.Defines definition own) (hmem : type ∈ own) :
    s.Replaced true params types type type := by
  obtain ⟨_, hparam⟩ := hs.paramAt_of_mem hd hmem
  obtain ⟨form, hform, hdef, harray⟩ := hparam.exists_form
  exact .leaf (hparams.not_mem_own hs hd hmem) hform harray (Or.inl hdef)

/-- What a definition is applied to is replaced argument by argument. -/
theorem Replaced.of_applies (hs : s.Coherent) (hparams : s.CallableParams params)
    (h : s.Replaced true params types type result) (happlies : s.Applies definition parts type) :
    ∃ parts', parts.length = parts'.length ∧
      (∀ (i : Nat) a b, parts[i]? = some a → parts'[i]? = some b →
        s.Replaced true params types a b) ∧ s.Applies definition parts' result := by
  obtain ⟨form, hform, hdef, rfl, harray⟩ := happlies.exists_form
  have hfree := hparams.parameters.not_mem hform (isParameter_of_definition? hdef)
  by_cases hself : definition = type
  · -- A bare definition is applied to its own parameters, which stay.
    subst hself
    obtain rfl := h.of_leaf hfree hform harray (Or.inr ⟨rfl, hdef⟩)
    refine ⟨form.arguments, rfl, fun i a b ha hb => ?_, happlies⟩
    obtain rfl : a = b := Option.some.inj (ha.symm.trans hb)
    obtain ⟨own, hd, -, ⟨hown, -⟩ | ⟨-, form', hform', hshape⟩⟩ := happlies
    · exact hparams.replaced_own hs hd (hown ▸ List.mem_of_getElem? ha)
    · exact absurd (hs.instantiation hform' hshape).2.1 (Nat.lt_irrefl _)
  · exact h.of_application hfree hform hdef fun _ => hself

/-- A definition applied to replaced arguments is the replaced type. -/
theorem replaced_applies (hs : s.Coherent) (hparams : s.CallableParams params)
    (h : s.Applies definition parts type) (h' : s.Applies definition parts' result)
    (hlength : parts.length = parts'.length)
    (hparts : ∀ (i : Nat) a b, parts[i]? = some a → parts'[i]? = some b →
      s.Replaced true params types a b) : s.Replaced true params types type result := by
  obtain ⟨form, hform, hdef, hargs, harray⟩ := h.exists_form
  have hfree := hparams.parameters.not_mem hform (isParameter_of_definition? hdef)
  by_cases hself : definition = type
  · subst hself
    obtain ⟨own, hd, -, ⟨rfl, -⟩ | ⟨-, form', hform', hshape⟩⟩ := id h
    · have hsame : own = parts' := eq_of_getElem? hlength fun i a b ha hb =>
        (hparams.replaced_own hs hd (List.mem_of_getElem? ha)).functional hs (hparts i a b ha hb)
      subst hsame
      obtain rfl := hs.applies_unique h h'
      exact .leaf hfree hform harray (Or.inr ⟨rfl, hdef⟩)
    · exact absurd (hs.instantiation hform' hshape).2.1 (Nat.lt_irrefl _)
  · subst hargs
    exact .application hfree hform hdef (fun _ => hself) hlength hparts h'

/-- Replacements compose: where the arguments of a definition are replaced by others, so is what they
are put into, unless that mentions the parameters itself. -/
theorem Replaced.comp (hs : s.Coherent) (hparams : s.CallableParams params) {own : List Handle}
    (hparts : ∀ (i : Nat) a b, parts[i]? = some a → parts'[i]? = some b →
      s.Replaced true params types a b)
    (hr : s.Replaced true own parts type result) (hr' : s.Replaced true own parts' type result')
    (havoids : s.Avoids params type) : s.Replaced true params types result result' := by
  induction hr generalizing result' with
  | bound hposition harg => exact hparts _ _ _ harg (hr'.of_bound hposition)
  | @application type definition result form inner hfree hform hdef hatomic hlen _ happlies ih =>
      obtain ⟨inner', hlen', hinner', happlies'⟩ := hr'.of_application hfree hform hdef hatomic
      refine replaced_applies hs hparams happlies happlies' (hlen.symm.trans hlen')
        fun i a b ha hb => ?_
      obtain ⟨c, hc⟩ := getElem?_of_length_eq hlen ha
      exact ih i c a hc ha (hinner' i c b hc hb) fun param hparam hmention => havoids param hparam
        (hmention.of_argument hform hdef (hatomic rfl) (List.mem_of_getElem? hc))
  | array hfree hform harray _ hresult ih =>
      obtain ⟨part', hpart', hresult'⟩ := hr'.of_array hfree hform harray
      exact hparams.parameters.replaced_isArray hresult hresult'
        (ih hpart' (havoids.element hform harray))
  | leaf hfree hform harray hdef =>
      obtain rfl := hr'.of_leaf hfree hform harray hdef
      exact replaced_of_avoids hs (form_lt hform) havoids

end Composition

section Links

variable {definition element : Handle} {rank : Nat} {base base' : Option Handle}
  {interfaces interfaces' : List Handle}

theorem Replaced.lt {atomic : Bool} {args : List Handle} (hargs : ∀ arg ∈ args, arg < s.size)
    (hr : s.Replaced atomic params args type result) : result < s.size := by
  cases hr with
  | bound _ harg => exact hargs result (List.mem_of_getElem? harg)
  | application _ _ _ _ _ _ happlies =>
      obtain ⟨form, hform, -⟩ := happlies.exists_form
      exact form_lt hform
  | array _ _ _ _ harray =>
      obtain ⟨form, hform, -⟩ := harray
      exact form_lt hform
  | leaf _ hform => exact form_lt hform

theorem exists_links (hlt : type < s.size) :
    ∃ base interfaces, s.links type = some (base, interfaces) := by
  obtain ⟨entry, hentry⟩ := entry_of_lt hlt
  exact ⟨_, _, links_of_entry hentry⟩

theorem WellFormed.links_lt (hs : s.WellFormed) (hl : s.links type = some (base, interfaces)) :
    ∀ super ∈ base.toList ++ interfaces, super < s.size := by
  obtain ⟨entry, hentry, heq⟩ := Option.map_eq_some_iff.mp hl
  cases heq
  intro super hsuper
  have hrange := hs.inRange.links hentry
  rcases List.mem_append.mp hsuper with hbase | hinterface
  · exact hrange.base super (Option.mem_toList.mp hbase)
  · exact hrange.directInterfaces super hinterface

/-- A type that is built from a definition has the supertypes of the definition with the arguments put
in. -/
theorem Settled.links_of_applies (hsettled : s.Settled) (hs : s.Lawful)
    (hfinished : s.finished = true) {own args : List Handle} (hd : s.Defines definition own)
    (happlies : s.Applies definition args type)
    (hdl : s.links definition = some (base, interfaces))
    (hl : s.links type = some (base', interfaces')) :
    List.Forall₂ (s.Replaced true own args) base.toList base'.toList ∧
      List.Forall₂ (s.Replaced true own args) interfaces interfaces' := by
  obtain ⟨own', hd', -, ⟨rfl, rfl⟩ | ⟨-, form, hform, hshape⟩⟩ := happlies
  · obtain rfl : own = own' := hd.unique hd'
    cases hdl.symm.trans hl
    have hself : ∀ super ∈ base.toList ++ interfaces, s.Replaced true own own super super :=
      fun super hsuper => replaced_own hs.wellFormed.coherent hd
        (hs.wellFormed.links_lt hdl super hsuper)
    exact ⟨List.forall₂_same.mpr fun super hsuper => hself super (List.mem_append_left _ hsuper),
      List.forall₂_same.mpr fun super hsuper => hself super (List.mem_append_right _ hsuper)⟩
  · obtain ⟨entry, hentry, rfl⟩ := form_eq_some.mp hform
    have hexpanded := (hs.finished hfinished).2 type (form_lt hform)
    have hnesting : entry.nesting ≤ maxInstantiationDepth := hsettled.shallow hentry
    exact (hexpanded _ base' interfaces' hform hl).1 definition args own base interfaces hshape
      hnesting hd hdl

theorem Lawful.base_of_isArray (hs : s.Lawful) (hfinished : s.finished = true)
    (harray : s.IsArray element rank type) (hl : s.links type = some (base, interfaces)) :
    base = some (s.arrayRoot.getD s.root) := by
  obtain ⟨form, hform, hshape⟩ := harray
  have hexpanded := (hs.finished hfinished).2 type (form_lt hform)
  exact (hexpanded form base interfaces hform hl).2 element rank hshape

/-- A type without parts is neither an instantiation nor an array. -/
theorem Coherent.not_interned (hs : s.Coherent) {form : Entry} (hform : s.form type = some form)
    (harray : form.array? = none)
    (hdef : form.definition? type = none ∨ form.definition? type = some type) :
    ¬ s.Interned type := by
  rintro ⟨form', hform', ⟨definition, args, hshape⟩ | ⟨element, rank, hshape⟩⟩
  · obtain rfl := Option.some.inj (hform.symm.trans hform')
    have hlt := (hs.instantiation hform hshape).2.1
    simp [Entry.definition?, hshape, Nat.ne_of_lt hlt] at hdef
  · obtain rfl := Option.some.inj (hform.symm.trans hform')
    simp [Entry.array?, hshape] at harray

end Links

/-- A finished store in which types can be put in for type parameters of a callable, and with complete
interface sets. -/
structure Specializes (store : Store) (params types : List Handle) : Prop where
  lawful : store.Lawful
  finished : store.finished = true
  settled : store.Settled
  parameters : store.CallableParams params
  isolates : store.Isolates params
  types : ∀ type ∈ types, type < store.size

namespace Specializes

variable {definition : Handle} {base base' : Option Handle} {interfaces interfaces' : List Handle}

theorem coherent (h : s.Specializes params types) : s.Coherent := h.lawful.wellFormed.coherent

theorem lt (h : s.Specializes params types) (hr : s.Replaced true params types type result) :
    result < s.size :=
  hr.lt h.types

theorem replaced_arrayRoot (h : s.Specializes params types) :
    s.Replaced true params types (s.arrayRoot.getD s.root) (s.arrayRoot.getD s.root) := by
  cases hroot : s.arrayRoot with
  | some root =>
      have hlt := h.lawful.wellFormed.inRange.arrayRoot root hroot
      exact replaced_of_avoids h.coherent hlt (h.isolates.arrayRoot root hroot)
  | none =>
      obtain ⟨form, hform, hshape⟩ := isNamed_root h.coherent
      refine replaced_refl h.coherent (form_lt hform) fun param hparam hmention => ?_
      obtain ⟨id, position, form', info, hform', hshape', -⟩ := h.parameters param hparam
      cases hmention with
      | self =>
          obtain rfl := Option.some.inj (hform.symm.trans hform')
          cases hshape.symm.trans hshape'
      | argument hform'' hshape'' =>
          obtain rfl := Option.some.inj (hform.symm.trans hform'')
          cases hshape.symm.trans hshape''
      | element hform'' hshape'' =>
          obtain rfl := Option.some.inj (hform.symm.trans hform'')
          cases hshape.symm.trans hshape''

/-- The direct supertypes of a type, specialized, are direct supertypes of the specialized type. An
array may declare interfaces that the arrays it is specialized from do not. -/
theorem links (h : s.Specializes params types) (hr : s.Replaced true params types type result)
    (hfree : type ∉ params) (hl : s.links type = some (base, interfaces))
    (hl' : s.links result = some (base', interfaces')) :
    (∀ x, base = some x → ∃ y, base' = some y ∧ s.Replaced true params types x y) ∧
      ∀ x ∈ interfaces, ∃ y ∈ interfaces', s.Replaced true params types x y := by
  have hreplaced := hr
  cases hr with
  | bound hposition => exact absurd (mem_of_idxOf?_eq_some hposition) hfree
  | @application _ definition _ form parts _ hform hdef hatomic hlength hparts happlies =>
      have hself := h.coherent.applies_of_form hform hdef
      obtain ⟨own, hd, -⟩ := id hself
      obtain ⟨dform, hdform, hdshape⟩ := id hd
      obtain ⟨declared, hdeclared, rfl⟩ := form_eq_some.mp hdform
      have hdl := links_of_entry hdeclared
      have hinterned : ¬ s.Interned definition := fun hi => hi.not_defines hd
      have havoids := h.isolates.declared _ _ _ hinterned hdl
      obtain ⟨hb, hi⟩ := h.settled.links_of_applies h.lawful h.finished hd hself hdl hl
      obtain ⟨hb', hi'⟩ := h.settled.links_of_applies h.lawful h.finished hd happlies hdl hl'
      have hcomp : ∀ super ∈ declared.base.toList ++ declared.directInterfaces, ∀ x y,
          s.Replaced true own form.arguments super x → s.Replaced true own parts super y →
            s.Replaced true params types x y := fun super hsuper x y hx hy =>
        hx.comp h.coherent h.parameters hparts hy (havoids super hsuper)
      exact exists_of_forall₂
        (forall₂_of_common hb hb' fun super hsuper => hcomp super (List.mem_append_left _ hsuper))
        (forall₂_of_common hi hi' fun super hsuper => hcomp super (List.mem_append_right _ hsuper))
  | @array _ element part _ form rank _ hform harray hpart hresult =>
      have hself := isArray_of_form hform harray
      rw [h.lawful.base_of_isArray h.finished hself hl,
        h.lawful.base_of_isArray h.finished hresult hl']
      refine ⟨fun x hx => ⟨_, rfl, Option.some.inj hx ▸ h.replaced_arrayRoot⟩, fun x hx => ?_⟩
      -- An array that declares interfaces mentions no parameter, so it stays as it is.
      obtain ⟨hstays, havoids⟩ := h.isolates.array _ _ _ _ _ hself hl x hx
      obtain rfl := hreplaced.eq_of_avoids h.coherent (form_lt hform) hstays
      cases hl.symm.trans hl'
      exact ⟨x, hx, replaced_of_avoids h.coherent
        (h.lawful.wellFormed.links_lt hl x (List.mem_append_right _ hx)) havoids⟩
  | @leaf _ form _ hform harray hdef =>
      cases hl.symm.trans hl'
      have hinterned := h.coherent.not_interned hform harray (hdef.imp_right And.right)
      have hstays : ∀ super ∈ base.toList ++ interfaces, s.Replaced true params types super super :=
        fun super hsuper => replaced_of_avoids h.coherent
          (h.lawful.wellFormed.links_lt hl super hsuper)
          (h.isolates.declared _ _ _ hinterned hl super hsuper)
      exact ⟨fun x hx => ⟨x, hx, hstays x (by simp [hx])⟩,
        fun x hx => ⟨x, hx, hstays x (List.mem_append_right _ hx)⟩⟩

theorem ascends (h : s.Specializes params types) : s.Ascends (s.Replaced true params types) := by
  intro a b base interfaces hr hl
  obtain ⟨base', interfaces', hl'⟩ := exists_links (h.lt hr)
  refine ⟨base', interfaces', hl', ?_⟩
  by_cases hmem : a ∈ params
  · -- A type parameter has no supertypes.
    cases hl.symm.trans (h.isolates.parameter a hmem)
    simp
  · exact h.links hr hmem hl hl'

/-- The supertypes of a template, specialized, are supertypes of the specialized template. -/
theorem supertype (h : s.Specializes params types) {super : Handle}
    (hsuper : s.Supertype type super) (hlt : type < s.size)
    (hr : s.Replaced true params types type result) :
    ∃ super', s.Replaced true params types super super' ∧ s.Supertype result super' :=
  h.ascends.supertype h.lawful h.settled hsuper hlt (h.lt hr) hr

end Specializes

section Checks

/-- Whether the interface sets are complete. -/
def isSettled (store : Store) : Bool :=
  store.types.toList.all fun entry =>
    entry.closed && decide (entry.nesting ≤ maxInstantiationDepth) &&
      entry.directInterfaces.all (entry.interfaces.contains ·) &&
      (entry.base.toList ++ entry.directInterfaces).all fun super =>
        (store.types[super]?.toList.flatMap (·.interfaces)).all (entry.interfaces.contains ·)

theorem settled_of_isSettled (h : s.isSettled = true) : s.Settled := by
  simp only [isSettled, List.all_eq_true, Bool.and_eq_true, decide_eq_true_eq,
    List.contains_iff_mem, List.mem_flatMap, Option.mem_toList, forall_exists_index,
    and_imp] at h
  have hentry : ∀ {type : Handle} {entry}, s.types[type]? = some entry →
      entry ∈ s.types.toList := fun hentry => Array.mem_toList_iff.mpr (Array.mem_of_getElem? hentry)
  refine ⟨fun he => (h _ (hentry he)).1.1.1, fun he => (h _ (hentry he)).1.1.2,
    fun he => (h _ (hentry he)).1.2, ?_, ?_⟩
  · intro type entry he interface entry' hmem he' super hsuper
    exact (h _ (hentry he)).2 interface (List.mem_append_right _ hmem) super entry' he' hsuper
  · intro type entry he base entry' hbase he' super hsuper
    exact (h _ (hentry he)).2 base (by simp [hbase]) super entry' he' hsuper

/-- Whether the type mentions none of the parameters. -/
def avoids (store : Store) (params : List Handle) (type : Handle) : Bool :=
  params.all fun param => !store.mentionsPart param type

theorem avoids_iff (hs : s.Coherent) : s.avoids params type = true ↔ s.Avoids params type := by
  simp only [avoids, List.all_eq_true, Bool.not_eq_true', Avoids,
    ← Bool.not_eq_true, mentionsPart, mentionsPartWithin_iff hs (Nat.lt_succ_self type)]

/-- Whether the declarations of the store do not involve the type parameters. -/
def isolates (store : Store) (params : List Handle) : Bool :=
  params.all (fun param => store.links param == some (none, [])) &&
    store.types.toList.zipIdx.all (fun (entry, type) =>
      match entry.shape with
      | .instantiation _ _ => true
      | .array _ _ => entry.directInterfaces.all fun interface =>
          store.avoids params type && store.avoids params interface
      | _ => (entry.base.toList ++ entry.directInterfaces).all (store.avoids params)) &&
    store.arrayRoot.toList.all (store.avoids params)

theorem isolates_of_check (hs : s.Coherent) (h : s.isolates params = true) : s.Isolates params := by
  simp only [isolates, Bool.and_eq_true, List.all_eq_true, beq_iff_eq, Option.mem_toList] at h
  obtain ⟨⟨hparams, hentries⟩, harrayRoot⟩ := h
  have hlinks : ∀ {type base interfaces}, s.links type = some (base, interfaces) →
      ∃ entry, (entry, type) ∈ s.types.toList.zipIdx ∧ s.form type = some entry.form ∧
        entry.base = base ∧ entry.directInterfaces = interfaces := by
    intro type base interfaces hl
    obtain ⟨entry, hentry, heq⟩ := Option.map_eq_some_iff.mp hl
    obtain ⟨hbase, hdirect⟩ := Prod.mk.inj heq
    have hmem : (entry, type) ∈ s.types.toList.zipIdx := by
      rw [List.mem_zipIdx_iff_getElem?, Array.getElem?_toList]
      exact hentry
    exact ⟨entry, hmem, form_of_entry hentry, hbase, hdirect⟩
  refine ⟨hparams, ?_, ?_, fun root hroot => (avoids_iff hs).mp (harrayRoot root hroot)⟩
  · intro type base interfaces hinterned hl super hsuper
    obtain ⟨entry, hmem, hform, rfl, rfl⟩ := hlinks hl
    have hentry := hentries _ hmem
    cases hshape : entry.shape with
    | instantiation definition args =>
        exact absurd ⟨_, hform, Or.inl ⟨definition, args, by rw [Entry.form, hshape]; rfl⟩⟩ hinterned
    | array element rank =>
        exact absurd ⟨_, hform, Or.inr ⟨element, rank, by rw [Entry.form, hshape]; rfl⟩⟩ hinterned
    | _ =>
        simp only [hshape, List.all_eq_true] at hentry
        exact (avoids_iff hs).mp (hentry super hsuper)
  · intro type element rank base interfaces harray hl interface hinterface
    obtain ⟨entry, hmem, hform, rfl, rfl⟩ := hlinks hl
    obtain ⟨form, hform', hshape⟩ := harray
    obtain rfl := Option.some.inj (hform.symm.trans hform')
    have hentry := hentries _ hmem
    have hown : ∃ element rank, entry.shape = .array element rank := by
      rw [Entry.form] at hshape
      cases hown : entry.shape <;> simp [hown, Shape.bare] at hshape
      exact ⟨_, _, rfl⟩
    obtain ⟨_, _, hown⟩ := hown
    simp only [hown, List.all_eq_true, Bool.and_eq_true, avoids_iff hs] at hentry
    exact hentry interface hinterface

/-- Whether putting arguments in for parameters turns the one type into the other, found by walking
both to a given height. -/
def replacesWithin (store : Store) (atomic : Bool) (params args : List Handle) :
    Nat → Handle → Handle → Bool
  | 0, _, _ => false
  | height + 1, type, result =>
      match params.idxOf? type, store.form type, store.form result with
      | some position, _, _ => args[position]? == some result
      | none, some form, some form' =>
          match form.definition? type, form.array? with
          | some definition, none =>
              if atomic && definition == type then
                type == result
              else
                form'.definition? result == some definition &&
                  form.arguments.length == form'.arguments.length &&
                  (form.arguments.zip form'.arguments).all fun (part, part') =>
                    replacesWithin store atomic params args height part part'
          | none, some (element, rank) =>
              match form'.array? with
              | some (element', rank') =>
                  rank == rank' && replacesWithin store atomic params args height element element'
              | none => false
          | none, none => type == result
          | some _, some _ => false
      | none, _, _ => false

theorem replaced_of_check (hs : s.Coherent) {atomic : Bool} {height : Nat}
    (h : s.replacesWithin atomic params types height type result = true) :
    s.Replaced atomic params types type result := by
  induction height generalizing type result with
  | zero => cases h
  | succ height ih =>
      rw [replacesWithin] at h
      split at h
      · next hposition => exact .bound hposition (by simpa using h)
      · next form form' hposition hform hform' =>
          have hfree : type ∉ params := by rwa [List.idxOf?_eq_none_iff] at hposition
          split at h
          · next definition hdefinition harray =>
              split at h
              · next hbare =>
                  obtain ⟨hatomic, rfl⟩ : atomic = true ∧ definition = type := by simpa using hbare
                  obtain rfl := beq_iff_eq.mp h
                  exact .leaf hfree hform harray (Or.inr ⟨hatomic, hdefinition⟩)
              · next hbare =>
                  simp only [Bool.and_eq_true, beq_iff_eq, List.all_eq_true, not_and] at h hbare
                  obtain ⟨⟨hdefinition', hlength⟩, hall⟩ := h
                  refine .application hfree hform hdefinition hbare hlength
                    (fun i part part' hpart hpart' => ih (hall (part, part') ?_))
                    (hs.applies_of_form hform' hdefinition')
                  exact List.mem_of_getElem? (List.getElem?_zip_eq_some.mpr ⟨hpart, hpart'⟩)
          · next element rank hdefinition harray =>
              split at h
              · next element' rank' harray' =>
                  simp only [Bool.and_eq_true, beq_iff_eq] at h
                  obtain ⟨rfl, helement⟩ := h
                  exact .array hfree hform harray (ih helement) (isArray_of_form hform' harray')
              · cases h
          · next hdefinition harray =>
              obtain rfl := beq_iff_eq.mp h
              exact .leaf hfree hform harray (Or.inl hdefinition)
          · cases h
      · cases h

end Checks

end NominalGenerics.Store
