import NominalGenerics.Proofs.Specialization

/-!
# Interpretation of parameters by types

A substitution stands for the types that arise when types are put in for the parameters that it binds,
where a definition that stands for itself is applied to its own parameters. `Interprets` is a store in
which this commutes with taking supertypes: what a template inherits is, after putting in the types,
what the resulting type inherits, and the other way round.

The conditions are about declarations. A supertype that mentions a definition with bound parameters
bare is kept as it is when an instantiation is expanded, and a supertype that is itself a parameter
has none of the supertypes of the type bound to it.
-/

namespace NominalGenerics.Store

variable {s : Store} {params args : List Handle} {type result : Handle}

/-- What is built from a definition is no parameter. -/
theorem Applies.proper {definition : Handle} {parts : List Handle}
    (h : s.Applies definition parts type) :
    ∃ form, s.form type = some form ∧ form.isParameter = false := by
  obtain ⟨form, hform, hdef, -⟩ := h.exists_form
  exact ⟨form, hform, isParameter_of_definition? hdef⟩

theorem IsArray.proper {element : Handle} {rank : Nat} (h : s.IsArray element rank type) :
    ∃ form, s.form type = some form ∧ form.isParameter = false := by
  obtain ⟨form, hform, hshape⟩ := h
  exact ⟨form, hform, by simp [Entry.isParameter, hshape]⟩

/-- A parameter is open. -/
theorem ParamAt.not_closed {owner : ParamOwner} {position : Nat} {form : Entry}
    (h : s.ParamAt type owner position) (hs : s.Coherent) (hform : s.form type = some form) :
    form.isOpen ≠ false := by
  intro hclosed
  have hopen := h.isOpen hs
  rw [isOpen_of_form hform, hclosed] at hopen
  cases hopen

theorem param?_of_proper (h : ∃ form, s.form type = some form ∧ form.isParameter = false) :
    s.param? type = .ok none := by
  obtain ⟨form, hform, hparameter⟩ := h
  obtain ⟨entry, hentry, rfl⟩ := form_eq_some.mp hform
  rw [Entry.form_isParameter] at hparameter
  rw [param?, query_of_entry hentry (·.param?), Except.ok.injEq]
  cases hshape : entry.shape <;> simp [Entry.isParameter, Entry.param?, hshape] at hparameter ⊢

/-- A parameter is replaced by the argument at its place. -/
theorem Replaced.of_mem (hr : s.Replaced false params args type result) (hmem : type ∈ params) :
    ∃ i : Nat, params[i]? = some type ∧ args[i]? = some result := by
  cases hr with
  | @bound _ _ i hposition harg =>
      obtain ⟨hlt, heq, -⟩ := List.idxOf?_eq_some_iff.mp hposition
      exact ⟨i, by rw [List.getElem?_eq_getElem hlt, heq], harg⟩
  | application hfree => exact absurd hmem hfree
  | array hfree => exact absurd hmem hfree
  | leaf hfree => exact absurd hmem hfree

namespace Parameters

variable {form : Entry}

theorem replaced_applies (h : s.Parameters params) {definition : Handle} {parts parts' : List Handle}
    (ha : s.Applies definition parts type) (hb : s.Applies definition parts' result)
    (hparts : List.Forall₂ (s.Replaced false params args) parts parts') :
    s.Replaced false params args type result := by
  obtain ⟨form, hform, hdef, rfl, -⟩ := ha.exists_form
  obtain ⟨hlength, hparts⟩ := forall₂_iff_getElem?.mp hparts
  exact .application (h.not_mem_of_applies ha) hform hdef (by simp) hlength hparts hb

/-- A closed type mentions no parameter, neither directly nor through a definition that stands for
itself, so it stays. -/
theorem replaced_closed (h : s.Parameters params) (hs : s.Coherent)
    (hform : s.form type = some form) (hclosed : form.isOpen = false) :
    s.Replaced false params args type type := by
  have hopen : ∀ param ∈ params, ∀ pform, s.form param = some pform → pform.isOpen = true := by
    intro param hparam pform hpform
    obtain ⟨owner, position, hat⟩ := h param hparam
    simpa using hat.not_closed hs hpform
  have havoids : s.Avoids params type := by
    intro param hparam hmention
    obtain ⟨pform, hpform, hpclosed⟩ := hmention.closed hs hform hclosed
    rw [hopen param hparam pform hpform] at hpclosed
    cases hpclosed
  refine (replaced_of_avoids hs (form_lt hform) havoids).everywhere_of_bareAvoids hs ?_
  rintro definition own ⟨dform, hdform, hdshape⟩ hmention param hown hparam
  obtain ⟨dform', hdform', hdclosed⟩ := hmention.closed hs hform hclosed
  obtain rfl := Option.some.inj (hdform.symm.trans hdform')
  obtain ⟨pform, hpform, hpclosed⟩ :=
    hs.argument hdform (by simpa [Entry.arguments, hdshape] using hown)
  rw [hopen param hparam pform hpform] at hpclosed
  cases (hpclosed hdclosed).1

theorem eq_of_closed (h : s.Parameters params) (hs : s.Coherent)
    (hr : s.Replaced false params args type result) (hform : s.form type = some form)
    (hclosed : form.isOpen = false) : result = type :=
  hr.functional hs (h.replaced_closed hs hform hclosed)

end Parameters

/-- Types to put in for type parameters. None of them is a parameter of a definition. -/
structure Assigns (store : Store) (params args : List Handle) : Prop where
  parameter : ∀ param ∈ params, ∃ owner position, store.ParamAt param owner position
  length : params.length = args.length
  inRange : ∀ arg ∈ args, arg < store.size
  free : ∀ arg ∈ args, ∀ definition position, ¬ store.ParamAt arg (.type definition) position

namespace Assigns

variable {form : Entry}

theorem parameters (h : s.Assigns params args) : s.Parameters params := h.parameter

theorem lt (h : s.Assigns params args) (hr : s.Replaced false params args type result) :
    result < s.size :=
  hr.lt h.inRange

theorem source_lt (h : s.Assigns params args) (hr : s.Replaced false params args type result) :
    type < s.size := by
  cases hr with
  | bound hposition =>
      obtain ⟨_, _, form, _, hform, -⟩ := h.parameter type (mem_of_idxOf?_eq_some hposition)
      exact form_lt hform
  | application _ hform => exact form_lt hform
  | array _ hform => exact form_lt hform
  | leaf _ hform => exact form_lt hform

end Assigns

/-- Types of one build: one definition applied to related arguments, arrays of one rank with related
elements, or the same type without parts. -/
inductive Alike (store : Store) (ρ : Handle → Handle → Prop) : Handle → Handle → Prop
  | application {a b definition : Handle} {parts parts' : List Handle}
      (ha : store.Applies definition parts a) (hb : store.Applies definition parts' b)
      (hparts : List.Forall₂ ρ parts parts') : Alike store ρ a b
  | array {a b element element' : Handle} {rank : Nat} (ha : store.IsArray element rank a)
      (hb : store.IsArray element' rank b) (helement : ρ element element') : Alike store ρ a b
  | leaf {a : Handle} {form : Entry} (hform : store.form a = some form)
      (hdefinition : form.definition? a = none) (harray : form.array? = none) : Alike store ρ a a

theorem Alike.flip {ρ : Handle → Handle → Prop} {a b : Handle} (h : s.Alike ρ a b) :
    s.Alike (fun x y => ρ y x) b a := by
  cases h with
  | application ha hb hparts => exact .application hb ha hparts.flip
  | array ha hb helement => exact .array hb ha helement
  | leaf hform hdefinition harray => exact .leaf hform hdefinition harray

/-- What is put together from replaced parts is alike, unless it is a parameter that is replaced. -/
theorem Replaced.alike (hs : s.Coherent) (hr : s.Replaced false params args type result)
    (hfree : type ∉ params) : s.Alike (s.Replaced false params args) type result := by
  cases hr with
  | bound hposition => exact absurd (mem_of_idxOf?_eq_some hposition) hfree
  | application _ hform hdef _ hlength hparts happlies =>
      exact .application (hs.applies_of_form hform hdef) happlies
        (forall₂_iff_getElem?.mpr ⟨hlength, hparts⟩)
  | array _ hform harray hpart hresult => exact .array (isArray_of_form hform harray) hresult hpart
  | leaf _ hform harray hdef =>
      exact .leaf hform (hdef.resolve_right (by simp)) harray

section Composition

variable {definition element element' : Handle} {parts parts' : List Handle} {rank : Nat}
  {result' : Handle}

/-- Putting arguments in for the own parameters of a definition commutes with interpreting the
arguments, unless the type mentions other interpreted parameters, or bare definitions that have
some. -/
theorem Replaced.interpret (hs : s.Coherent) (h : s.Assigns params args) {own : List Handle}
    (hparts : List.Forall₂ (s.Replaced false params args) parts parts')
    (hr : s.Replaced true own parts type result) (hr' : s.Replaced true own parts' type result')
    (hown : ∀ param ∈ params, s.Mentions param type → param ∈ own)
    (hbare : s.BareAvoids params type) : s.Replaced false params args result result' := by
  induction hr generalizing result' with
  | bound hposition harg =>
      exact (forall₂_iff_getElem?.mp hparts).2 _ _ _ harg (hr'.of_bound hposition)
  | @application type definition result form inner hfree hform hdef hatomic hlen _ happlies ih =>
      obtain ⟨inner', hlen', hinner', happlies'⟩ := hr'.of_application hfree hform hdef hatomic
      refine h.parameters.replaced_applies happlies happlies'
        (forall₂_iff_getElem?.mpr ⟨hlen.symm.trans hlen', fun i a b ha hb => ?_⟩)
      obtain ⟨c, hc⟩ := getElem?_of_length_eq hlen ha
      have hmem := List.mem_of_getElem? hc
      exact ih i c a hc ha (hinner' i c b hc hb)
        (fun param hparam hmention =>
          hown param hparam (hmention.of_argument hform hdef (hatomic rfl) hmem))
        (hbare.argument hform hdef (hatomic rfl) hmem)
  | array hfree hform harray _ hresult ih =>
      obtain ⟨part', hpart', hresult'⟩ := hr'.of_array hfree hform harray
      refine h.parameters.replaced_isArray hresult hresult' (ih hpart'
        (fun param hparam hmention => ?_) (hbare.element hform harray))
      obtain ⟨form', hform', hshape⟩ := isArray_of_form hform harray
      exact hown param hparam (.element hform' hshape hmention)
  | leaf hfree hform harray hdef =>
      obtain rfl := hr'.of_leaf hfree hform harray hdef
      have hself := fun hmem => hfree (hown _ hmem .self)
      refine Replaced.everywhere_of_bareAvoids hs (.leaf hself hform harray hdef) hbare

end Composition

/-- The declarations of the store leave the parameters to the definitions that have them: a declared
supertype mentions only own parameters of the declaration, mentions no definition bare that has some
of the parameters, and is no parameter itself. Arrays have no supertypes of their own. -/
structure Delimits (store : Store) (params : List Handle) : Prop where
  own : ∀ type base interfaces, ¬ store.Interned type → store.links type = some (base, interfaces) →
    ∀ super ∈ base.toList ++ interfaces, ∀ param ∈ params, store.Mentions param super →
      ∃ own, store.Defines type own ∧ param ∈ own
  bare : ∀ type base interfaces, ¬ store.Interned type → store.links type = some (base, interfaces) →
    ∀ super ∈ base.toList ++ interfaces, store.BareAvoids params super
  proper : ∀ type base interfaces, ¬ store.Interned type →
    store.links type = some (base, interfaces) → ∀ super ∈ base.toList ++ interfaces,
      ∀ owner position, ¬ store.ParamAt super owner position
  array : ∀ type element rank base interfaces, store.IsArray element rank type →
    store.links type = some (base, interfaces) → interfaces = []
  arrayRoot : ∀ root, store.arrayRoot = some root →
    store.Avoids params root ∧ store.BareAvoids params root

/-- A finished store with complete interface sets in which types interpret the parameters. -/
structure Interprets (store : Store) (params args : List Handle) : Prop where
  lawful : store.Lawful
  finished : store.finished = true
  settled : store.Settled
  assigns : store.Assigns params args
  delimits : store.Delimits params

namespace Interprets

variable {base base' : Option Handle} {interfaces interfaces' : List Handle}

theorem coherent (h : s.Interprets params args) : s.Coherent := h.lawful.wellFormed.coherent

theorem replaced_arrayRoot (h : s.Interprets params args) :
    s.Replaced false params args (s.arrayRoot.getD s.root) (s.arrayRoot.getD s.root) := by
  cases hroot : s.arrayRoot with
  | some root =>
      obtain ⟨havoids, hbare⟩ := h.delimits.arrayRoot root hroot
      have hlt := h.lawful.wellFormed.inRange.arrayRoot root hroot
      exact (replaced_of_avoids h.coherent hlt havoids).everywhere_of_bareAvoids h.coherent hbare
  | none =>
      obtain ⟨form, hform, hshape⟩ := isNamed_root h.coherent
      exact h.assigns.parameters.replaced_closed h.coherent hform (h.coherent.named hform hshape).1

/-- The direct supertypes of an interpreted type are the interpreted direct supertypes. -/
theorem links (h : s.Interprets params args) (hr : s.Replaced false params args type result)
    (hfree : type ∉ params) (hl : s.links type = some (base, interfaces))
    (hl' : s.links result = some (base', interfaces')) :
    List.Forall₂ (s.Replaced false params args) base.toList base'.toList ∧
      List.Forall₂ (s.Replaced false params args) interfaces interfaces' := by
  cases hr.alike h.coherent hfree with
  | @application _ definition parts parts' ha hb hparts =>
      obtain ⟨own, hd, -⟩ := id ha
      obtain ⟨dform, hdform, hdshape⟩ := id hd
      obtain ⟨declared, hdeclared, rfl⟩ := form_eq_some.mp hdform
      have hdl := links_of_entry hdeclared
      have hinterned : ¬ s.Interned definition := fun hi => hi.not_defines hd
      have hown : ∀ super ∈ declared.base.toList ++ declared.directInterfaces, ∀ param ∈ params,
          s.Mentions param super → param ∈ own := by
        intro super hsuper param hparam hmention
        obtain ⟨own', hd', hmem⟩ :=
          h.delimits.own _ _ _ hinterned hdl super hsuper param hparam hmention
        exact hd.unique hd' ▸ hmem
      have hcomp : ∀ super ∈ declared.base.toList ++ declared.directInterfaces, ∀ x y,
          s.Replaced true own parts super x → s.Replaced true own parts' super y →
            s.Replaced false params args x y := fun super hsuper x y hx hy =>
        hx.interpret h.coherent h.assigns hparts hy (hown super hsuper)
          (h.delimits.bare _ _ _ hinterned hdl super hsuper)
      obtain ⟨hx, hi⟩ := h.settled.links_of_applies h.lawful h.finished hd ha hdl hl
      obtain ⟨hx', hi'⟩ := h.settled.links_of_applies h.lawful h.finished hd hb hdl hl'
      exact ⟨forall₂_of_common hx hx' fun super hsuper => hcomp super (List.mem_append_left _ hsuper),
        forall₂_of_common hi hi' fun super hsuper => hcomp super (List.mem_append_right _ hsuper)⟩
  | array ha hb =>
      obtain rfl := h.delimits.array _ _ _ _ _ ha hl
      obtain rfl := h.delimits.array _ _ _ _ _ hb hl'
      rw [h.lawful.base_of_isArray h.finished ha hl, h.lawful.base_of_isArray h.finished hb hl']
      exact ⟨.cons h.replaced_arrayRoot .nil, .nil⟩
  | leaf hform hdef harray =>
      cases hl.symm.trans hl'
      have hinterned := h.coherent.not_interned hform harray (Or.inl hdef)
      have hself : ∀ super ∈ base.toList ++ interfaces, s.Replaced false params args super super := by
        intro super hsuper
        have havoids : s.Avoids params super := by
          intro param hparam hmention
          obtain ⟨own, ⟨dform, hdform, hdshape⟩, -⟩ :=
            h.delimits.own _ _ _ hinterned hl super hsuper param hparam hmention
          obtain rfl := Option.some.inj (hform.symm.trans hdform)
          simp [Entry.definition?, hdshape] at hdef
        exact (replaced_of_avoids h.coherent (h.lawful.wellFormed.links_lt hl super hsuper)
          havoids).everywhere_of_bareAvoids h.coherent
            (h.delimits.bare _ _ _ hinterned hl super hsuper)
      exact ⟨List.forall₂_same.mpr fun super hsuper => hself super (List.mem_append_left _ hsuper),
        List.forall₂_same.mpr fun super hsuper => hself super (List.mem_append_right _ hsuper)⟩

/-- No direct supertype is a parameter. -/
theorem not_mem_of_links (h : s.Interprets params args)
    (hl : s.links type = some (base, interfaces)) :
    ∀ super ∈ base.toList ++ interfaces, super ∉ params := by
  have hs := h.coherent
  by_cases hinterned : s.Interned type
  · obtain ⟨form', hform', ⟨definition, parts, hshape⟩ | ⟨element, rank, hshape⟩⟩ := hinterned
    · -- The supertypes of an instantiation come from supertypes of its definition.
      have happlies := hs.applies_self hform' hshape
      obtain ⟨own, hd, -⟩ := id happlies
      obtain ⟨dform, hdform, -⟩ := id hd
      obtain ⟨declared, hdeclared, rfl⟩ := form_eq_some.mp hdform
      have hdl := links_of_entry hdeclared
      have hnot : ¬ s.Interned definition := fun hi => hi.not_defines hd
      obtain ⟨hx, hi⟩ := h.settled.links_of_applies h.lawful h.finished hd happlies hdl hl
      have hreplaced : ∀ super ∈ base.toList ++ interfaces,
          ∃ origin ∈ declared.base.toList ++ declared.directInterfaces,
            s.Replaced true own parts origin super := by
        intro super hsuper
        rcases List.mem_append.mp hsuper with hmem | hmem
        · obtain ⟨origin, horigin, hr⟩ := mem_of_forall₂ hx.flip hmem
          exact ⟨origin, List.mem_append_left _ horigin, hr⟩
        · obtain ⟨origin, horigin, hr⟩ := mem_of_forall₂ hi.flip hmem
          exact ⟨origin, List.mem_append_right _ horigin, hr⟩
      intro super hsuper hmem
      obtain ⟨origin, horigin, hr⟩ := hreplaced super hsuper
      have hproper := h.delimits.proper _ _ _ hnot hdl origin horigin
      cases hr with
      | bound hposition =>
          obtain ⟨i, hi⟩ := List.getElem?_of_mem (mem_of_idxOf?_eq_some hposition)
          obtain ⟨dform, hdform, hdshape⟩ := hd
          exact hproper _ _ (hs.paramAt hdform hdshape hi)
      | application _ _ _ _ _ _ hresult => exact h.assigns.parameters.not_mem_of_applies hresult hmem
      | array _ _ _ _ hresult => exact h.assigns.parameters.not_mem_of_isArray hresult hmem
      | leaf =>
          obtain ⟨owner, position, hparam⟩ := h.assigns.parameter super hmem
          exact hproper owner position hparam
    · have harray : s.IsArray element rank type := ⟨form', hform', hshape⟩
      obtain rfl := h.delimits.array _ _ _ _ _ harray hl
      rw [h.lawful.base_of_isArray h.finished harray hl]
      intro super hsuper hmem
      obtain rfl : super = s.arrayRoot.getD s.root := by simpa using hsuper
      cases hroot : s.arrayRoot with
      | some root =>
          rw [hroot, Option.getD_some] at hmem
          exact (h.delimits.arrayRoot root hroot).1 root hmem .self
      | none =>
          obtain ⟨rform, hrform, hrshape⟩ := isNamed_root hs
          rw [hroot, Option.getD_none] at hmem
          exact h.assigns.parameters.not_mem hrform (by simp [Entry.isParameter, hrshape]) hmem
  · intro super hsuper hmem
    obtain ⟨owner, position, hparam⟩ := h.assigns.parameter super hmem
    exact h.delimits.proper _ _ _ hinterned hl super hsuper owner position hparam

/-- A type that is no interpreted parameter, and its interpretation. -/
def Pair (store : Store) (params args : List Handle) (a b : Handle) : Prop :=
  a ∉ params ∧ store.Replaced false params args a b

/-- The supertypes of a template, interpreted, are supertypes of its interpretation. -/
theorem ascends (h : s.Interprets params args) : s.Ascends (Pair s params args) := by
  rintro a b base interfaces ⟨hfree, hr⟩ hl
  obtain ⟨base', interfaces', hl'⟩ := exists_links (h.assigns.lt hr)
  obtain ⟨hbase, hinterfaces⟩ := h.links hr hfree hl hl'
  obtain ⟨hbase, hinterfaces⟩ := exists_of_forall₂ hbase hinterfaces
  have hproper := h.not_mem_of_links hl
  refine ⟨base', interfaces', hl', ?_, fun x hx => ?_⟩
  · rintro x rfl
    obtain ⟨y, hy, hxy⟩ := hbase x rfl
    exact ⟨y, hy, hproper x (by simp), hxy⟩
  · obtain ⟨y, hy, hxy⟩ := hinterfaces x hx
    exact ⟨y, hy, hproper x (List.mem_append_right _ hx), hxy⟩

/-- The supertypes of an interpretation are interpretations of supertypes of the template. -/
theorem descends (h : s.Interprets params args) : s.Ascends fun b a => Pair s params args a b := by
  rintro b a base' interfaces' ⟨hfree, hr⟩ hl'
  obtain ⟨base, interfaces, hl⟩ := exists_links (h.assigns.source_lt hr)
  obtain ⟨hbase, hinterfaces⟩ := h.links hr hfree hl hl'
  obtain ⟨hbase, hinterfaces⟩ := exists_of_forall₂ hbase.flip hinterfaces.flip
  have hproper := h.not_mem_of_links hl
  refine ⟨base, interfaces, hl, ?_, fun y hy => ?_⟩
  · rintro y rfl
    obtain ⟨x, rfl, hxy⟩ := hbase y rfl
    exact ⟨x, rfl, hproper x (by simp), hxy⟩
  · obtain ⟨x, hx, hxy⟩ := hinterfaces y hy
    exact ⟨x, hx, hproper x (List.mem_append_right _ hx), hxy⟩

end Interprets

section Checks

/-- The type parameters of a definition. -/
def ownParams (store : Store) (type : Handle) : List Handle :=
  match (store.form type).map Entry.shape with
  | some (.definition own) => own
  | _ => []

theorem mem_ownParams {param : Handle} :
    param ∈ s.ownParams type ↔ ∃ own, s.Defines type own ∧ param ∈ own := by
  rw [ownParams]
  split
  · next own hown =>
      obtain ⟨form, hform, hshape⟩ := Option.map_eq_some_iff.mp hown
      refine ⟨fun hmem => ⟨own, ⟨form, hform, hshape⟩, hmem⟩, ?_⟩
      rintro ⟨own', hd, hmem⟩
      exact Defines.unique hd ⟨form, hform, hshape⟩ ▸ hmem
  · next hother =>
      refine ⟨fun hmem => absurd hmem List.not_mem_nil, ?_⟩
      rintro ⟨own, ⟨form, hform, hshape⟩, -⟩
      exact absurd (by rw [hform, Option.map_some, hshape]) (hother own)

/-- Whether the definitions that stand for themselves in the type have no parameter among
`params`. -/
def bareAvoids (store : Store) (params : List Handle) (type : Handle) : Bool :=
  (List.range store.size).all fun definition =>
    !store.mentionsPart definition type ||
      (store.ownParams definition).all (!params.contains ·)

theorem bareAvoids_of_check (hs : s.Coherent) (h : s.bareAvoids params type = true) :
    s.BareAvoids params type := by
  rintro definition own hd hmention param hparam hmem
  have hlt : definition < s.size := by
    obtain ⟨form, hform, -⟩ := hd
    exact form_lt hform
  have hcheck := List.all_eq_true.mp h definition (List.mem_range.mpr hlt)
  rw [Bool.or_eq_true, Bool.not_eq_true', ← Bool.not_eq_true, mentionsPart,
    mentionsPartWithin_iff hs (Nat.lt_succ_self type)] at hcheck
  have hall := hcheck.resolve_left (absurd hmention)
  have hfree := List.all_eq_true.mp hall param (mem_ownParams.mpr ⟨own, hd, hparam⟩)
  rw [List.contains_iff_mem.mpr hmem] at hfree
  cases hfree

/-- Whether a declared supertype of `type` leaves the parameters to the definitions that have them. -/
def delimitsSuper (store : Store) (params : List Handle) (type super : Handle) : Bool :=
  params.all (fun param =>
      !store.mentionsPart param super || (store.ownParams type).contains param) &&
    store.bareAvoids params super && !(store.form super).any (·.isParameter)

/-- Whether the declarations of the store leave the parameters to the definitions that have them. -/
def delimits (store : Store) (params : List Handle) : Bool :=
  (List.range store.size).all (fun type =>
      match store.types[type]? with
      | some entry =>
          match entry.shape with
          | .instantiation _ _ => true
          | .array _ _ => entry.directInterfaces.isEmpty
          | _ => (entry.base.toList ++ entry.directInterfaces).all (store.delimitsSuper params type)
      | none => true) &&
    store.arrayRoot.toList.all fun root => store.avoids params root && store.bareAvoids params root

theorem delimits_of_check (hs : s.Coherent) (h : s.delimits params = true) : s.Delimits params := by
  rw [delimits, Bool.and_eq_true] at h
  obtain ⟨htypes, hroot⟩ := h
  have hlinks : ∀ {type base interfaces}, s.links type = some (base, interfaces) →
      ∃ entry, s.types[type]? = some entry ∧ entry.base = base ∧
        entry.directInterfaces = interfaces ∧ type ∈ List.range s.size := by
    intro type base interfaces hl
    obtain ⟨entry, hentry, heq⟩ := Option.map_eq_some_iff.mp hl
    obtain ⟨hbase, hinterfaces⟩ := Prod.mk.inj heq
    exact ⟨entry, hentry, hbase, hinterfaces,
      List.mem_range.mpr (Array.getElem?_eq_some_iff.mp hentry).choose⟩
  have hsuper : ∀ {type base interfaces}, ¬ s.Interned type →
      s.links type = some (base, interfaces) → ∀ super ∈ base.toList ++ interfaces,
        s.delimitsSuper params type super = true := by
    intro type base interfaces hinterned hl super hsuper
    obtain ⟨entry, hentry, rfl, rfl, hmem⟩ := hlinks hl
    have hform : s.form type = some entry.form := form_of_entry hentry
    have hcheck := List.all_eq_true.mp htypes type hmem
    rw [hentry] at hcheck
    dsimp only at hcheck
    split at hcheck
    · next definition args hshape =>
        exact absurd ⟨_, hform, Or.inl ⟨definition, args, by simp [hshape]⟩⟩ hinterned
    · next element rank hshape =>
        exact absurd ⟨_, hform, Or.inr ⟨element, rank, by simp [hshape]⟩⟩ hinterned
    · exact List.all_eq_true.mp hcheck super hsuper
  simp only [delimitsSuper, Bool.and_eq_true, Bool.not_eq_true'] at hsuper
  refine ⟨?_, ?_, ?_, ?_, ?_⟩
  · intro type base interfaces hinterned hl super hmem param hparam hmention
    have hcheck := List.all_eq_true.mp (hsuper hinterned hl super hmem).1.1 param hparam
    rw [Bool.or_eq_true, Bool.not_eq_true', ← Bool.not_eq_true, mentionsPart,
      mentionsPartWithin_iff hs (Nat.lt_succ_self super), List.contains_iff_mem] at hcheck
    exact mem_ownParams.mp (hcheck.resolve_left (absurd hmention))
  · intro type base interfaces hinterned hl super hmem
    exact bareAvoids_of_check hs (hsuper hinterned hl super hmem).1.2
  · rintro type base interfaces hinterned hl super hmem owner position ⟨form, info, hform, hshape, -⟩
    have hcheck := (hsuper hinterned hl super hmem).2
    simp [hform, Entry.isParameter, hshape] at hcheck
  · rintro type element rank base interfaces ⟨form, hform, hshape⟩ hl
    obtain ⟨entry, hentry, rfl, rfl, hmem⟩ := hlinks hl
    obtain rfl : entry.form = form := Option.some.inj ((form_of_entry hentry).symm.trans hform)
    have hcheck := List.all_eq_true.mp htypes type hmem
    rw [hentry] at hcheck
    simp only [Entry.form_shape_eq_array] at hshape
    simp only [hshape] at hcheck
    exact List.isEmpty_iff.mp hcheck
  · intro root hroot'
    have hcheck := List.all_eq_true.mp hroot root (Option.mem_toList.mpr hroot')
    rw [Bool.and_eq_true] at hcheck
    exact ⟨(avoids_iff hs).mp hcheck.1, bareAvoids_of_check hs hcheck.2⟩

end Checks

end NominalGenerics.Store
