import NominalGenerics.Proofs.Store.InterfaceSets

/-!
# Corresponding types

Two stores that enlarge a common one by instantiations and arrays may hold the same types under
different handles. `Store.Corresponds` relates handles that denote the same type: types of the
common store denote themselves, and interned types are built in the same way from parts that
correspond. Types are stored once, so a type has at most one counterpart.
-/

namespace NominalGenerics.Store

variable {common s s' t : Store}

/-- `s` holds the types of the closed store `common`, and further instantiations and arrays. -/
structure Enlarges (common s : Store) : Prop where
  wellFormed : common.WellFormed
  closed : common.AllClosed
  later : Later common s
  coherent : s.Coherent
  interned : ∀ type, common.size ≤ type → type < s.size → s.Interned type

/-- `a` denotes in `s` the type that `b` denotes in `t`. -/
inductive Corresponds (common s t : Store) : Handle → Handle → Prop
  | same {type : Handle} (h : type < common.size) : Corresponds common s t type type
  | application {a b definition : Handle} {args args' : List Handle} (ha : common.size ≤ a)
      (hb : common.size ≤ b) (happlies : s.Applies definition args a)
      (happlies' : t.Applies definition args' b) (hlength : args.length = args'.length)
      (hargs : ∀ (i : Nat) x y, args[i]? = some x → args'[i]? = some y →
        Corresponds common s t x y) : Corresponds common s t a b
  | array {a b element element' : Handle} {rank : Nat} (ha : common.size ≤ a)
      (hb : common.size ≤ b) (harray : s.IsArray element rank a)
      (harray' : t.IsArray element' rank b) (helement : Corresponds common s t element element') :
      Corresponds common s t a b

namespace Enlarges

theorem kept (h : Enlarges common s) {type : Handle} {entry : Entry}
    (hentry : common.types[type]? = some entry) : s.types[type]? = some entry := by
  obtain ⟨entry', hentry', hclosed⟩ := h.closed type (lt_of_entry hentry)
  obtain rfl := Option.some.inj (hentry'.symm.trans hentry)
  exact h.later.closed hentry hclosed

theorem getElem? (h : Enlarges common s) {type : Handle} (hlt : type < common.size) :
    s.types[type]? = common.types[type]? := by
  obtain ⟨entry, hentry⟩ := entry_of_lt hlt
  rw [h.kept hentry, hentry]

theorem form (h : Enlarges common s) {type : Handle} (hlt : type < common.size) :
    s.form type = common.form type := by
  rw [Store.form, Store.form, h.getElem? hlt]

theorem links (h : Enlarges common s) {type : Handle} (hlt : type < common.size) :
    s.links type = common.links type := by
  rw [Store.links, Store.links, h.getElem? hlt]

/-- Definitions belong to the common store. -/
theorem definition_lt (h : Enlarges common s) {definition : Handle} {params : List Handle}
    (hd : s.Defines definition params) : definition < common.size := by
  by_contra hge
  obtain ⟨form, hform, -⟩ := id hd
  exact (h.interned definition (Nat.le_of_not_lt hge) (form_lt hform)).not_defines hd

theorem defines_common (h : Enlarges common s) {definition : Handle} {params : List Handle}
    (hd : s.Defines definition params) : common.Defines definition params := by
  have hlt := h.definition_lt hd
  obtain ⟨form, hform, hshape⟩ := hd
  exact ⟨form, h.form hlt ▸ hform, hshape⟩

/-- The arguments of a type of the common store belong to it, and are the same in every larger
store. -/
theorem applies_common (h : Enlarges common s) {definition type : Handle} {args : List Handle}
    (happlies : s.Applies definition args type) (hlt : type < common.size) :
    common.Applies definition args type ∧ ∀ arg ∈ args, arg < common.size := by
  obtain ⟨params, hd, hlength, hcase⟩ := happlies
  have hcommon : common.Applies definition args type := by
    refine ⟨params, h.defines_common hd, hlength, hcase.imp id fun ⟨hne, form, hform, hshape⟩ => ?_⟩
    exact ⟨hne, form, h.form hlt ▸ hform, hshape⟩
  obtain ⟨form, hform, -, hargs, -⟩ := hcommon.exists_form
  refine ⟨hcommon, fun arg harg => ?_⟩
  obtain ⟨part, hpart, -⟩ := h.wellFormed.coherent.argument hform (hargs ▸ harg)
  exact form_lt hpart

theorem isArray_common (h : Enlarges common s) {element type : Handle} {rank : Nat}
    (harray : s.IsArray element rank type) (hlt : type < common.size) :
    common.IsArray element rank type ∧ element < common.size := by
  obtain ⟨form, hform, hshape⟩ := harray
  have hcommon := h.form hlt ▸ hform
  obtain ⟨-, -, part, hpart, -⟩ := h.wellFormed.coherent.array hcommon hshape
  exact ⟨⟨form, hcommon, hshape⟩, form_lt hpart⟩

end Enlarges

namespace Corresponds

variable {a b : Handle}

theorem symm (h : Corresponds common s t a b) : Corresponds common t s b a := by
  induction h with
  | same hlt => exact .same hlt
  | application ha hb happlies happlies' hlength _ ih =>
      exact .application hb ha happlies' happlies hlength.symm fun i x y hx hy => ih i y x hy hx
  | array ha hb harray harray' _ ih => exact .array hb ha harray' harray ih

theorem mono (h : Corresponds common s t a b) (hs : Extends s s') :
    Corresponds common s' t a b := by
  induction h with
  | same hlt => exact .same hlt
  | application ha hb happlies happlies' hlength _ ih =>
      exact .application ha hb (hs.applies happlies) happlies' hlength ih
  | array ha hb harray harray' _ ih => exact .array ha hb (hs.isArray harray) harray' ih

/-- Only types of the common store correspond to them. -/
theorem eq_of_lt (h : Corresponds common s t a b) (hlt : a < common.size) : b = a := by
  cases h with
  | same _ => rfl
  | application ha => exact absurd hlt (Nat.not_lt.mpr ha)
  | array ha => exact absurd hlt (Nat.not_lt.mpr ha)

theorem lt (h : Corresponds common s t a b) (hs : Enlarges common s) : a < s.size := by
  cases h with
  | same hlt => exact Nat.lt_of_lt_of_le hlt hs.later.size_le
  | application _ _ happlies => exact happlies.queries.2.2.2
  | array _ _ harray =>
      obtain ⟨form, hform, -⟩ := harray
      exact form_lt hform

end Corresponds

/-- An application is no array. -/
theorem Applies.not_isArray {definition element type : Handle} {args : List Handle} {rank : Nat}
    (h : s.Applies definition args type) : ¬ s.IsArray element rank type := by
  intro h'
  obtain ⟨form, hform, -, -, hnone⟩ := h.exists_form
  obtain ⟨form', hform', hsome, -⟩ := h'.exists_form
  obtain rfl := Option.some.inj (hform.symm.trans hform')
  rw [hnone] at hsome
  cases hsome

/-- A type has one counterpart. -/
theorem Corresponds.functional (ht : t.Coherent) {a b b' : Handle}
    (h : Corresponds common s t a b) (h' : Corresponds common s t a b') : b = b' := by
  induction h generalizing b' with
  | same hlt => exact (h'.eq_of_lt hlt).symm
  | application ha _ happlies happlies' hlength _ ih =>
      cases h' with
      | same hlt => exact absurd hlt (Nat.not_lt.mpr ha)
      | array _ _ harray => exact absurd harray happlies.not_isArray
      | application _ _ hother hother' hlength' hargs' =>
          obtain ⟨rfl, rfl⟩ := happlies.inj hother
          obtain rfl := eq_of_getElem? (hlength.symm.trans hlength') fun i y z hy hz => by
            obtain ⟨x, hx⟩ := getElem?_of_length_eq hlength hy
            exact ih i x y hx hy (hargs' i x z hx hz)
          exact ht.applies_unique happlies' hother'
  | array ha _ harray harray' _ ih =>
      cases h' with
      | same hlt => exact absurd hlt (Nat.not_lt.mpr ha)
      | application _ _ happlies => exact absurd harray happlies.not_isArray
      | array _ _ hother hother' helement =>
          obtain ⟨rfl, rfl⟩ := harray.inj hother
          obtain rfl := ih helement
          exact ht.isArray_unique harray' hother'

section Both

variable {a b : Handle}

/-- Types are told apart by their counterparts. -/
theorem Corresponds.injective (hs : s.Coherent) {a' : Handle} (h : Corresponds common s t a b)
    (h' : Corresponds common s t a' b) : a = a' :=
  h.symm.functional hs h'.symm

/-- Types of the common store that correspond are equal. -/
theorem eq_of_corresponds {args args' : List Handle}
    (hargs : List.Forall₂ (Corresponds common s t) args args')
    (hlt : ∀ arg ∈ args, arg < common.size) : args' = args := by
  induction hargs with
  | nil => rfl
  | cons hab _ ih =>
      rw [hab.eq_of_lt (hlt _ List.mem_cons_self),
        ih fun arg harg => hlt arg (List.mem_cons_of_mem _ harg)]

/-- Corresponding arguments give corresponding applications. -/
theorem Corresponds.of_applies (hs : Enlarges common s) (ht : Enlarges common t)
    {definition : Handle} {args args' : List Handle}
    (hargs : List.Forall₂ (Corresponds common s t) args args')
    (h : s.Applies definition args a) (h' : t.Applies definition args' b) :
    Corresponds common s t a b := by
  rcases Nat.lt_or_ge a common.size with ha | ha
  · obtain ⟨hcommon, hlt⟩ := hs.applies_common h ha
    obtain rfl := eq_of_corresponds hargs hlt
    obtain rfl := ht.coherent.applies_unique (ht.later.extends.applies hcommon) h'
    exact .same ha
  · rcases Nat.lt_or_ge b common.size with hb | hb
    · obtain ⟨hcommon, hlt⟩ := ht.applies_common h' hb
      obtain rfl := eq_of_corresponds (hargs.flip.imp fun _ _ h => h.symm) hlt
      obtain rfl := hs.coherent.applies_unique (hs.later.extends.applies hcommon) h
      exact .same hb
    · obtain ⟨hlength, hpointwise⟩ := forall₂_iff_getElem?.mp hargs
      exact .application ha hb h h' hlength hpointwise

theorem Corresponds.of_isArray (hs : Enlarges common s) (ht : Enlarges common t)
    {element element' : Handle} {rank : Nat} (helement : Corresponds common s t element element')
    (h : s.IsArray element rank a) (h' : t.IsArray element' rank b) :
    Corresponds common s t a b := by
  rcases Nat.lt_or_ge a common.size with ha | ha
  · obtain ⟨hcommon, hlt⟩ := hs.isArray_common h ha
    obtain rfl := helement.eq_of_lt hlt
    obtain rfl := ht.coherent.isArray_unique (ht.later.extends.isArray hcommon) h'
    exact .same ha
  · rcases Nat.lt_or_ge b common.size with hb | hb
    · obtain ⟨hcommon, hlt⟩ := ht.isArray_common h' hb
      obtain rfl := helement.symm.eq_of_lt hlt
      obtain rfl := hs.coherent.isArray_unique (hs.later.extends.isArray hcommon) h
      exact .same hb
    · exact .array ha hb h h' helement

/-- The counterpart of an application applies the same definition to the counterparts. -/
theorem Corresponds.applies (hs : Enlarges common s) (ht : Enlarges common t)
    (hab : Corresponds common s t a b) {definition : Handle} {args : List Handle}
    (h : s.Applies definition args a) :
    ∃ args', List.Forall₂ (Corresponds common s t) args args' ∧ t.Applies definition args' b := by
  cases hab with
  | same hlt =>
      obtain ⟨hcommon, hargs⟩ := hs.applies_common h hlt
      refine ⟨args, ?_, ht.later.extends.applies hcommon⟩
      exact List.forall₂_same.mpr fun arg harg => .same (hargs arg harg)
  | application _ _ happlies happlies' hlength hargs =>
      obtain ⟨rfl, rfl⟩ := happlies.inj h
      exact ⟨_, forall₂_iff_getElem?.mpr ⟨hlength, hargs⟩, happlies'⟩
  | array _ _ harray => exact absurd harray h.not_isArray

theorem Corresponds.isArray (hs : Enlarges common s) (ht : Enlarges common t)
    (hab : Corresponds common s t a b) {element : Handle} {rank : Nat}
    (h : s.IsArray element rank a) :
    ∃ element', Corresponds common s t element element' ∧ t.IsArray element' rank b := by
  cases hab with
  | same hlt =>
      obtain ⟨hcommon, helement⟩ := hs.isArray_common h hlt
      exact ⟨element, .same helement, ht.later.extends.isArray hcommon⟩
  | application _ _ happlies => exact absurd h happlies.not_isArray
  | array _ _ harray harray' helement =>
      obtain ⟨rfl, rfl⟩ := harray.inj h
      exact ⟨_, helement, harray'⟩

/-- Putting corresponding arguments into a type of the common store gives corresponding types. -/
theorem Replaced.corresponds (hs : Enlarges common s) (ht : Enlarges common t)
    {params args args' : List Handle} (hargs : List.Forall₂ (Corresponds common s t) args args')
    {type : Handle} (hlt : type < common.size) (h : s.Replaced true params args type a)
    (h' : t.Replaced true params args' type b) : Corresponds common s t a b := by
  have hform' : ∀ {type form}, type < common.size → s.form type = some form →
      t.form type = some form := fun hlt hform => (ht.form hlt).trans (hs.form hlt ▸ hform)
  induction h generalizing b with
  | bound hposition harg =>
      exact (forall₂_iff_getElem?.mp hargs).2 _ _ _ harg (h'.of_bound hposition)
  | application hfree hform hdefinition hatomic hlength _ hresult ih =>
      obtain ⟨parts', hlength', hparts', hresult'⟩ :=
        h'.of_application hfree (hform' hlt hform) hdefinition hatomic
      refine .of_applies hs ht (forall₂_iff_getElem?.mpr ⟨hlength.symm.trans hlength', ?_⟩)
        hresult hresult'
      intro i x y hx hy
      obtain ⟨part, hpart⟩ := getElem?_of_length_eq hlength hx
      obtain ⟨form, hpartForm, -⟩ := hs.wellFormed.coherent.argument (hs.form hlt ▸ hform)
        (List.mem_of_getElem? hpart)
      exact ih i part x hpart hx (form_lt hpartForm) (hparts' i part y hpart hy)
  | array hfree hform harray _ hresult ih =>
      obtain ⟨part', hpart', hresult'⟩ := h'.of_array hfree (hform' hlt hform) harray
      obtain ⟨form, hpartForm, -⟩ :=
        hs.wellFormed.coherent.element (hs.form hlt ▸ hform) harray
      exact .of_isArray hs ht (ih (form_lt hpartForm) hpart') hresult hresult'
  | leaf hfree hform harray hdefinition =>
      rw [h'.of_leaf hfree (hform' hlt hform) harray hdefinition]
      exact .same hlt

theorem Enlarges.instantiation (hs : Enlarges common s) {definition : Handle} {args : List Handle}
    (h : s.Applies definition args a) (ha : common.size ≤ a) :
    ∃ form, s.form a = some form ∧ form.shape = .instantiation definition args := by
  obtain ⟨params, hd, -, ⟨-, rfl⟩ | ⟨-, hform⟩⟩ := h
  · exact absurd (hs.definition_lt hd) (Nat.not_lt.mpr ha)
  · exact hform

/-- Interned types correspond to interned types only. -/
theorem Corresponds.ge (h : Corresponds common s t a b) (ha : common.size ≤ a) :
    common.size ≤ b :=
  Nat.le_of_not_lt fun hlt => Nat.not_lt.mpr ha (h.symm.eq_of_lt hlt ▸ hlt)

/-- The counterpart of an instantiation is one. -/
theorem Corresponds.instantiation (hs : Enlarges common s) (ht : Enlarges common t)
    (hab : Corresponds common s t a b) {form : Entry} {definition : Handle} {args : List Handle}
    (hform : s.form a = some form) (hshape : form.shape = .instantiation definition args) :
    ∃ args' form', List.Forall₂ (Corresponds common s t) args args' ∧ t.form b = some form' ∧
      form'.shape = .instantiation definition args' := by
  obtain ⟨args', hargs, happlies⟩ := hab.applies hs ht (hs.coherent.applies_self hform hshape)
  rcases Nat.lt_or_ge a common.size with hlt | hge
  · obtain rfl := hab.eq_of_lt hlt
    obtain ⟨-, hcommon⟩ := hs.applies_common (hs.coherent.applies_self hform hshape) hlt
    refine ⟨args, form, List.forall₂_same.mpr fun arg harg => .same (hcommon arg harg), ?_, hshape⟩
    rw [ht.form hlt, ← hs.form hlt, hform]
  · have hge' := hab.ge hge
    obtain ⟨form', hform', hshape'⟩ := ht.instantiation happlies hge'
    exact ⟨args', form', hargs, hform', hshape'⟩

/-- Corresponding types are nested equally deep. -/
theorem Corresponds.nestingAt (hs : Enlarges common s) (ht : Enlarges common t)
    (h : Corresponds common s t a b) : t.nestingAt b = s.nestingAt a := by
  induction h with
  | same hlt =>
      rw [hs.later.extends.nestingAt hlt, ht.later.extends.nestingAt hlt]
  | application ha hb happlies happlies' hlength _ ih =>
      obtain ⟨form, hform, hshape⟩ := hs.instantiation happlies ha
      obtain ⟨form', hform', hshape'⟩ := ht.instantiation happlies' hb
      rw [nestingAt_arguments hs.coherent hform hshape,
        nestingAt_arguments ht.coherent hform' hshape']
      congr 2
      refine eq_of_getElem? (by simp [hlength]) fun i x y hx hy => ?_
      rw [List.getElem?_map, Option.map_eq_some_iff] at hx hy
      obtain ⟨arg', harg', rfl⟩ := hx
      obtain ⟨arg, harg, rfl⟩ := hy
      exact ih i arg arg' harg harg'
  | array _ _ harray harray' _ ih =>
      obtain ⟨form, hform, hshape⟩ := harray
      obtain ⟨form', hform', hshape'⟩ := harray'
      rw [nestingAt_element hs.coherent hform hshape, nestingAt_element ht.coherent hform' hshape',
        ih]

end Both

/-- Both stores enlarge the common one, and every type of `s` has a counterpart in `t`. -/
structure Covers (common s t : Store) : Prop where
  source : Enlarges common s
  target : Enlarges common t
  counterpart : ∀ a, a < s.size → ∃ b, Corresponds common s t a b

namespace Covers

variable {a b : Handle}

/-- A covered store has no more types. -/
theorem size_le (h : Covers common s t) : s.size ≤ t.size := by
  choose φ hφ using h.counterpart
  have hcard : (Finset.range s.size).attach.card ≤ (Finset.range t.size).card := by
    refine Finset.card_le_card_of_injOn
      (fun a => φ a.1 (Finset.mem_range.mp a.2)) (fun a _ => ?_) fun a _ a' _ heq => ?_
    · exact Finset.mem_coe.mpr (Finset.mem_range.mpr ((hφ a.1 _).symm.lt h.target))
    · dsimp only at heq
      have hfirst := hφ a.1 (Finset.mem_range.mp a.2)
      rw [heq] at hfirst
      exact Subtype.ext (hfirst.injective h.source.coherent (hφ a'.1 _))
  simpa using hcard

/-- Interning types that have counterparts. -/
theorem grown (h : Covers common s t) (hgrown : Grown s s') (hs' : s'.Coherent)
    (hnew : Enlarges common s' → ∀ a, s.size ≤ a → a < s'.size → ∃ b, Corresponds common s' t a b) :
    Covers common s' t := by
  have hsource : Enlarges common s' := by
    refine ⟨h.source.wellFormed, h.source.closed, h.source.later.trans hgrown.later, hs',
      fun type hge hlt => ?_⟩
    obtain ⟨entry, hentry⟩ := entry_of_lt hlt
    rcases hgrown.old_or_fresh hentry with hold | ⟨-, hfresh, -⟩
    · obtain ⟨form, hform, hinterned⟩ := h.source.interned type hge (lt_of_entry hold)
      exact ⟨form, hgrown.extends.forms hform, hinterned⟩
    · refine ⟨_, form_of_entry hentry, ?_⟩
      simpa using hfresh.isInterned
  refine ⟨hsource, h.target, fun a ha => ?_⟩
  rcases Nat.lt_or_ge a s.size with hold | hge
  · obtain ⟨b, hab⟩ := h.counterpart a hold
    exact ⟨b, hab.mono hgrown.extends⟩
  · exact hnew hsource a hge ha

/-- Interning an instantiation whose counterpart exists. -/
theorem internInstance (h : Covers common s t) {definition : Handle} {args args' : List Handle}
    (hargs : List.Forall₂ (Corresponds common s t) args args')
    (happlies : t.Applies definition args' b)
    (hrun : (Store.internInstance definition args).run s = .ok (a, s')) :
    Covers common s' t ∧ Grown s s' ∧ Corresponds common s' t a b := by
  obtain ⟨hs', hgrown, -, hresult⟩ := internInstance_run h.source.coherent hrun
  obtain ⟨params, hd, hlength, -⟩ := id happlies
  have happlied : s'.Applies definition args a := hresult params
    (h.source.later.extends.defines (h.target.defines_common hd))
    (hlength.trans hargs.length_eq.symm)
  have hcorresponds : Enlarges common s' → Corresponds common s' t a b := fun hsource =>
    .of_applies hsource h.target (hargs.imp fun _ _ hxy => hxy.mono hgrown.extends) happlied
      happlies
  have hcovers : Covers common s' t := by
    refine h.grown hgrown hs' fun hsource other hge hlt => ⟨b, ?_⟩
    rcases internInstance_cases hrun with ⟨rfl, -⟩ | ⟨_, -, -, -, ⟨rfl, -⟩ | ⟨-, rfl, _, _, -, rfl⟩⟩
    · exact absurd hlt (Nat.not_lt.mpr hge)
    · exact absurd hlt (Nat.not_lt.mpr hge)
    · rw [size_interned] at hlt
      obtain rfl : other = s.size := by omega
      exact hcorresponds hsource
  exact ⟨hcovers, hgrown, hcorresponds hcovers.source⟩

/-- Interning an array whose counterpart exists. -/
theorem internArray (h : Covers common s t) {element element' : Handle} {rank : Nat}
    (helement : Corresponds common s t element element') (harray : t.IsArray element' rank b)
    (hrun : (Store.internArray element rank).run s = .ok (a, s')) :
    Covers common s' t ∧ Grown s s' ∧ Corresponds common s' t a b := by
  obtain ⟨hs', hgrown, -, hresult⟩ := internArray_run h.source.coherent hrun
  have hcorresponds : Enlarges common s' → Corresponds common s' t a b := fun hsource =>
    .of_isArray hsource h.target (helement.mono hgrown.extends) hresult harray
  have hcovers : Covers common s' t := by
    refine h.grown hgrown hs' fun hsource other hge hlt => ⟨b, ?_⟩
    rcases internArray_cases hrun with ⟨rfl, -⟩ | ⟨-, rfl, -, _, -, rfl⟩
    · exact absurd hlt (Nat.not_lt.mpr hge)
    · rw [size_interned] at hlt
      obtain rfl : other = s.size := by omega
      exact hcorresponds hsource
  exact ⟨hcovers, hgrown, hcorresponds hcovers.source⟩

end Covers

section Substituting

variable {params args args' : List Handle}

/-- The arguments to put in have counterparts. -/
structure CoversArguments (common t : Store) (args args' : List Handle) (s : Store) : Prop where
  covers : Covers common s t
  arguments : List.Forall₂ (Corresponds common s t) args args'

theorem CoversArguments.grown (h : CoversArguments common t args args' s) (hgrown : Grown s s')
    (hcovers : Covers common s' t) : CoversArguments common t args args' s' :=
  ⟨hcovers, h.arguments.imp fun _ _ hxy => hxy.mono hgrown.extends⟩

theorem CoversArguments.lt (h : CoversArguments common t args args' s) :
    ∀ arg ∈ args, arg < s.size := by
  intro arg harg
  obtain ⟨arg', -, hcorresponds⟩ := mem_of_forall₂ h.arguments harg
  exact hcorresponds.lt h.covers.source

/-- Substitution interns only types that have counterparts, if the result has one. -/
theorem CoversArguments.substituteWithin {height : Nat} {type result b : Handle}
    (h : CoversArguments common t args args' s) (hlt : type < common.size)
    (hreplaced : t.Replaced true params args' type b)
    (hrun : (Store.substituteWithin params args height type).run s = .ok (result, s')) :
    CoversArguments common t args args' s' := by
  induction height generalizing s s' type result b with
  | zero => cases hrun
  | succ height ih =>
      unfold Store.substituteWithin at hrun
      split at hrun
      · split at hrun
        · obtain ⟨-, rfl⟩ := run_pure_eq_ok.mp hrun
          exact h
        · cases hrun
      · next hnone =>
          have hfree : type ∉ params := List.idxOf?_eq_none_iff.mp hnone
          obtain ⟨_, _, hget, hrun⟩ := run_bind_eq_ok.mp hrun
          cases hget
          obtain ⟨entry, _, hread, hrun⟩ := run_bind_eq_ok.mp hrun
          obtain ⟨hentry, rfl⟩ := run_lift_eq_ok.mp hread
          have hform : s.form type = some entry.form := form_of_entry (entry_eq_ok.mp hentry)
          have hcommon : common.form type = some entry.form := h.covers.source.form hlt ▸ hform
          have hform' : t.form type = some entry.form := (h.covers.target.form hlt).trans hcommon
          split at hrun
          · next definition inner hshape =>
              have hshape' := Entry.form_shape_eq_instantiation.mpr hshape
              have hinner : entry.form.arguments = inner := by simp [Entry.arguments, hshape']
              obtain ⟨-, hbelow, -⟩ := h.covers.source.coherent.instantiation hform hshape'
              obtain ⟨parts', hlength, hparts, happlies⟩ := hreplaced.of_application hfree hform'
                (by simp [Entry.definition?, hshape'] : _ = some definition)
                fun _ => Nat.ne_of_lt hbelow
              rw [hinner] at hlength hparts
              have hinnerlt : ∀ part ∈ inner, part < common.size := by
                intro part hpart
                obtain ⟨form, hpartForm, -⟩ :=
                  h.covers.source.wellFormed.coherent.argument hcommon (hinner ▸ hpart)
                exact form_lt hpartForm
              obtain ⟨replaced, mid, hmap, hrun⟩ := run_bind_eq_ok.mp hrun
              have hmid : CoversArguments common t args args' mid := by
                refine Keeps.mapM h (fun part hpart u hu => ?_) replaced mid hmap
                intro result u' hstep
                obtain ⟨i, hi⟩ := List.getElem?_of_mem hpart
                obtain ⟨part', hpart'⟩ := getElem?_of_length_eq hlength.symm hi
                exact ih hu (hinnerlt part hpart) (hparts i part part' hi hpart') hstep
              split at hrun
              · obtain ⟨-, rfl⟩ := run_pure_eq_ok.mp hrun
                exact hmid
              · obtain ⟨-, -, hall⟩ := mapM_replaces
                  (fun _ _ _ _ hs hargs hrun => substituteWithin_run hs hargs hrun)
                  h.covers.source.coherent h.lt hmap
                have hcorrespond : List.Forall₂ (Corresponds common mid t) replaced parts' := by
                  refine forall₂_of_common hall (forall₂_iff_getElem?.mpr ⟨hlength, hparts⟩) ?_
                  intro part hpart x y hx hy
                  exact hx.2.corresponds hmid.covers.source hmid.covers.target hmid.arguments
                    (hinnerlt part hpart) hy
                obtain ⟨hcovers, hgrown, -⟩ := hmid.covers.internInstance hcorrespond happlies hrun
                exact hmid.grown hgrown hcovers
          · next element rank hshape =>
              have hshape' := Entry.form_shape_eq_array.mpr hshape
              have harray : entry.form.array? = some (element, rank) := by
                simp [Entry.array?, hshape']
              obtain ⟨part', hpart', hisArray⟩ := hreplaced.of_array hfree hform' harray
              obtain ⟨form, hpartForm, -⟩ :=
                h.covers.source.wellFormed.coherent.element hcommon harray
              obtain ⟨replaced, mid, hpart, hrun⟩ := run_bind_eq_ok.mp hrun
              have hmid := ih h (form_lt hpartForm) hpart' hpart
              split at hrun
              · obtain ⟨-, rfl⟩ := run_pure_eq_ok.mp hrun
                exact hmid
              · obtain ⟨-, -, -, hresult⟩ :=
                  substituteWithin_run h.covers.source.coherent h.lt hpart
                have hcorresponds := hresult.corresponds hmid.covers.source hmid.covers.target
                  hmid.arguments (form_lt hpartForm) hpart'
                obtain ⟨hcovers, hgrown, -⟩ := hmid.covers.internArray hcorresponds hisArray hrun
                exact hmid.grown hgrown hcovers
          · obtain ⟨-, rfl⟩ := run_pure_eq_ok.mp hrun
            exact h

theorem CoversArguments.substitute_option {declared result results : Option Handle}
    (h : CoversArguments common t args args' s)
    (hlt : ∀ type, declared = some type → type < common.size)
    (hreplaced : List.Forall₂ (t.Replaced true params args') declared.toList results.toList)
    (hrun : (declared.mapM (substitute params args)).run s = .ok (result, s')) :
    CoversArguments common t args args' s' := by
  cases declared with
  | none =>
      obtain ⟨-, rfl⟩ := run_pure_eq_ok.mp hrun
      exact h
  | some type =>
      rw [Option.mapM_some, map_eq_pure_bind] at hrun
      obtain ⟨replaced, mid, hsubstitute, hrun⟩ := run_bind_eq_ok.mp hrun
      obtain ⟨-, rfl⟩ := run_pure_eq_ok.mp hrun
      obtain ⟨b, -, hb⟩ := mem_of_forall₂ hreplaced (by simp : type ∈ (some type).toList)
      exact h.substituteWithin (hlt type rfl) hb hsubstitute

theorem CoversArguments.substitute_list {declared result results : List Handle}
    (h : CoversArguments common t args args' s) (hlt : ∀ type ∈ declared, type < common.size)
    (hreplaced : List.Forall₂ (t.Replaced true params args') declared results)
    (hrun : (declared.mapM (substitute params args)).run s = .ok (result, s')) :
    CoversArguments common t args args' s' := by
  refine Keeps.mapM h (fun type htype u hu => ?_) result s' hrun
  intro _ u' hstep
  obtain ⟨b, -, hb⟩ := mem_of_forall₂ hreplaced htype
  exact hu.substituteWithin (hlt type htype) hb hstep

end Substituting

namespace Covers

/-- Changes outside the forms and the common store. -/
theorem sameForms (h : Covers common s t) (hsame : SameForms s s') (hlater : Later s s') :
    Covers common s' t := by
  refine ⟨⟨h.source.wellFormed, h.source.closed, h.source.later.trans hlater,
    hsame.coherent h.source.coherent, fun type hge hlt => ?_⟩, h.target, fun a ha => ?_⟩
  · obtain ⟨form, hform, hinterned⟩ := h.source.interned type hge (hsame.size ▸ hlt)
    exact ⟨form, hsame.extends.forms hform, hinterned⟩
  · obtain ⟨b, hab⟩ := h.counterpart a (hsame.size ▸ ha)
    exact ⟨b, hab.mono hsame.extends⟩

/-- Expanding a type adds types that have counterparts: the supertypes of its counterpart. -/
theorem expand (h : Covers common s t) (hs : s.WellFormed)
    (htarget : ∀ b, b < t.size → t.Expanded b) {type : Handle}
    (hopen : ∀ entry, s.types[type]? = some entry → entry.closed = false) {u : Unit}
    (hrun : (Store.expand type).run s = .ok (u, s')) : Covers common s' t := by
  rcases expand_cases hrun with rfl | ⟨entry, declared, definition, args, params, base, mid,
    interfaces, last, hentry, hshape, hnesting, hdeclared, hparams, hbase, hinterfaces, rfl⟩ |
    ⟨entry, element, rank, hentry, hshape, rfl⟩
  · exact h
  · obtain ⟨hgrown, -⟩ :=
      expand_instantiation hs hentry hshape hdeclared hparams hbase hinterfaces
    have hform : s.form type = some entry.form := form_of_entry hentry
    have hshape' := Entry.form_shape_eq_instantiation.mpr hshape
    have hdefines : common.Defines definition params := h.source.defines_common
      ((defines_of_entry (entry_eq_ok.mpr hdeclared)).mpr hparams)
    have hbelow := h.source.definition_lt (h.source.later.extends.defines hdefines)
    have hdeclared' : common.types[definition]? = some declared :=
      h.source.getElem? hbelow ▸ hdeclared
    have hrange := h.source.wellFormed.inRange.links hdeclared'
    -- The counterpart of the type has the supertypes to come, with its own arguments put in.
    obtain ⟨b, hb⟩ := h.counterpart type (form_lt hform)
    obtain ⟨args', form', hargs, hform', hshape''⟩ :=
      hb.instantiation h.source h.target hform hshape'
    have hlt' := form_lt hform'
    obtain ⟨entry', hentry'⟩ := entry_of_lt hlt'
    have hnesting' : form'.nesting ≤ maxInstantiationDepth := by
      rw [← nestingAt_of_form hform', hb.nestingAt h.source h.target, nestingAt_of_form hform]
      exact hnesting
    obtain ⟨hbases, hdirect⟩ := (htarget b hlt' form' _ _ hform' (links_of_entry hentry')).1
      definition args' params declared.base declared.directInterfaces hshape'' hnesting'
      (h.target.later.extends.defines hdefines)
      ((h.target.links hbelow).trans (links_of_entry hdeclared'))
    have hmid := CoversArguments.substitute_option ⟨h, hargs⟩ hrange.base hbases hbase
    have hlast := hmid.substitute_list hrange.directInterfaces hdirect hinterfaces
    exact hlast.covers.sameForms sameForms_relink
      (later_relink (hgrown.entry hentry) (hopen entry hentry))
  · exact h.sameForms sameForms_relink (later_relink hentry (hopen entry hentry))

theorem drain (h : Covers common s t) (hs : s.Draining)
    (htarget : ∀ b, b < t.size → t.Expanded b) {fuel : Nat} {types : List Handle}
    (hrun : (Store.drain fuel).run s = .ok (types, s')) : Covers common s' t := by
  refine (hs.drain_keeps (I := fun u => Covers common u t) h ?_ hrun).2.2
  intro u u' type rest hu hcovers hpending hexpand
  have hrest : ∀ other ∈ rest, other < u.size := fun other hother =>
    hu.wellFormed.inRange.pending other (hpending ▸ List.mem_cons_of_mem type hother)
  obtain ⟨hwf, hlater, -⟩ := unqueue hu.wellFormed hrest
  have hsame : SameForms u { u with pending := rest } :=
    ⟨fun _ => rfl, rfl, rfl, fun _ => rfl, rfl⟩
  exact (hcovers.sameForms hsame hlater).expand hwf htarget
    (hu.unclosed type (hpending ▸ List.mem_cons_self)) hexpand

/-- Expanding and closing what was interned. -/
theorem closeIfFinished (h : Covers common s t) (hs : s.Draining)
    (htarget : ∀ b, b < t.size → t.Expanded b) {u : Unit}
    (hrun : Store.closeIfFinished.run s = .ok (u, s')) : Covers common s' t := by
  obtain ⟨_, _, hget, hrun⟩ := run_bind_eq_ok.mp hrun
  cases hget
  split at hrun
  · obtain ⟨types, last, hdrain, hclose⟩ := run_bind_eq_ok.mp hrun
    obtain ⟨-, hclosing, -⟩ := closeAll_run (drain_run hs hdrain).1.wellFormed hclose
    exact (h.drain hs htarget hdrain).sameForms hclosing.sameForms hclosing.later
  · obtain ⟨-, rfl⟩ := run_pure_eq_ok.mp hrun
    exact h

/-- It ends, since no more types are added than the other store has. -/
theorem closeIfFinished_returns (h : Covers common s t) (hs : s.Draining)
    (htarget : ∀ b, b < t.size → t.Expanded b) (hfinished : s.finished = true)
    (hpending : s.pending.length ≤ s.size) (hsize : t.size ≤ handleSpace) :
    Returns Store.closeIfFinished s fun _ _ => True := by
  obtain ⟨types, last, hdrains, hlast, -, hle, hcount, hmem⟩ :=
    hs.drains (within_ofStore s) (Nat.le_refl _)
  have hrange : ∀ type ∈ types, type < last.size := by
    intro type htype
    rcases (hmem type).mp htype with hold | ⟨-, hlt⟩
    · exact Nat.lt_of_lt_of_le (hs.wellFormed.inRange.pending type hold) hle
    · exact hlt
  have hrun := hdrains.run types.length
  rw [if_pos (Nat.le_refl _)] at hrun
  have hlastSize := (h.drain hs htarget hrun).size_le
  obtain ⟨_, s', hclose, -⟩ := Store.closeIfFinished_returns hfinished hdrains hlast.wellFormed
    hrange (by omega)
  exact ⟨_, s', hclose, trivial⟩

end Covers

end NominalGenerics.Store
