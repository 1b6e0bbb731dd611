import NominalGenerics.Proofs.Store.Growth

/-!
# Replacement of type parameters

`Store.Replaced` says on handles what it means to put arguments in for type parameters throughout a
type. It comes in two readings, which differ in what a definition that stands for itself means. In
the atomic reading it is a name without parts. In the other reading it is the definition applied to
its own parameters, which are replaced like any others.

Substitution computes the atomic reading.
-/

namespace NominalGenerics.Store

variable {s s' : Store} {params args : List Handle}

/-- `Replaced store atomic params args type result`: the result of putting `args` in for `params`
throughout `type`. -/
inductive Replaced (store : Store) (atomic : Bool) (params args : List Handle) :
    Handle → Handle → Prop
  | bound {type arg : Handle} {position : Nat} (hposition : params.idxOf? type = some position)
      (harg : args[position]? = some arg) : Replaced store atomic params args type arg
  | application {type definition result : Handle} {form : Entry} {parts : List Handle}
      (hfree : type ∉ params) (hform : store.form type = some form)
      (hdefinition : form.definition? type = some definition)
      (hatomic : atomic = true → definition ≠ type)
      (hlength : form.arguments.length = parts.length)
      (hparts : ∀ (i : Nat) a b, form.arguments[i]? = some a → parts[i]? = some b →
        Replaced store atomic params args a b)
      (hresult : store.Applies definition parts result) :
      Replaced store atomic params args type result
  | array {type element part result : Handle} {form : Entry} {rank : Nat}
      (hfree : type ∉ params) (hform : store.form type = some form)
      (harray : form.array? = some (element, rank))
      (hpart : Replaced store atomic params args element part)
      (hresult : store.IsArray part rank result) : Replaced store atomic params args type result
  | leaf {type : Handle} {form : Entry} (hfree : type ∉ params)
      (hform : store.form type = some form) (harray : form.array? = none)
      (hdefinition : form.definition? type = none ∨
        atomic = true ∧ form.definition? type = some type) :
      Replaced store atomic params args type type

theorem Extends.applies (h : Extends s s') {definition result : Handle}
    (ha : s.Applies definition args result) : s'.Applies definition args result := by
  obtain ⟨params, hd, hlen, hcase⟩ := ha
  refine ⟨params, h.defines hd, hlen, hcase.imp id ?_⟩
  rintro ⟨hne, form, hform, hshape⟩
  exact ⟨hne, form, h.forms hform, hshape⟩

theorem Extends.isArray (h : Extends s s') {element result : Handle} {rank : Nat}
    (ha : s.IsArray element rank result) : s'.IsArray element rank result := by
  obtain ⟨form, hform, hshape⟩ := ha
  exact ⟨form, h.forms hform, hshape⟩

theorem Replaced.mono (h : Extends s s') {atomic : Bool} {type result : Handle}
    (hr : s.Replaced atomic params args type result) :
    s'.Replaced atomic params args type result := by
  induction hr with
  | bound hposition harg => exact .bound hposition harg
  | application hfree hform hdef hatomic hlen _ hresult ih =>
      exact .application hfree (h.forms hform) hdef hatomic hlen ih (h.applies hresult)
  | array hfree hform harray _ hresult ih =>
      exact .array hfree (h.forms hform) harray ih (h.isArray hresult)
  | leaf hfree hform harray hdef => exact .leaf hfree (h.forms hform) harray hdef

/-- `part` is `type` or occurs among the arguments of instantiations and the elements of arrays from
which `type` is built. -/
inductive Mentions (store : Store) (part : Handle) : Handle → Prop
  | self : Mentions store part part
  | argument {type definition arg : Handle} {args : List Handle} {form : Entry}
      (hform : store.form type = some form)
      (hshape : form.shape = .instantiation definition args) (harg : arg ∈ args)
      (hpart : Mentions store part arg) : Mentions store part type
  | element {type element : Handle} {rank : Nat} {form : Entry}
      (hform : store.form type = some form) (hshape : form.shape = .array element rank)
      (hpart : Mentions store part element) : Mentions store part type

section Shapes

variable {type : Handle} {form : Entry}

/-- What the arguments of an instantiation mention, it mentions. -/
theorem Mentions.of_argument {part definition arg : Handle} (hform : s.form type = some form)
    (hdefinition : form.definition? type = some definition) (hne : definition ≠ type)
    (harg : arg ∈ form.arguments) (h : s.Mentions part arg) : s.Mentions part type := by
  cases hshape : form.shape with
  | instantiation head args =>
      rw [Entry.arguments, hshape] at harg
      exact .argument hform hshape harg h
  | definition own =>
      simp only [Entry.definition?, hshape, Option.some.injEq] at hdefinition
      exact absurd hdefinition.symm hne
  | named => simp [Entry.definition?, hshape] at hdefinition
  | array element rank => simp [Entry.definition?, hshape] at hdefinition
  | parameter info => simp [Entry.definition?, hshape] at hdefinition

/-- The type is declared, and without type parameters. -/
def IsNamed (store : Store) (type : Handle) : Prop :=
  ∃ form, store.form type = some form ∧ form.shape = .named

theorem isNamed_root (hs : s.Coherent) : s.IsNamed s.root := by
  obtain ⟨hroot, form, hform, hshape⟩ := hs.root
  exact ⟨form, hroot ▸ hform, hshape⟩

theorem Coherent.named (hs : s.Coherent) (hform : s.form type = some form)
    (hshape : form.shape = .named) : form.isOpen = false ∧ form.nesting = 0 := by
  have h := hs.forms hform
  rw [FormCoherent, hshape] at h
  exact h

theorem Coherent.parameter (hs : s.Coherent) (hform : s.form type = some form) {info : TypeParam}
    (hshape : form.shape = .parameter info) :
    form.isOpen = true ∧ form.nesting = 0 ∧ s.Lists info.owner info.position type := by
  have h := hs.forms hform
  rw [FormCoherent, hshape] at h
  exact h

theorem Coherent.definition (hs : s.Coherent) (hform : s.form type = some form)
    {params : List Handle} (hshape : form.shape = .definition params) :
    form.isOpen = !params.isEmpty ∧ form.nesting = 0 ∧
      ∀ (i : Nat) param, params[i]? = some param → s.ParamAt param (.type type) i := by
  have h := hs.forms hform
  rw [FormCoherent, hshape] at h
  exact h

/-- What a coherent store knows about an instantiation. -/
theorem Coherent.instantiation (hs : s.Coherent) (hform : s.form type = some form)
    {definition : Handle} {args : List Handle}
    (hshape : form.shape = .instantiation definition args) :
    (∃ params, s.Defines definition params ∧ params.length = args.length ∧ params ≠ args) ∧
      definition < type ∧
      ∃ parts, List.Forall₂ (fun a part => a < type ∧ s.form a = some part) args parts ∧
        form.isOpen = parts.any (·.isOpen) ∧
        form.nesting = 1 + (parts.map (·.nesting)).foldl max 0 := by
  have h := hs.forms hform
  rw [FormCoherent, hshape] at h
  exact h

theorem Coherent.array (hs : s.Coherent) (hform : s.form type = some form) {element : Handle}
    {rank : Nat} (hshape : form.shape = .array element rank) :
    1 ≤ rank ∧ element < type ∧
      ∃ part, s.form element = some part ∧
        form.isOpen = part.isOpen ∧ form.nesting = part.nesting + 1 := by
  have h := hs.forms hform
  rw [FormCoherent, hshape] at h
  exact h

theorem Coherent.paramAt (hs : s.Coherent) (hform : s.form type = some form) {params : List Handle}
    (hshape : form.shape = .definition params) {i : Nat} {param : Handle}
    (hi : params[i]? = some param) : s.ParamAt param (.type type) i :=
  (hs.definition hform hshape).2.2 i param hi

theorem Coherent.paramAt_of_mem (hs : s.Coherent) {definition param : Handle} {params : List Handle}
    (hd : s.Defines definition params) (hmem : param ∈ params) :
    ∃ i, s.ParamAt param (.type definition) i := by
  obtain ⟨form, hform, hshape⟩ := hd
  obtain ⟨i, hi⟩ := List.getElem?_of_mem hmem
  exact ⟨i, hs.paramAt hform hshape hi⟩

/-- The arguments of a type are types of the store, and those of a closed type are closed. -/
theorem Coherent.argument (hs : s.Coherent) (hform : s.form type = some form) {arg : Handle}
    (harg : arg ∈ form.arguments) :
    ∃ part, s.form arg = some part ∧ (form.isOpen = false → part.isOpen = false ∧ arg < type) := by
  obtain ⟨i, hi⟩ := List.getElem?_of_mem harg
  cases hshape : form.shape with
  | definition params =>
      have hargs : form.arguments = params := by simp [Entry.arguments, hshape]
      rw [hargs] at hi
      obtain ⟨part, info, hpart, -⟩ := hs.paramAt hform hshape hi
      refine ⟨part, hpart, fun hclosed => ?_⟩
      have hempty : params = [] := by simpa [hclosed] using (hs.definition hform hshape).1.symm
      simp [hempty] at hi
  | instantiation definition args =>
      have hargs : form.arguments = args := by simp [Entry.arguments, hshape]
      rw [hargs] at hi
      obtain ⟨-, -, parts, hparts, hopen, -⟩ := hs.instantiation hform hshape
      obtain ⟨part, hpart⟩ := getElem?_of_length_eq hparts.length_eq.symm hi
      obtain ⟨hlt, hform'⟩ := (forall₂_iff_getElem?.mp hparts).2 i arg part hi hpart
      refine ⟨part, hform', fun hclosed => ⟨?_, hlt⟩⟩
      rw [hclosed, eq_comm, List.any_eq_false] at hopen
      simpa using hopen part (List.mem_of_getElem? hpart)
  | named => simp [Entry.arguments, hshape] at harg
  | array element rank => simp [Entry.arguments, hshape] at harg
  | parameter info => simp [Entry.arguments, hshape] at harg

theorem Coherent.element (hs : s.Coherent) (hform : s.form type = some form) {element : Handle}
    {rank : Nat} (harray : form.array? = some (element, rank)) :
    ∃ part, s.form element = some part ∧ part.isOpen = form.isOpen ∧ element < type := by
  cases hshape : form.shape with
  | array element' rank' =>
      obtain ⟨rfl, rfl⟩ : element' = element ∧ rank' = rank := by
        simpa [Entry.array?, hshape] using harray
      obtain ⟨-, hlt, part, hpart, hopen, -⟩ := hs.array hform hshape
      exact ⟨part, hpart, hopen.symm, hlt⟩
  | named => simp [Entry.array?, hshape] at harray
  | definition params => simp [Entry.array?, hshape] at harray
  | instantiation definition args => simp [Entry.array?, hshape] at harray
  | parameter info => simp [Entry.array?, hshape] at harray

theorem Coherent.applies_self (hs : s.Coherent) (hform : s.form type = some form)
    {definition : Handle} {args : List Handle}
    (hshape : form.shape = .instantiation definition args) : s.Applies definition args type := by
  obtain ⟨⟨params, hd, hlen, hne⟩, -⟩ := hs.instantiation hform hshape
  exact ⟨params, hd, hlen, Or.inr ⟨hne, form, hform, hshape⟩⟩

end Shapes

theorem Defines.unique {type : Handle} {params' : List Handle} (h : s.Defines type params)
    (h' : s.Defines type params') : params = params' := by
  obtain ⟨form, hform, hshape⟩ := h
  obtain ⟨form', hform', hshape'⟩ := h'
  obtain rfl := Option.some.inj (hform.symm.trans hform')
  simpa [hshape] using hshape'

section Built

variable {type type' definition definition' element element' : Handle} {args args' : List Handle}
  {rank rank' : Nat} {form : Entry}

theorem Applies.exists_form (h : s.Applies definition args type) :
    ∃ form, s.form type = some form ∧ form.definition? type = some definition ∧
      form.arguments = args ∧ form.array? = none := by
  obtain ⟨params, ⟨form, hform, hshape⟩, -, ⟨rfl, rfl⟩ | ⟨-, form', hform', hshape'⟩⟩ := h
  · exact ⟨form, hform, by simp [Entry.definition?, hshape], by simp [Entry.arguments, hshape],
      by simp [Entry.array?, hshape]⟩
  · exact ⟨form', hform', by simp [Entry.definition?, hshape'],
      by simp [Entry.arguments, hshape'], by simp [Entry.array?, hshape']⟩

/-- A type that has a definition is that definition applied to its arguments. -/
theorem Coherent.applies_of_form (hs : s.Coherent) (hform : s.form type = some form)
    (hdefinition : form.definition? type = some definition) :
    s.Applies definition form.arguments type := by
  cases hshape : form.shape with
  | definition params =>
      rw [Entry.definition?, hshape, Option.some.injEq] at hdefinition
      subst hdefinition
      have hargs : form.arguments = params := by simp [Entry.arguments, hshape]
      rw [hargs]
      exact ⟨params, ⟨form, hform, hshape⟩, rfl, Or.inl ⟨rfl, rfl⟩⟩
  | instantiation definition' args =>
      rw [Entry.definition?, hshape, Option.some.injEq] at hdefinition
      subst hdefinition
      have hargs : form.arguments = args := by simp [Entry.arguments, hshape]
      rw [hargs]
      exact hs.applies_self hform hshape
  | named => simp [Entry.definition?, hshape] at hdefinition
  | array element rank => simp [Entry.definition?, hshape] at hdefinition
  | parameter info => simp [Entry.definition?, hshape] at hdefinition

theorem Coherent.definition_lt (hs : s.Coherent) (hform : s.form type = some form) :
    (form.definition? type).getD type < s.size := by
  cases hdefinition : form.definition? type with
  | none => exact form_lt hform
  | some definition =>
      obtain ⟨_, ⟨_, hd, -⟩, -⟩ := hs.applies_of_form hform hdefinition
      exact form_lt hd

/-- A definition applied to given arguments is stored once. -/
theorem Coherent.applies_unique (hs : s.Coherent) (h : s.Applies definition args type)
    (h' : s.Applies definition args type') : type = type' := by
  obtain ⟨params, ⟨form, hform, hshape⟩, -, hcase⟩ := h
  obtain ⟨params', ⟨form', hform', hshape'⟩, -, hcase'⟩ := h'
  obtain rfl : form = form' := Option.some.inj (hform.symm.trans hform')
  obtain rfl : params = params' := by simpa [hshape] using hshape'
  rcases hcase with ⟨heq, rfl⟩ | ⟨hne, hinst⟩
  · rcases hcase' with ⟨-, rfl⟩ | ⟨hne', -⟩
    · rfl
    · exact absurd heq hne'
  · rcases hcase' with ⟨heq', -⟩ | ⟨-, hinst'⟩
    · exact absurd heq' hne
    · have hlookup := (hs.instances definition args type).mpr hinst
      exact Option.some.inj (hlookup.symm.trans ((hs.instances definition args type').mpr hinst'))

/-- A definition applied to a type that is no parameter is not the definition itself. -/
theorem Applies.definition_ne (hs : s.Coherent) (h : s.Applies definition args type) {i : Nat}
    {arg : Handle} (harg : args[i]? = some arg)
    (hproper : ∀ owner position, ¬ s.ParamAt arg owner position) : definition ≠ type := by
  rintro rfl
  obtain ⟨params, ⟨form, hform, hshape⟩, -, ⟨rfl, -⟩ | ⟨-, form', hform', hshape'⟩⟩ := h
  · exact hproper _ _ (hs.paramAt hform hshape harg)
  · exact absurd (hs.instantiation hform' hshape').2.1 (Nat.lt_irrefl _)

theorem Applies.inj (h : s.Applies definition args type) (h' : s.Applies definition' args' type) :
    definition = definition' ∧ args = args' := by
  obtain ⟨form, hform, hd, ha, -⟩ := h.exists_form
  obtain ⟨form', hform', hd', ha', -⟩ := h'.exists_form
  obtain rfl : form = form' := Option.some.inj (hform.symm.trans hform')
  exact ⟨Option.some.inj (hd.symm.trans hd'), ha.symm.trans ha'⟩

theorem Applies.length_eq (h : s.Applies definition args type)
    (h' : s.Applies definition args' type') : args.length = args'.length := by
  obtain ⟨params, ⟨form, hform, hshape⟩, hlength, -⟩ := h
  obtain ⟨params', ⟨form', hform', hshape'⟩, hlength', -⟩ := h'
  obtain rfl := Option.some.inj (hform.symm.trans hform')
  obtain rfl : params = params' := by simpa [hshape] using hshape'
  exact hlength.symm.trans hlength'

theorem IsArray.exists_form (h : s.IsArray element rank type) :
    ∃ form, s.form type = some form ∧ form.array? = some (element, rank) ∧
      form.definition? type = none := by
  obtain ⟨form, hform, hshape⟩ := h
  exact ⟨form, hform, by simp [Entry.array?, hshape], by simp [Entry.definition?, hshape]⟩

theorem isArray_of_form (hform : s.form type = some form)
    (harray : form.array? = some (element, rank)) : s.IsArray element rank type := by
  refine ⟨form, hform, ?_⟩
  cases hshape : form.shape with
  | array element' rank' => simpa [Entry.array?, hshape] using harray
  | named => simp [Entry.array?, hshape] at harray
  | definition params => simp [Entry.array?, hshape] at harray
  | instantiation definition args => simp [Entry.array?, hshape] at harray
  | parameter info => simp [Entry.array?, hshape] at harray

theorem Coherent.isArray_unique (hs : s.Coherent) (h : s.IsArray element rank type)
    (h' : s.IsArray element rank type') : type = type' := by
  have hlookup := (hs.arrays element rank type).mpr h
  exact Option.some.inj (hlookup.symm.trans ((hs.arrays element rank type').mpr h'))

theorem IsArray.inj (h : s.IsArray element rank type) (h' : s.IsArray element' rank' type) :
    element = element' ∧ rank = rank' := by
  obtain ⟨form, hform, hshape⟩ := h
  obtain ⟨form', hform', hshape'⟩ := h'
  obtain rfl : form = form' := Option.some.inj (hform.symm.trans hform')
  simpa [hshape] using hshape'

/-- A type with a definition is no array. -/
theorem array?_of_definition? (hdefinition : form.definition? type = some definition) :
    form.array? = none := by
  cases hshape : form.shape <;>
    simp [Entry.definition?, Entry.array?, hshape] at hdefinition ⊢

theorem isParameter_of_definition? (hdefinition : form.definition? type = some definition) :
    form.isParameter = false := by
  cases hshape : form.shape <;>
    simp [Entry.definition?, Entry.isParameter, hshape] at hdefinition ⊢

theorem isParameter_of_array? {rank : Nat} (harray : form.array? = some (element, rank)) :
    form.isParameter = false := by
  cases hshape : form.shape <;> simp [Entry.array?, Entry.isParameter, hshape] at harray ⊢

theorem ParamAt.exists_form {owner : ParamOwner} {position : Nat}
    (h : s.ParamAt type owner position) :
    ∃ form, s.form type = some form ∧ form.definition? type = none ∧ form.array? = none := by
  obtain ⟨form, info, hform, hshape, -⟩ := h
  exact ⟨form, hform, by simp [Entry.definition?, hshape], by simp [Entry.array?, hshape]⟩

theorem ParamAt.unique {owner owner' : ParamOwner} {position position' : Nat}
    (h : s.ParamAt type owner position) (h' : s.ParamAt type owner' position') :
    owner = owner' ∧ position = position' := by
  obtain ⟨form, info, hform, hshape, rfl, rfl⟩ := h
  obtain ⟨form', info', hform', hshape', rfl, rfl⟩ := h'
  obtain rfl := Option.some.inj (hform.symm.trans hform')
  obtain rfl : info = info' := by simpa [hshape] using hshape'
  exact ⟨rfl, rfl⟩

theorem ParamAt.lists {owner : ParamOwner} {position : Nat} (h : s.ParamAt type owner position)
    (hs : s.Coherent) : s.Lists owner position type := by
  obtain ⟨form, info, hform, hshape, rfl, rfl⟩ := h
  exact (hs.parameter hform hshape).2.2

/-- All of the types are type parameters. -/
def Parameters (store : Store) (params : List Handle) : Prop :=
  ∀ param ∈ params, ∃ owner position, store.ParamAt param owner position

theorem Coherent.parameters (hs : s.Coherent) (hd : s.Defines definition params) :
    s.Parameters params := by
  intro param hmem
  obtain ⟨i, hparam⟩ := hs.paramAt_of_mem hd hmem
  exact ⟨_, i, hparam⟩

theorem Parameters.not_mem (h : s.Parameters params) (hform : s.form type = some form)
    (hparameter : form.isParameter = false) : type ∉ params := by
  intro hmem
  obtain ⟨owner, position, form', info, hform', hshape, -⟩ := h type hmem
  obtain rfl := Option.some.inj (hform.symm.trans hform')
  simp [Entry.isParameter, hshape] at hparameter

theorem Parameters.not_mem_of_applies (h : s.Parameters params)
    (happlies : s.Applies definition args type) : type ∉ params := by
  obtain ⟨form, hform, hdefinition, -⟩ := happlies.exists_form
  exact h.not_mem hform (isParameter_of_definition? hdefinition)

theorem Parameters.not_mem_of_isArray (h : s.Parameters params) {rank : Nat}
    (harray : s.IsArray element rank type) : type ∉ params := by
  obtain ⟨form, hform, harray, -⟩ := harray.exists_form
  exact h.not_mem hform (isParameter_of_array? harray)

theorem Parameters.replaced_isArray {atomic : Bool} {args : List Handle} (h : s.Parameters params)
    {result element' : Handle} {rank : Nat} (ha : s.IsArray element rank type)
    (hb : s.IsArray element' rank result) (helement : s.Replaced atomic params args element element') :
    s.Replaced atomic params args type result := by
  obtain ⟨form, hform, harray, -⟩ := ha.exists_form
  exact .array (h.not_mem_of_isArray ha) hform harray helement hb

theorem Applies.queries (h : s.Applies definition args type) :
    s.definitionOrSelf type = .ok definition ∧ s.arguments type = .ok args ∧
      s.array? type = .ok none ∧ type < s.size := by
  obtain ⟨form, hform, hdefinition, hargs, harray⟩ := h.exists_form
  exact ⟨by rw [definitionOrSelf_of_form hform, hdefinition]; rfl,
    by rw [arguments_of_form hform, hargs], by rw [array?_of_form hform, harray], form_lt hform⟩

/-- A type whose definition has parameters is that definition applied to its arguments. -/
theorem applies_of_definitionOrSelf (hs : s.Coherent) (hd : s.Defines definition params)
    (hlt : type < s.size) (h : s.definitionOrSelf type = .ok definition)
    (hargs : s.arguments type = .ok args) : s.Applies definition args type := by
  obtain ⟨form, hform⟩ := form_isSome hlt
  rw [definitionOrSelf_of_form hform, Except.ok.injEq] at h
  rw [arguments_of_form hform, Except.ok.injEq] at hargs
  subst hargs
  cases hdefinition : form.definition? type with
  | some definition' =>
      obtain rfl : definition' = definition := by simpa [hdefinition] using h
      exact hs.applies_of_form hform hdefinition
  | none =>
      obtain rfl : type = definition := by simpa [hdefinition] using h
      obtain ⟨form', hform', hshape⟩ := hd
      obtain rfl := Option.some.inj (hform.symm.trans hform')
      simp [Entry.definition?, hshape] at hdefinition

/-- A type that has the definition of a type that is no array is no array. -/
theorem array?_of_definitionOrSelf (hs : s.Coherent) (h : s.definitionOrSelf type = .ok definition)
    (h' : s.definitionOrSelf type' = .ok definition) (harray : s.array? type' = .ok none) :
    s.array? type = .ok none := by
  have hexists : ∀ {t}, s.definitionOrSelf t = .ok definition →
      ∃ form, s.form t = some form ∧ (form.definition? t).getD t = definition := by
    intro t ht
    obtain ⟨_, hdefinition, -⟩ := Query.bind_eq_ok.mp ht
    obtain ⟨entry, hentry, -⟩ := Query.bind_eq_ok.mp hdefinition
    have hform : s.form t = some entry.form := form_of_entry (entry_eq_ok.mp hentry)
    exact ⟨_, hform, Except.ok.inj ((definitionOrSelf_of_form hform).symm.trans ht)⟩
  obtain ⟨form, hform, hd⟩ := hexists h
  obtain ⟨form', hform', hd'⟩ := hexists h'
  rw [array?_of_form hform]
  cases hshape : form.array? with
  | none => rfl
  | some shape =>
      -- An array is its own definition, and nobody else's.
      obtain ⟨_, hself, -, hnone⟩ := (isArray_of_form hform hshape).exists_form
      obtain rfl := Option.some.inj (hform.symm.trans hself)
      rw [hnone, Option.getD_none] at hd
      subst hd
      cases hother : form'.definition? type' with
      | none =>
          rw [hother, Option.getD_none] at hd'
          subst hd'
          rw [array?_of_form hform, hshape] at harray
          cases harray
      | some definition =>
          rw [hother, Option.getD_some] at hd'
          subst hd'
          obtain ⟨_, ⟨dform, hdform, hdshape⟩, -⟩ := hs.applies_of_form hform' hother
          obtain rfl := Option.some.inj (hform.symm.trans hdform)
          simp [Entry.array?, hdshape] at hshape

theorem array?_of_isArray (h : s.IsArray element rank type) :
    s.array? type = .ok (some (element, rank)) := by
  obtain ⟨form, hform, harray, -⟩ := h.exists_form
  rw [array?_of_form hform, harray]

theorem isArray_of_array? {shape : Handle × Nat} (h : s.array? type = .ok (some shape)) :
    s.IsArray shape.1 shape.2 type := by
  obtain ⟨entry, hentry, hshape⟩ := Query.bind_eq_ok.mp h
  refine isArray_of_form (form_of_entry (entry_eq_ok.mp hentry)) ?_
  rw [Entry.form_array?]
  exact Query.pure_eq_ok.mp hshape

/-- A type without type parameters is no array, applies no definition and has no arguments. -/
theorem IsNamed.queries (h : s.IsNamed type) :
    s.array? type = .ok none ∧ s.definitionOrSelf type = .ok type ∧
      s.arguments type = .ok [] ∧ type < s.size := by
  obtain ⟨form, hform, hshape⟩ := h
  rw [array?_of_form hform, definitionOrSelf_of_form hform, arguments_of_form hform]
  refine ⟨by rw [Entry.array?, hshape], ?_, by rw [Entry.arguments, hshape], form_lt hform⟩
  rw [Entry.definition?, hshape]
  rfl

end Built

section Inversion

variable {atomic : Bool} {type result : Handle} {form : Entry}

theorem mem_of_idxOf?_eq_some {position : Nat} (h : params.idxOf? type = some position) :
    type ∈ params := by
  by_contra hmem
  rw [List.idxOf?_eq_none_iff.mpr hmem] at h
  cases h

theorem Replaced.of_application (h : s.Replaced atomic params args type result)
    (hfree : type ∉ params) (hform : s.form type = some form) {definition : Handle}
    (hdefinition : form.definition? type = some definition)
    (hatomic : atomic = true → definition ≠ type) :
    ∃ parts, form.arguments.length = parts.length ∧
      (∀ (i : Nat) a b, form.arguments[i]? = some a → parts[i]? = some b →
        s.Replaced atomic params args a b) ∧ s.Applies definition parts result := by
  cases h with
  | bound hposition _ => exact absurd (mem_of_idxOf?_eq_some hposition) hfree
  | application _ hform' hdefinition' _ hlength hparts hresult =>
      obtain rfl := Option.some.inj (hform.symm.trans hform')
      obtain rfl := Option.some.inj (hdefinition.symm.trans hdefinition')
      exact ⟨_, hlength, hparts, hresult⟩
  | array _ hform' harray _ _ =>
      obtain rfl := Option.some.inj (hform.symm.trans hform')
      rw [array?_of_definition? hdefinition] at harray
      cases harray
  | leaf _ hform' _ hdefinition' =>
      obtain rfl := Option.some.inj (hform.symm.trans hform')
      rw [hdefinition] at hdefinition'
      rcases hdefinition' with hnone | ⟨hat, hself⟩
      · cases hnone
      · exact absurd (Option.some.inj hself) (hatomic hat)

theorem Replaced.of_array (h : s.Replaced atomic params args type result)
    (hfree : type ∉ params) (hform : s.form type = some form) {element : Handle} {rank : Nat}
    (harray : form.array? = some (element, rank)) :
    ∃ part, s.Replaced atomic params args element part ∧ s.IsArray part rank result := by
  cases h with
  | bound hposition _ => exact absurd (mem_of_idxOf?_eq_some hposition) hfree
  | application _ hform' hdefinition _ _ _ _ =>
      obtain rfl := Option.some.inj (hform.symm.trans hform')
      rw [array?_of_definition? hdefinition] at harray
      cases harray
  | array _ hform' harray' hpart hresult =>
      obtain rfl := Option.some.inj (hform.symm.trans hform')
      obtain ⟨rfl, rfl⟩ := Prod.mk.inj (Option.some.inj (harray.symm.trans harray'))
      exact ⟨_, hpart, hresult⟩
  | leaf _ hform' hnone _ =>
      obtain rfl := Option.some.inj (hform.symm.trans hform')
      rw [harray] at hnone
      cases hnone

theorem Replaced.of_leaf (h : s.Replaced atomic params args type result) (hfree : type ∉ params)
    (hform : s.form type = some form) (harray : form.array? = none)
    (hdefinition : form.definition? type = none ∨
      atomic = true ∧ form.definition? type = some type) : result = type := by
  cases h with
  | bound hposition _ => exact absurd (mem_of_idxOf?_eq_some hposition) hfree
  | application _ hform' hdefinition' hatomic _ _ _ =>
      obtain rfl := Option.some.inj (hform.symm.trans hform')
      rw [hdefinition'] at hdefinition
      rcases hdefinition with hnone | ⟨hat, hself⟩
      · cases hnone
      · exact absurd (Option.some.inj hself) (hatomic hat)
  | array _ hform' harray' _ _ =>
      obtain rfl := Option.some.inj (hform.symm.trans hform')
      rw [harray] at harray'
      cases harray'
  | leaf _ _ _ _ => rfl

theorem Replaced.of_bound (h : s.Replaced atomic params args type result) {position : Nat}
    (hposition : params.idxOf? type = some position) : args[position]? = some result := by
  have hmem := mem_of_idxOf?_eq_some hposition
  cases h with
  | bound hposition' harg =>
      obtain rfl := Option.some.inj (hposition.symm.trans hposition')
      exact harg
  | application hfree _ _ _ _ _ _ => exact absurd hmem hfree
  | array hfree _ _ _ _ => exact absurd hmem hfree
  | leaf hfree _ _ _ => exact absurd hmem hfree

/-- There is only one result of putting in arguments. -/
theorem Replaced.functional (hs : s.Coherent) {result' : Handle}
    (h : s.Replaced atomic params args type result)
    (h' : s.Replaced atomic params args type result') : result = result' := by
  induction h generalizing result' with
  | bound hposition harg => exact Option.some.inj (harg.symm.trans (h'.of_bound hposition))
  | application hfree hform hdefinition hatomic hlength _ hresult ih =>
      obtain ⟨parts', hlength', hparts', hresult'⟩ :=
        h'.of_application hfree hform hdefinition hatomic
      obtain rfl := eq_of_getElem? (hlength.symm.trans hlength') fun i b b' hb hb' => by
        obtain ⟨a, ha⟩ := getElem?_of_length_eq hlength hb
        exact ih i a b ha hb (hparts' i a b' ha hb')
      exact hs.applies_unique hresult hresult'
  | array hfree hform harray _ hresult ih =>
      obtain ⟨part', hpart', hresult'⟩ := h'.of_array hfree hform harray
      rw [ih hpart'] at hresult
      exact hs.isArray_unique hresult hresult'
  | leaf hfree hform harray hdefinition =>
      exact (h'.of_leaf hfree hform harray hdefinition).symm

end Inversion

/-- A run that replaces keeps the store coherent, only adds to it, and returns the replacement in
the atomic reading. -/
def ReplacesFrom (params args : List Handle) (s : Store) (type result : Handle) (s' : Store) :
    Prop :=
  s'.Coherent ∧ Grown s s' ∧ result < s'.size ∧ s'.Replaced true params args type result

theorem mapM_replaces {f : Handle → StoreM Handle}
    (hf : ∀ s type result s', s.Coherent → (∀ a ∈ args, a < s.size) →
      (f type).run s = .ok (result, s') → ReplacesFrom params args s type result s')
    {types results : List Handle} (hs : s.Coherent) (hargs : ∀ a ∈ args, a < s.size)
    (hrun : (types.mapM f).run s = .ok (results, s')) :
    s'.Coherent ∧ Grown s s' ∧
      List.Forall₂ (fun type result => result < s'.size ∧ s'.Replaced true params args type result)
        types results := by
  induction types generalizing s results with
  | nil =>
      obtain ⟨rfl, rfl⟩ := run_pure_eq_ok.mp hrun
      exact ⟨hs, Grown.refl s, List.Forall₂.nil⟩
  | cons type types ih =>
      rw [List.mapM_cons] at hrun
      obtain ⟨result, t, hhead, hrun⟩ := run_bind_eq_ok.mp hrun
      obtain ⟨rest, t', htail, hrun⟩ := run_bind_eq_ok.mp hrun
      obtain ⟨rfl, rfl⟩ := run_pure_eq_ok.mp hrun
      obtain ⟨hct, hgt, hlt, hrt⟩ := hf s type result t hs hargs hhead
      obtain ⟨hct', hgt', hall⟩ := ih hct (fun a ha => hgt.lt (hargs a ha)) htail
      exact ⟨hct', hgt.trans hgt', List.Forall₂.cons ⟨hgt'.lt hlt, hrt.mono hgt'.extends⟩ hall⟩

theorem substituteWithin_run {height : Nat} {type result : Handle} (hs : s.Coherent)
    (hargs : ∀ a ∈ args, a < s.size)
    (hrun : (substituteWithin params args height type).run s = .ok (result, s')) :
    ReplacesFrom params args s type result s' := by
  induction height generalizing s s' type result with
  | zero => cases hrun
  | succ height ih =>
      unfold substituteWithin at hrun
      split at hrun
      · next position hposition =>
          split at hrun
          · next arg harg =>
              obtain ⟨rfl, rfl⟩ := run_pure_eq_ok.mp hrun
              exact ⟨hs, Grown.refl s, hargs arg (List.mem_of_getElem? harg),
                .bound hposition harg⟩
          · cases hrun
      · next hnone =>
          have hfree : type ∉ params := List.idxOf?_eq_none_iff.mp hnone
          obtain ⟨_, _, hget, hrun⟩ := run_bind_eq_ok.mp hrun
          cases hget
          obtain ⟨entry, _, hread, hrun⟩ := run_bind_eq_ok.mp hrun
          obtain ⟨hentry, rfl⟩ := run_lift_eq_ok.mp hread
          have hform : s.form type = some entry.form := form_of_entry (entry_eq_ok.mp hentry)
          split at hrun
          · next definition inner hshape =>
              have hshape' := Entry.form_shape_eq_instantiation.mpr hshape
              have hdef : entry.form.definition? type = some definition := by
                simp [Entry.definition?, hshape']
              have hinner : entry.form.arguments = inner := by simp [Entry.arguments, hshape']
              obtain ⟨⟨params', hd, hlen, -⟩, hlt, -⟩ := hs.instantiation hform hshape'
              obtain ⟨replaced, t, hmap, hrun⟩ := run_bind_eq_ok.mp hrun
              obtain ⟨hct, hgt, hall⟩ := mapM_replaces (fun _ _ _ _ => ih) hs hargs hmap
              have hreplaced : ∀ (i : Nat) a b, entry.form.arguments[i]? = some a →
                  replaced[i]? = some b → t.Replaced true params args a b := by
                intro i a b ha hb
                rw [hinner] at ha
                exact ((forall₂_iff_getElem?.mp hall).2 i a b ha hb).2
              split at hrun
              · next hsame =>
                  obtain ⟨rfl, rfl⟩ := run_pure_eq_ok.mp hrun
                  refine ⟨hct, hgt, hgt.lt (form_lt hform), .application hfree
                    (hgt.extends.forms hform) hdef (fun _ => Nat.ne_of_lt hlt)
                    (hinner ▸ hall.length_eq) hreplaced ?_⟩
                  rw [hsame]
                  exact hgt.extends.applies (hs.applies_self hform hshape')
              · obtain ⟨hcu, hgu, hlu, happ⟩ := internInstance_run hct hrun
                refine ⟨hcu, hgt.trans hgu, hlu, .application hfree
                  ((hgt.trans hgu).extends.forms hform) hdef (fun _ => Nat.ne_of_lt hlt)
                  (hinner ▸ hall.length_eq) (fun i a b ha hb =>
                    (hreplaced i a b ha hb).mono hgu.extends) ?_⟩
                exact happ params' (hgt.extends.defines hd) (hlen.trans hall.length_eq)
          · next element rank hshape =>
              have hshape' := Entry.form_shape_eq_array.mpr hshape
              have harray : entry.form.array? = some (element, rank) := by
                simp [Entry.array?, hshape']
              obtain ⟨replaced, t, hpart, hrun⟩ := run_bind_eq_ok.mp hrun
              obtain ⟨hct, hgt, hlt, hrt⟩ := ih hs hargs hpart
              split at hrun
              · next hsame =>
                  obtain ⟨rfl, rfl⟩ := run_pure_eq_ok.mp hrun
                  refine ⟨hct, hgt, hgt.lt (form_lt hform), .array hfree
                    (hgt.extends.forms hform) harray hrt ?_⟩
                  rw [hsame]
                  exact ⟨_, hgt.extends.forms hform, hshape'⟩
              · obtain ⟨hcu, hgu, hlu, happ⟩ := internArray_run hct hrun
                exact ⟨hcu, hgt.trans hgu, hlu, .array hfree
                  ((hgt.trans hgu).extends.forms hform) harray (hrt.mono hgu.extends) happ⟩
          · next hother₁ hother₂ =>
              obtain ⟨rfl, rfl⟩ := run_pure_eq_ok.mp hrun
              refine ⟨hs, Grown.refl s, form_lt hform, .leaf hfree hform ?_ ?_⟩
              · rw [Entry.form_array?, Entry.array?]
                split
                · next element rank hshape => exact absurd hshape (hother₂ element rank)
                · rfl
              · rw [Entry.form_definition?, Entry.definition?]
                split
                · exact Or.inr ⟨rfl, rfl⟩
                · next definition inner hshape => exact absurd hshape (hother₁ definition inner)
                · exact Or.inl rfl

theorem substitute_run {type result : Handle} (hs : s.Coherent) (hargs : ∀ a ∈ args, a < s.size)
    (hrun : (substitute params args type).run s = .ok (result, s')) :
    ReplacesFrom params args s type result s' :=
  substituteWithin_run hs hargs hrun

end NominalGenerics.Store
