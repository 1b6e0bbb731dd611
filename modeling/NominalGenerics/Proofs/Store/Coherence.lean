import NominalGenerics.Proofs.Computation
import NominalGenerics.Store.Closure

/-!
# Coherent stores

What the solver relies on when it takes equality of handles for identity of types concerns only the
way types are built: their shapes, the flag for mentioned type parameters, the nesting, and the two
tables of interned types. `Entry.form` keeps that part of an entry. Supertypes, flags, names and
constraints may change without touching it.

`Store.Coherent` collects the facts about forms. Parts of a type have smaller handles than the type,
recorded openness and nesting agree with the parts, type parameters and their owners refer to each
other, and the tables list exactly the interned types. Since the tables are functions, a coherent
store holds every instantiation and every array at most once.
-/

namespace NominalGenerics

/-- A shape without the constraints of a type parameter. -/
def Shape.bare : Shape → Shape
  | .parameter info => .parameter { info with constraints := [] }
  | shape => shape

namespace Entry

/-- The part of an entry that says how the type is built. -/
def form (entry : Entry) : Entry where
  name := ""
  flags := {}
  shape := entry.shape.bare
  isOpen := entry.isOpen
  nesting := entry.nesting

@[simp] theorem form_isOpen (entry : Entry) : entry.form.isOpen = entry.isOpen := rfl

@[simp] theorem form_nesting (entry : Entry) : entry.form.nesting = entry.nesting := rfl

@[simp] theorem form_array? (entry : Entry) : entry.form.array? = entry.array? := by
  unfold array? form Shape.bare
  cases entry.shape <;> rfl

@[simp] theorem form_definition? (entry : Entry) (self : Handle) :
    entry.form.definition? self = entry.definition? self := by
  unfold definition? form Shape.bare
  cases entry.shape <;> rfl

@[simp] theorem form_arguments (entry : Entry) : entry.form.arguments = entry.arguments := by
  unfold arguments form Shape.bare
  cases entry.shape <;> rfl

@[simp] theorem form_isParameter (entry : Entry) : entry.form.isParameter = entry.isParameter := by
  unfold isParameter form Shape.bare
  cases entry.shape <;> rfl

@[simp] theorem form_shape_eq_named {entry : Entry} :
    entry.form.shape = .named ↔ entry.shape = .named := by
  unfold form Shape.bare
  cases entry.shape <;> simp

@[simp] theorem form_shape_eq_definition {entry : Entry} {params : List Handle} :
    entry.form.shape = .definition params ↔ entry.shape = .definition params := by
  unfold form Shape.bare
  cases entry.shape <;> simp

@[simp] theorem form_shape_eq_instantiation {entry : Entry} {definition : Handle}
    {args : List Handle} :
    entry.form.shape = .instantiation definition args ↔
      entry.shape = .instantiation definition args := by
  unfold form Shape.bare
  cases entry.shape <;> simp

@[simp] theorem form_shape_eq_array {entry : Entry} {element : Handle} {rank : Nat} :
    entry.form.shape = .array element rank ↔ entry.shape = .array element rank := by
  unfold form Shape.bare
  cases entry.shape <;> simp

theorem form_shape_of_parameter {entry : Entry} {info : TypeParam}
    (h : entry.shape = .parameter info) :
    entry.form.shape = .parameter { info with constraints := [] } := by
  rw [form, h]
  rfl

theorem form_param? (entry : Entry) :
    entry.form.param? = entry.param?.map fun info => { info with constraints := [] } := by
  unfold param? form Shape.bare
  cases entry.shape <;> rfl

end Entry

namespace Store

/-- The form of the type that a handle denotes. -/
def form (store : Store) (type : Handle) : Option Entry := store.types[type]?.map Entry.form

/-- The type parameters of a callable. -/
def typeParams? (store : Store) (id : CallableId) : Option (List Handle) :=
  store.callables[id]?.map (·.typeParams)

variable {store s s' : Store}

theorem form_eq_some {type : Handle} {form : Entry} :
    store.form type = some form ↔ ∃ entry, store.types[type]? = some entry ∧ entry.form = form := by
  simp [Store.form]

theorem form_of_entry {type : Handle} {entry : Entry} (h : store.types[type]? = some entry) :
    store.form type = some entry.form := form_eq_some.mpr ⟨entry, h, rfl⟩

theorem form_isSome {type : Handle} (h : type < store.size) : ∃ form, store.form type = some form :=
  ⟨_, form_eq_some.mpr ⟨store.types[type], by simp [size] at h; simp [h], rfl⟩⟩

theorem form_lt {type : Handle} {form : Entry} (h : store.form type = some form) :
    type < store.size := by
  obtain ⟨entry, hentry, -⟩ := form_eq_some.mp h
  exact (Array.getElem?_eq_some_iff.mp hentry).choose

theorem lt_of_entry {type : Handle} {entry : Entry} (h : store.types[type]? = some entry) :
    type < store.size := form_lt (form_of_entry h)

theorem entry_of_lt {type : Handle} (h : type < store.size) :
    ∃ entry, store.types[type]? = some entry :=
  ⟨store.types[type], by simp only [size] at h; simp [h]⟩

theorem entry_eq_ok {type : Handle} {entry : Entry} :
    store.entry type = .ok entry ↔ store.types[type]? = some entry := by
  unfold Store.entry
  cases store.types[type]? <;> simp

section Queries

variable {type : Handle} {form : Entry}

/-- A query that reads one field of an entry is answered by the entry. -/
theorem query_of_entry {α : Type} {entry : Entry} (h : store.types[type]? = some entry)
    (field : Entry → α) : (return field (← store.entry type) : Query α) = .ok (field entry) := by
  rw [entry_eq_ok.mpr h]
  rfl

theorem array?_of_form (h : store.form type = some form) : store.array? type = .ok form.array? := by
  obtain ⟨entry, hentry, rfl⟩ := form_eq_some.mp h
  rw [Entry.form_array?]
  exact query_of_entry hentry (·.array?)

theorem definition?_of_form (h : store.form type = some form) :
    store.definition? type = .ok (form.definition? type) := by
  obtain ⟨entry, hentry, rfl⟩ := form_eq_some.mp h
  rw [Entry.form_definition?]
  exact query_of_entry hentry (·.definition? type)

theorem definitionOrSelf_of_form (h : store.form type = some form) :
    store.definitionOrSelf type = .ok ((form.definition? type).getD type) := by
  rw [Store.definitionOrSelf, definition?_of_form h]
  rfl

theorem arguments_of_form (h : store.form type = some form) :
    store.arguments type = .ok form.arguments := by
  obtain ⟨entry, hentry, rfl⟩ := form_eq_some.mp h
  rw [Entry.form_arguments]
  exact query_of_entry hentry (·.arguments)

theorem isOpen_of_form (h : store.form type = some form) : store.isOpen type = .ok form.isOpen := by
  obtain ⟨entry, hentry, rfl⟩ := form_eq_some.mp h
  exact query_of_entry hentry (·.isOpen)

end Queries

/-- A definition with the given type parameters. -/
def Defines (store : Store) (type : Handle) (params : List Handle) : Prop :=
  ∃ form, store.form type = some form ∧ form.shape = .definition params

/-- A type parameter with a given owner and place. -/
def ParamAt (store : Store) (type : Handle) (owner : ParamOwner) (position : Nat) : Prop :=
  ∃ form info, store.form type = some form ∧ form.shape = .parameter info ∧
    info.owner = owner ∧ info.position = position

/-- The owner lists `type` among its type parameters at `position`. -/
def Lists (store : Store) (owner : ParamOwner) (position : Nat) (type : Handle) : Prop :=
  match owner with
  | .type definition => ∃ params, store.Defines definition params ∧ params[position]? = some type
  | .callable id => ∃ params, store.typeParams? id = some params ∧ params[position]? = some type

/-- What a form says about the type `self` agrees with the forms of the parts of `self`. -/
def FormCoherent (store : Store) (self : Handle) (form : Entry) : Prop :=
  match form.shape with
  | .named => form.isOpen = false ∧ form.nesting = 0
  | .parameter info =>
      form.isOpen = true ∧ form.nesting = 0 ∧ store.Lists info.owner info.position self
  | .definition params =>
      form.isOpen = !params.isEmpty ∧ form.nesting = 0 ∧
        ∀ i p, params[i]? = some p → store.ParamAt p (.type self) i
  | .instantiation definition args =>
      (∃ params, store.Defines definition params ∧ params.length = args.length ∧ params ≠ args) ∧
        definition < self ∧
        ∃ parts, List.Forall₂ (fun a part => a < self ∧ store.form a = some part) args parts ∧
          form.isOpen = parts.any (·.isOpen) ∧
          form.nesting = 1 + (parts.map (·.nesting)).foldl max 0
  | .array element rank =>
      1 ≤ rank ∧ element < self ∧
        ∃ part, store.form element = some part ∧
          form.isOpen = part.isOpen ∧ form.nesting = part.nesting + 1

/-- The forms of a store fit together, and its tables list exactly the interned types. -/
structure Coherent (store : Store) : Prop where
  forms : ∀ {type form}, store.form type = some form → store.FormCoherent type form
  instances : ∀ definition args type,
    store.instances.lookup (definition, args) = some type ↔
      ∃ form, store.form type = some form ∧ form.shape = .instantiation definition args
  arrays : ∀ element rank type,
    store.arrays.lookup (element, rank) = some type ↔
      ∃ form, store.form type = some form ∧ form.shape = .array element rank
  callables : ∀ {id signature}, store.callables[id]? = some signature →
    signature.id = id ∧
      ∀ i p, signature.typeParams[i]? = some p → store.ParamAt p (.callable id) i
  root : store.root = 0 ∧ ∃ form, store.form 0 = some form ∧ form.shape = .named

/-- `s'` keeps the forms and the type parameters of callables of `s`. -/
structure Extends (s s' : Store) : Prop where
  forms : ∀ {type form}, s.form type = some form → s'.form type = some form
  typeParams : ∀ {id params}, s.typeParams? id = some params → s'.typeParams? id = some params

namespace Extends

theorem refl (s : Store) : Extends s s := ⟨id, id⟩

theorem trans {a b c : Store} (hab : Extends a b) (hbc : Extends b c) : Extends a c :=
  ⟨fun h => hbc.forms (hab.forms h), fun h => hbc.typeParams (hab.typeParams h)⟩

theorem defines (h : Extends s s') {type : Handle} {params : List Handle}
    (hd : s.Defines type params) : s'.Defines type params := by
  obtain ⟨form, hform, hshape⟩ := hd
  exact ⟨form, h.forms hform, hshape⟩

theorem paramAt (h : Extends s s') {type : Handle} {owner : ParamOwner} {position : Nat}
    (hp : s.ParamAt type owner position) : s'.ParamAt type owner position := by
  obtain ⟨form, info, hform, hrest⟩ := hp
  exact ⟨form, info, h.forms hform, hrest⟩

theorem lists (h : Extends s s') {type : Handle} {owner : ParamOwner} {position : Nat}
    (hl : s.Lists owner position type) : s'.Lists owner position type := by
  cases owner with
  | type definition =>
      obtain ⟨params, hparams, hp⟩ := hl
      exact ⟨params, h.defines hparams, hp⟩
  | callable id =>
      obtain ⟨params, hparams, hp⟩ := hl
      exact ⟨params, h.typeParams hparams, hp⟩

theorem formCoherent (h : Extends s s') {self : Handle} {form : Entry}
    (hf : s.FormCoherent self form) : s'.FormCoherent self form := by
  unfold FormCoherent at hf ⊢
  split at hf <;> rename_i hshape
  · exact hf
  · exact ⟨hf.1, hf.2.1, h.lists hf.2.2⟩
  · exact ⟨hf.1, hf.2.1, fun i p hp => h.paramAt (hf.2.2 i p hp)⟩
  · obtain ⟨⟨params, hparams, hne⟩, hlt, parts, hparts, hrest⟩ := hf
    refine ⟨⟨params, h.defines hparams, hne⟩, hlt, parts, ?_, hrest⟩
    exact hparts.imp fun _ _ hpart => ⟨hpart.1, h.forms hpart.2⟩
  · obtain ⟨hrank, hlt, part, hpart, hrest⟩ := hf
    exact ⟨hrank, hlt, part, h.forms hpart, hrest⟩

end Extends

/-- `s'` differs from `s` only outside the forms, the tables and the type parameters. -/
structure SameForms (s s' : Store) : Prop where
  forms : ∀ type, s'.form type = s.form type
  instances : s'.instances = s.instances
  arrays : s'.arrays = s.arrays
  callables : ∀ id : CallableId,
    s'.callables[id]?.map (fun g => (g.id, g.typeParams)) =
      s.callables[id]?.map (fun g => (g.id, g.typeParams))
  root : s'.root = s.root

namespace SameForms

theorem refl (s : Store) : SameForms s s := ⟨fun _ => rfl, rfl, rfl, fun _ => rfl, rfl⟩

theorem trans {a b c : Store} (hab : SameForms a b) (hbc : SameForms b c) : SameForms a c :=
  ⟨fun t => (hbc.forms t).trans (hab.forms t), hbc.instances.trans hab.instances,
    hbc.arrays.trans hab.arrays, fun i => (hbc.callables i).trans (hab.callables i),
    hbc.root.trans hab.root⟩

theorem «extends» (h : SameForms s s') : Extends s s' where
  forms := by
    intro type form hform
    rw [h.forms, hform]
  typeParams := by
    intro id params hparams
    have := congrArg (Option.map Prod.snd) (h.callables id)
    simp only [Option.map_map, Function.comp_def] at this
    rw [typeParams?, this]
    exact hparams

theorem coherent (h : SameForms s s') (hs : s.Coherent) : s'.Coherent where
  forms := by
    intro type form hform
    rw [h.forms] at hform
    exact h.extends.formCoherent (hs.forms hform)
  instances := by
    intro definition args type
    rw [h.instances, h.forms]
    exact hs.instances definition args type
  arrays := by
    intro element rank type
    rw [h.arrays, h.forms]
    exact hs.arrays element rank type
  callables := by
    intro id signature hsig
    have hmap := h.callables id
    rw [hsig, Option.map_some, eq_comm, Option.map_eq_some_iff] at hmap
    obtain ⟨signature', hsig', heq⟩ := hmap
    obtain ⟨hid, hparams⟩ := Prod.mk.inj heq
    obtain ⟨hid', hparams'⟩ := hs.callables hsig'
    rw [← hid, ← hparams]
    exact ⟨hid', fun i p hp => h.extends.paramAt (hparams' i p hp)⟩
  root := by
    obtain ⟨hroot, form, hform, hshape⟩ := hs.root
    exact ⟨h.root.trans hroot, form, h.extends.forms hform, hshape⟩

theorem size (h : SameForms s s') : s'.size = s.size := by
  have hiff : ∀ type, type < s'.size ↔ type < s.size := by
    intro type
    constructor <;> intro hlt
    · obtain ⟨form, hform⟩ := form_isSome hlt
      exact form_lt ((h.forms type).symm.trans hform)
    · obtain ⟨form, hform⟩ := form_isSome hlt
      exact form_lt ((h.forms type).trans hform)
  exact Nat.le_antisymm (Nat.le_of_not_lt fun hlt => Nat.lt_irrefl _ ((hiff _).mp hlt))
    (Nat.le_of_not_lt fun hlt => Nat.lt_irrefl _ ((hiff _).mpr hlt))

end SameForms

/-- The supertypes that an entry records are types of the store. -/
structure LinksInRange (store : Store) (entry : Entry) : Prop where
  base : ∀ target, entry.base = some target → target < store.size
  directInterfaces : ∀ target ∈ entry.directInterfaces, target < store.size
  interfaces : ∀ target ∈ entry.interfaces, target < store.size

/-- The types that a signature mentions are types of the store. -/
structure SignatureInRange (store : Store) (signature : Signature) : Prop where
  params : ∀ param ∈ signature.params, param.type < store.size
  returns : ∀ type, signature.returns = some type → type < store.size
  declaringType : ∀ type, signature.declaringType = some type → type < store.size

/-- Every handle that a store records denotes a type. -/
structure InRange (store : Store) : Prop where
  links : ∀ {type : Handle} {entry}, store.types[type]? = some entry → store.LinksInRange entry
  signatures : ∀ {id : CallableId} {signature}, store.callables[id]? = some signature →
    store.SignatureInRange signature
  pending : ∀ type ∈ store.pending, type < store.size
  valueTypeRoot : ∀ type, store.valueTypeRoot = some type → type < store.size
  arrayRoot : ∀ type, store.arrayRoot = some type → type < store.size

theorem LinksInRange.mono (h : s.size ≤ s'.size) {entry : Entry} (hl : s.LinksInRange entry) :
    s'.LinksInRange entry :=
  ⟨fun t ht => Nat.lt_of_lt_of_le (hl.base t ht) h,
    fun t ht => Nat.lt_of_lt_of_le (hl.directInterfaces t ht) h,
    fun t ht => Nat.lt_of_lt_of_le (hl.interfaces t ht) h⟩

theorem SignatureInRange.mono (h : s.size ≤ s'.size) {signature : Signature}
    (hg : s.SignatureInRange signature) : s'.SignatureInRange signature :=
  ⟨fun p hp => Nat.lt_of_lt_of_le (hg.params p hp) h,
    fun t ht => Nat.lt_of_lt_of_le (hg.returns t ht) h,
    fun t ht => Nat.lt_of_lt_of_le (hg.declaringType t ht) h⟩

end Store

end NominalGenerics
