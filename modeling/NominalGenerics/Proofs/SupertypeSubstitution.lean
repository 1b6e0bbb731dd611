import NominalGenerics.Proofs.Store.Reachable

/-!
# Supertypes of instantiations

An instantiation of a finished store has the supertypes of its definition with the arguments put in
for the parameters. Substitution takes a definition that stands for itself as a name without parts.
For the definition being instantiated this is not the definition applied to its own parameters: a
supertype that mentions its own definition keeps it, and is then not the supertype that putting in
the arguments everywhere gives. All other supertypes are.
-/

namespace NominalGenerics.Store

variable {s : Store} {params args : List Handle} {definition type result : Handle}

/-- Parameters of different definitions are different types. -/
theorem Coherent.defines_of_mem (hs : s.Coherent) {other param : Handle} {others : List Handle}
    (hd : s.Defines definition params) (ho : s.Defines other others) (hp : param ∈ params)
    (ho' : param ∈ others) : definition = other := by
  obtain ⟨_, hparam⟩ := hs.paramAt_of_mem hd hp
  obtain ⟨_, hparam'⟩ := hs.paramAt_of_mem ho ho'
  exact ParamOwner.type.inj (hparam.unique hparam').1

/-- The type parameters of one owner are all different. -/
theorem idxOf?_of_paramAt {owner : ParamOwner}
    (h : ∀ (i : Nat) param, params[i]? = some param → s.ParamAt param owner i) {i : Nat}
    {param : Handle} (hi : params[i]? = some param) : params.idxOf? param = some i := by
  obtain ⟨j, hj⟩ : ∃ j, params.idxOf? param = some j := by
    rw [← Option.isSome_iff_exists, List.isSome_idxOf?]
    exact List.mem_of_getElem? hi
  obtain ⟨hlt, hget, -⟩ := List.idxOf?_eq_some_iff.mp hj
  have hparam := h j param (List.getElem?_eq_some_iff.mpr ⟨hlt, hget⟩)
  rw [hj, ((h i param hi).unique hparam).2]

theorem Coherent.idxOf?_param (hs : s.Coherent) (hd : s.Defines definition params) {i : Nat}
    {param : Handle} (hi : params[i]? = some param) : params.idxOf? param = some i := by
  obtain ⟨form, hform, hshape⟩ := hd
  exact idxOf?_of_paramAt (fun _ _ => hs.paramAt hform hshape) hi

/-- The definitions that stand for themselves in `type` have no parameter among `params`. -/
def BareAvoids (store : Store) (params : List Handle) (type : Handle) : Prop :=
  ∀ definition own, store.Defines definition own → store.Mentions definition type →
    ∀ param ∈ own, param ∉ params

theorem BareAvoids.argument {form : Entry} {head arg : Handle} (h : s.BareAvoids params type)
    (hform : s.form type = some form) (hdef : form.definition? type = some head)
    (hne : head ≠ type) (harg : arg ∈ form.arguments) : s.BareAvoids params arg :=
  fun definition own hd hmention => h definition own hd (hmention.of_argument hform hdef hne harg)

theorem BareAvoids.element {form : Entry} {element : Handle} {rank : Nat}
    (h : s.BareAvoids params type) (hform : s.form type = some form)
    (harray : form.array? = some (element, rank)) : s.BareAvoids params element := by
  intro definition own hd hmention
  obtain ⟨form', hform', hshape⟩ := isArray_of_form hform harray
  exact h definition own hd (.element hform' hshape hmention)

/-- A definition whose parameters stay stays itself in both readings. -/
theorem Coherent.replaced_bare (hs : s.Coherent) (hfree : definition ∉ params) {own : List Handle}
    (hd : s.Defines definition own) (hown : ∀ param ∈ own, param ∉ params) :
    s.Replaced false params args definition definition := by
  obtain ⟨form, hform, hshape⟩ := hd
  have hdef : form.definition? definition = some definition := by simp [Entry.definition?, hshape]
  have hargs : form.arguments = own := by simp [Entry.arguments, hshape]
  refine .application hfree hform hdef (by simp) rfl (fun i a b ha hb => ?_)
    (hs.applies_of_form hform hdef)
  obtain rfl : a = b := Option.some.inj (ha.symm.trans hb)
  rw [hargs] at ha
  obtain ⟨pform, hpform, hpdef, hparray⟩ := (hs.paramAt hform hshape ha).exists_form
  exact .leaf (hown a (List.mem_of_getElem? ha)) hpform hparray (Or.inl hpdef)

theorem Coherent.defines_of_definition? (hs : s.Coherent) {form : Entry}
    (hform : s.form type = some form) (hdef : form.definition? type = some type) :
    ∃ own, s.Defines type own := by
  obtain ⟨own, hd, -⟩ := hs.applies_of_form hform hdef
  exact ⟨own, hd⟩

/-- Where the definitions that stand for themselves keep their parameters, the two readings
agree. -/
theorem Replaced.everywhere_of_bareAvoids (hs : s.Coherent)
    (h : s.Replaced true params args type result) (hbare : s.BareAvoids params type) :
    s.Replaced false params args type result := by
  induction h with
  | bound hposition harg => exact .bound hposition harg
  | application hfree hform hdef hatomic hlength _ hresult ih =>
      refine .application hfree hform hdef (by simp) hlength (fun i a b ha hb => ?_) hresult
      exact ih i a b ha hb (hbare.argument hform hdef (hatomic rfl) (List.mem_of_getElem? ha))
  | array hfree hform harray _ hresult ih =>
      exact .array hfree hform harray (ih (hbare.element hform harray)) hresult
  | leaf hfree hform harray hdef =>
      rcases hdef with hnone | ⟨-, hself⟩
      · exact .leaf hfree hform harray (Or.inl hnone)
      · obtain ⟨own, hd⟩ := hs.defines_of_definition? hform hself
        exact hs.replaced_bare hfree hd (hbare _ own hd .self)

/-- Where the instantiated definition is not mentioned, the two readings agree. -/
theorem Replaced.everywhere (hs : s.Coherent) (hd : s.Defines definition params)
    (h : s.Replaced true params args type result) (hfree : ¬ s.Mentions definition type) :
    s.Replaced false params args type result := by
  refine h.everywhere_of_bareAvoids hs fun other own ho hmention param hown hparam => ?_
  obtain rfl := hs.defines_of_mem hd ho hparam hown
  exact hfree hmention

/-- Where the instantiated definition is mentioned, the two readings differ: one keeps it, and the
other applies it to the arguments. -/
theorem Mentions.not_everywhere (hs : s.Coherent) (hd : s.Defines definition params)
    (hlength : params.length = args.length) (hne : params ≠ args)
    (hmention : s.Mentions definition type) (h : s.Replaced true params args type result) :
    ¬ s.Replaced false params args type result := by
  induction hmention generalizing result with
  | self =>
      intro h'
      obtain ⟨form, hform, hshape⟩ := id hd
      have hdef : form.definition? definition = some definition := by
        simp [Entry.definition?, hshape]
      have hfree := (hs.parameters hd).not_mem hform (isParameter_of_definition? hdef)
      obtain rfl := h.of_leaf hfree hform (array?_of_definition? hdef) (Or.inr ⟨rfl, hdef⟩)
      obtain ⟨parts, hlen, hparts, happlies⟩ := h'.of_application hfree hform hdef (by simp)
      have hargs : form.arguments = params := by simp [Entry.arguments, hshape]
      rw [hargs] at hlen hparts
      obtain ⟨-, hself⟩ := happlies.inj (hs.applies_of_form hform hdef)
      rw [hargs] at hself
      subst hself
      refine hne (eq_of_getElem? hlength fun i p a hp ha => ?_)
      have hbound := (hparts i p p hp hp).of_bound (hs.idxOf?_param hd hp)
      exact Option.some.inj (hbound.symm.trans ha)
  | @argument type head arg inner form hform hshape harg _ ih =>
      intro h'
      have hdef : form.definition? type = some head := by simp [Entry.definition?, hshape]
      have hargs : form.arguments = inner := by simp [Entry.arguments, hshape]
      have hfree := (hs.parameters hd).not_mem hform (isParameter_of_definition? hdef)
      have hlt := (hs.instantiation hform hshape).2.1
      obtain ⟨parts, hlen, hparts, happlies⟩ :=
        h.of_application hfree hform hdef fun _ => Nat.ne_of_lt hlt
      obtain ⟨parts', -, hparts', happlies'⟩ := h'.of_application hfree hform hdef (by simp)
      obtain ⟨-, rfl⟩ := happlies.inj happlies'
      rw [hargs] at hlen hparts hparts'
      obtain ⟨i, hi⟩ := List.getElem?_of_mem harg
      obtain ⟨part, hpart⟩ := getElem?_of_length_eq hlen.symm hi
      exact ih (hparts i arg part hi hpart) (hparts' i arg part hi hpart)
  | @element type element rank form hform hshape _ ih =>
      intro h'
      have harray : form.array? = some (element, rank) := by simp [Entry.array?, hshape]
      have hfree := (hs.parameters hd).not_mem hform (isParameter_of_array? harray)
      obtain ⟨part, hpart, hresult⟩ := h.of_array hfree hform harray
      obtain ⟨part', hpart', hresult'⟩ := h'.of_array hfree hform harray
      obtain ⟨rfl, -⟩ := hresult.inj hresult'
      exact ih hpart hpart'

/-- The direct supertypes of an instantiation of a finished store are those declared on its
definition with the arguments put in. They are what putting in the arguments everywhere gives
exactly where the declared supertype does not mention the definition itself. -/
theorem Reachable.supertypes_substituted (hs : s.Reachable) (hfinished : s.finished = true)
    {entry : Entry} (hentry : s.types[type]? = some entry)
    (hshape : entry.shape = .instantiation definition args)
    (hnesting : entry.nesting ≤ maxInstantiationDepth) :
    ∃ declared params, s.types[definition]? = some declared ∧
      declared.shape = .definition params ∧
      List.Forall₂ (fun target result => s.Replaced true params args target result ∧
          (s.Replaced false params args target result ↔ ¬ s.Mentions definition target))
        declared.base.toList entry.base.toList ∧
      List.Forall₂ (fun target result => s.Replaced true params args target result ∧
          (s.Replaced false params args target result ↔ ¬ s.Mentions definition target))
        declared.directInterfaces entry.directInterfaces := by
  have hlawful := hs.lawful
  have hcoherent := hlawful.wellFormed.coherent
  have hform : s.form type = some entry.form := form_eq_some.mpr ⟨entry, hentry, rfl⟩
  have hshape' := Entry.form_shape_eq_instantiation.mpr hshape
  obtain ⟨⟨params, hd, hlength, hne⟩, -⟩ := hcoherent.instantiation hform hshape'
  obtain ⟨dform, hdform, hdshape⟩ := id hd
  obtain ⟨declared, hdeclared, rfl⟩ := form_eq_some.mp hdform
  obtain ⟨hexpanded, -⟩ := (hlawful.finished hfinished).2 type (form_lt hform) entry.form entry.base
    entry.directInterfaces hform (by rw [links, hentry]; rfl)
  obtain ⟨hbase, hinterfaces⟩ := hexpanded definition args params declared.base
    declared.directInterfaces hshape' hnesting hd (by rw [links, hdeclared]; rfl)
  have hexact : ∀ target result, s.Replaced true params args target result →
      s.Replaced true params args target result ∧
        (s.Replaced false params args target result ↔ ¬ s.Mentions definition target) :=
    fun target result h => ⟨h, fun h' hmention =>
      hmention.not_everywhere hcoherent hd hlength hne h h', h.everywhere hcoherent hd⟩
  exact ⟨declared, params, hdeclared, Entry.form_shape_eq_definition.mp hdshape,
    hbase.imp hexact, hinterfaces.imp hexact⟩

/-- A generic node that is comparable with nodes of its own kind, and nodes of integers. -/
def nodeOperations : List Operation :=
  [.declareGeneric .interfaceType "IComparable" [("T", .invariant)],
    .declareGeneric .classType "Node" [("T", .invariant)],
    .instantiate 1 [3],
    .addInterface 3 5,
    .declarePrimitive "int" .i32,
    .finish,
    .instantiate 3 [6]]

/-- The store that `nodeOperations` build. -/
def nodeStore : Store := (Operation.runAll nodeOperations (ofRoot "object")).getD {}

theorem nodeStore_reachable : nodeStore.Reachable :=
  (Reachable.ofRoot "object").runAll
    (by decide +kernel : Operation.runAll nodeOperations (ofRoot "object") = some nodeStore)

/-- Nodes of integers are comparable with nodes, and not with nodes of integers. -/
theorem supertypes_substituted_node :
    nodeStore.types[7]?.map (fun entry => (entry.shape, entry.directInterfaces)) =
        some (.instantiation 3 [6], [5]) ∧
      nodeStore.Replaced true [4] [6] 5 5 ∧ ¬ nodeStore.Replaced false [4] [6] 5 5 := by
  have hnode : nodeStore.types[7]?.map (fun entry =>
      (entry.shape, entry.directInterfaces, entry.nesting)) =
        some (.instantiation 3 [6], [5], 1) := by decide +kernel
  have hdefinition : nodeStore.types[3]?.map (fun entry => (entry.shape, entry.directInterfaces)) =
      some (.definition [4], [5]) := by decide +kernel
  obtain ⟨entry, hentry, hfields⟩ := Option.map_eq_some_iff.mp hnode
  simp only [Prod.mk.injEq] at hfields
  obtain ⟨hshape, hinterfaces, hnesting⟩ := hfields
  obtain ⟨declared, params, hdeclared, hparams, -, hall⟩ :=
    nodeStore_reachable.supertypes_substituted (by decide +kernel) hentry hshape
      (by rw [hnesting]; decide)
  simp only [hdeclared, Option.map_some, Option.some.injEq, Prod.mk.injEq, hparams,
    Shape.definition.injEq] at hdefinition
  obtain ⟨rfl, hdirect⟩ := hdefinition
  rw [hdirect, hinterfaces] at hall
  obtain ⟨hreplaced, hexact⟩ := (List.forall₂_cons.mp hall).1
  refine ⟨by simp [hentry, hshape, hinterfaces], hreplaced, fun h => hexact.mp h ?_⟩
  have hcomparable : (nodeStore.form 5).map (·.shape) = some (.instantiation 1 [3]) := by
    decide +kernel
  obtain ⟨form, hform, hfshape⟩ := Option.map_eq_some_iff.mp hcomparable
  exact .argument hform hfshape (List.mem_singleton.mpr rfl) .self

end NominalGenerics.Store
