import NominalGenerics.Proofs.Store.Reachable

/-!
# Hash-consing

Equality of handles is identity of types because every instantiation and every array is stored once,
under the handle that the tables give for its parts. `Store.HashConsed` states this for the entries
themselves, with what an entry caches: whether the type mentions a type parameter, and its nesting.
Both caches agree with a walk over the type.
-/

namespace NominalGenerics

namespace Query

/-- A search for one element that passes a total test. -/
theorem anyM_of_total {α : Type} {test : α → Query Bool} {p : α → Bool} {as : List α}
    (h : ∀ a ∈ as, test a = .ok (p a)) : as.anyM test = .ok (as.any p) := by
  induction as with
  | nil => rfl
  | cons a as ih =>
      have hrest := ih fun b hb => h b (List.mem_cons_of_mem a hb)
      rw [List.anyM, h a List.mem_cons_self, ok_bind, List.any_cons]
      cases p a with
      | true => rfl
      | false => simpa using hrest

end Query

namespace Store

variable {s : Store} {type : Handle} {form : Entry}

/-- The nesting of a type, found by walking it to the given height: a type that is neither an
instantiation nor an array has none. -/
def nestingWithin (store : Store) : Nat → Handle → Query Nat
  | 0, _ => .error .outOfFuel
  | height + 1, type => do
      match (← store.entry type).shape with
      | .instantiation _ args =>
          return 1 + (← args.mapM (store.nestingWithin height)).foldl max 0
      | .array element _ => return (← store.nestingWithin height element) + 1
      | _ => return 0

/-- The nesting of a type, found by walking it. Parts of a type have smaller handles. -/
def walkedNesting (store : Store) (type : Handle) : Query Nat :=
  store.nestingWithin (type + 1) type

/-- Every instantiation and array is stored once, where the tables say, after its parts; what it
caches agrees with a walk over it. -/
structure HashConsed (store : Store) : Prop where
  /-- No two types are built in the same way. -/
  unique : ∀ {a b : Handle} {entry entry'}, store.types[a]? = some entry →
    store.types[b]? = some entry' → entry.shape = entry'.shape →
    (∃ definition args, entry.shape = .instantiation definition args) ∨
      (∃ element rank, entry.shape = .array element rank) → a = b
  /-- The table of instantiations lists exactly the stored ones. -/
  instances : ∀ definition args type, store.instances.lookup (definition, args) = some type ↔
    ∃ entry, store.types[type]? = some entry ∧ entry.shape = .instantiation definition args
  /-- The table of arrays lists exactly the stored ones. -/
  arrays : ∀ element rank type, store.arrays.lookup (element, rank) = some type ↔
    ∃ entry, store.types[type]? = some entry ∧ entry.shape = .array element rank
  /-- An instantiation applies a definition to as many types as it has parameters, but not to the
  parameters themselves. Its arguments come before it. -/
  instantiation : ∀ {type : Handle} {entry definition args}, store.types[type]? = some entry →
    entry.shape = .instantiation definition args →
    (∃ declared params, store.types[definition]? = some declared ∧
      declared.shape = .definition params ∧ params.length = args.length ∧ params ≠ args) ∧
      ∀ arg ∈ args, arg < type
  /-- Ranks are positive, and the element of an array comes before it. -/
  array : ∀ {type : Handle} {entry element rank}, store.types[type]? = some entry →
    entry.shape = .array element rank → 1 ≤ rank ∧ element < type
  /-- The cached openness is what a walk finds. -/
  isOpen : ∀ {type}, type < store.size →
    ∃ isOpen, store.isOpen type = .ok isOpen ∧ store.mentionsParam type = .ok isOpen
  /-- The cached nesting is what a walk finds. -/
  nesting : ∀ {type : Handle} {entry}, store.types[type]? = some entry →
    store.walkedNesting type = .ok entry.nesting

section Walks

/-- A type parameter mentions itself. -/
theorem mentionsParamWithin_param {owner : ParamOwner} {position : Nat} (height : Nat)
    (h : s.ParamAt type owner position) : s.mentionsParamWithin (height + 1) type = .ok true := by
  obtain ⟨form, info, hform, hshape, -⟩ := h
  obtain ⟨entry, hentry, rfl⟩ := form_eq_some.mp hform
  have hparameter : ∃ info', entry.shape = .parameter info' := by
    cases hentryShape : entry.shape with
    | parameter info' => exact ⟨info', rfl⟩
    | named => simp [Entry.form, hentryShape, Shape.bare] at hshape
    | definition params => simp [Entry.form, hentryShape, Shape.bare] at hshape
    | instantiation definition args => simp [Entry.form, hentryShape, Shape.bare] at hshape
    | array element rank => simp [Entry.form, hentryShape, Shape.bare] at hshape
  obtain ⟨info', hentryShape⟩ := hparameter
  rw [mentionsParamWithin, entry_eq_ok.mpr hentry, Query.ok_bind, hentryShape]
  rfl

/-- Openness of the type that a handle denotes. -/
def openAt (store : Store) (type : Handle) : Bool := (store.form type).any (·.isOpen)

/-- The walk finds the cached openness. Parts have smaller handles, and below a definition there are
only its parameters, so the handle bounds the walk up to one more step. -/
theorem mentionsParamWithin_eq (hs : s.Coherent) {height : Nat} (hform : s.form type = some form)
    (hheight : type + 1 < height) : s.mentionsParamWithin height type = .ok form.isOpen := by
  induction height generalizing type form with
  | zero => exact absurd hheight (Nat.not_lt_zero _)
  | succ height ih =>
      have hbelow : ∀ {part}, part < type → part + 1 < height := fun h =>
        Nat.lt_of_lt_of_le (Nat.succ_lt_succ h) (Nat.le_of_lt_succ hheight)
      obtain ⟨entry, hentry, rfl⟩ := form_eq_some.mp hform
      rw [mentionsParamWithin, entry_eq_ok.mpr hentry, Query.ok_bind]
      cases hshape : entry.shape with
      | parameter info =>
          have hopen : entry.isOpen = true :=
            (hs.parameter hform (Entry.form_shape_of_parameter hshape)).1
          simp [hopen, pure, Except.pure]
      | named =>
          have hclosed : entry.isOpen = false :=
            (hs.named hform (Entry.form_shape_eq_named.mpr hshape)).1
          simp [Entry.arguments, hshape, hclosed, pure, Except.pure]
      | definition params =>
          obtain ⟨hopen, -, hparams⟩ :=
            hs.definition hform (Entry.form_shape_eq_definition.mpr hshape)
          -- Every parameter of a definition answers positively.
          have htotal : ∀ param ∈ params, s.mentionsParamWithin height param = .ok true := by
            intro param hparam
            obtain ⟨i, hi⟩ := List.getElem?_of_mem hparam
            obtain ⟨rest, rfl⟩ : ∃ rest, height = rest + 1 := Nat.exists_eq_succ_of_ne_zero
              (Nat.ne_of_gt (Nat.lt_of_lt_of_le (Nat.succ_pos _) (Nat.le_of_lt_succ hheight)))
            exact mentionsParamWithin_param rest (hparams i param hi)
          have hany := Query.anyM_of_total htotal
          simp only [Entry.arguments, hshape]
          rw [hany, hopen]
          cases params with
          | nil => rfl
          | cons param rest => rfl
      | instantiation definition args =>
          obtain ⟨-, -, parts, hparts, hopen, -⟩ :=
            hs.instantiation hform (Entry.form_shape_eq_instantiation.mpr hshape)
          have htotal : ∀ arg ∈ args, s.mentionsParamWithin height arg = .ok (s.openAt arg) := by
            intro arg harg
            obtain ⟨part, -, hlt, hpart⟩ := mem_of_forall₂ hparts harg
            rw [ih hpart (hbelow hlt), openAt, hpart]
            rfl
          have hparts' : args.any s.openAt = parts.any (·.isOpen) := by
            clear htotal hopen hshape
            induction hparts with
            | nil => rfl
            | cons hpart _ ihparts => simp [List.any_cons, ihparts, openAt, hpart.2]
          simp only [Entry.arguments, hshape]
          rw [Query.anyM_of_total htotal, hparts', hopen]
      | array element rank =>
          obtain ⟨-, hlt, part, hpart, hopen, -⟩ :=
            hs.array hform (Entry.form_shape_eq_array.mpr hshape)
          dsimp only
          rw [ih hpart (hbelow hlt), hopen]

theorem nestingWithin_eq (hs : s.Coherent) {height : Nat} (hform : s.form type = some form)
    (hheight : type < height) : s.nestingWithin height type = .ok form.nesting := by
  induction height generalizing type form with
  | zero => exact absurd hheight (Nat.not_lt_zero _)
  | succ height ih =>
      have hbelow : ∀ {part}, part < type → part < height := fun h =>
        Nat.lt_of_lt_of_le h (Nat.le_of_lt_succ hheight)
      obtain ⟨entry, hentry, rfl⟩ := form_eq_some.mp hform
      rw [nestingWithin, entry_eq_ok.mpr hentry, Query.ok_bind]
      cases hshape : entry.shape with
      | parameter info =>
          have hflat : entry.nesting = 0 :=
            (hs.parameter hform (Entry.form_shape_of_parameter hshape)).2.1
          simp [hflat, pure, Except.pure]
      | named =>
          have hflat : entry.nesting = 0 :=
            (hs.named hform (Entry.form_shape_eq_named.mpr hshape)).2
          simp [hflat, pure, Except.pure]
      | definition params =>
          have hflat : entry.nesting = 0 :=
            (hs.definition hform (Entry.form_shape_eq_definition.mpr hshape)).2.1
          simp [hflat, pure, Except.pure]
      | instantiation definition args =>
          obtain ⟨-, -, parts, hparts, -, hnesting⟩ :=
            hs.instantiation hform (Entry.form_shape_eq_instantiation.mpr hshape)
          have hwalk : args.mapM (s.nestingWithin height) = .ok (parts.map (·.nesting)) := by
            rw [Query.mapM_eq_ok, List.forall₂_map_right_iff]
            exact hparts.imp fun arg part hpart => ih hpart.2 (hbelow hpart.1)
          dsimp only
          rw [hwalk, Query.ok_bind, hnesting]
          rfl
      | array element rank =>
          obtain ⟨-, hlt, part, hpart, -, hnesting⟩ :=
            hs.array hform (Entry.form_shape_eq_array.mpr hshape)
          dsimp only
          rw [ih hpart (hbelow hlt), Query.ok_bind, hnesting]
          rfl

end Walks

section Tables

/-- A form of a given shape that does not carry constraints is the form of an entry of that shape. -/
theorem exists_form_instantiation {definition : Handle} {args : List Handle} :
    (∃ form, s.form type = some form ∧ form.shape = .instantiation definition args) ↔
      ∃ entry, s.types[type]? = some entry ∧ entry.shape = .instantiation definition args := by
  constructor
  · rintro ⟨form, hform, hshape⟩
    obtain ⟨entry, hentry, rfl⟩ := form_eq_some.mp hform
    exact ⟨entry, hentry, Entry.form_shape_eq_instantiation.mp hshape⟩
  · rintro ⟨entry, hentry, hshape⟩
    exact ⟨entry.form, form_of_entry hentry, Entry.form_shape_eq_instantiation.mpr hshape⟩

theorem exists_form_array {element : Handle} {rank : Nat} :
    (∃ form, s.form type = some form ∧ form.shape = .array element rank) ↔
      ∃ entry, s.types[type]? = some entry ∧ entry.shape = .array element rank := by
  constructor
  · rintro ⟨form, hform, hshape⟩
    obtain ⟨entry, hentry, rfl⟩ := form_eq_some.mp hform
    exact ⟨entry, hentry, Entry.form_shape_eq_array.mp hshape⟩
  · rintro ⟨entry, hentry, hshape⟩
    exact ⟨entry.form, form_of_entry hentry, Entry.form_shape_eq_array.mpr hshape⟩

end Tables

/-- A coherent store is hash-consed. The tables are functions, so a shape that two handles had would
be listed with both. -/
theorem hashConsed_of_coherent (hs : s.Coherent) : s.HashConsed where
  unique := by
    rintro a b entry entry' ha hb hsame (⟨definition, args, hshape⟩ | ⟨element, rank, hshape⟩)
    · have hlookup := (hs.instances definition args a).mpr
        (exists_form_instantiation.mpr ⟨entry, ha, hshape⟩)
      have hlookup' := (hs.instances definition args b).mpr
        (exists_form_instantiation.mpr ⟨entry', hb, hsame ▸ hshape⟩)
      exact Option.some.inj (hlookup.symm.trans hlookup')
    · have hlookup := (hs.arrays element rank a).mpr
        (exists_form_array.mpr ⟨entry, ha, hshape⟩)
      have hlookup' := (hs.arrays element rank b).mpr
        (exists_form_array.mpr ⟨entry', hb, hsame ▸ hshape⟩)
      exact Option.some.inj (hlookup.symm.trans hlookup')
  instances definition args type :=
    (hs.instances definition args type).trans exists_form_instantiation
  arrays element rank type := (hs.arrays element rank type).trans exists_form_array
  instantiation := by
    intro type entry definition args hentry hshape
    obtain ⟨⟨params, ⟨form, hform, hparams⟩, hlength, hne⟩, -, parts, hparts, -⟩ :=
      hs.instantiation (form_of_entry hentry) (Entry.form_shape_eq_instantiation.mpr hshape)
    obtain ⟨declared, hdeclared, rfl⟩ := form_eq_some.mp hform
    refine ⟨⟨declared, params, hdeclared, Entry.form_shape_eq_definition.mp hparams, hlength, hne⟩,
      fun arg harg => ?_⟩
    obtain ⟨part, -, hlt, -⟩ := mem_of_forall₂ hparts harg
    exact hlt
  array := by
    intro type entry element rank hentry hshape
    obtain ⟨hrank, hlt, -⟩ := hs.array (form_of_entry hentry) (Entry.form_shape_eq_array.mpr hshape)
    exact ⟨hrank, hlt⟩
  isOpen := by
    intro type hlt
    obtain ⟨form, hform⟩ := form_isSome hlt
    exact ⟨form.isOpen, isOpen_of_form hform, mentionsParamWithin_eq hs hform (Nat.succ_lt_succ hlt)⟩
  nesting := by
    intro type entry hentry
    rw [walkedNesting, nestingWithin_eq hs (form_of_entry hentry) (Nat.lt_succ_self type),
      Entry.form_nesting]

/-- Every reachable store is hash-consed. -/
theorem Reachable.hashConsed (hs : s.Reachable) : s.HashConsed :=
  hashConsed_of_coherent hs.lawful.wellFormed.coherent

/-- Rows of arrays of their own parameter, and rows of integers. -/
def rowOperations : List Operation :=
  [.declareGeneric .classType "Row" [("T", .invariant)],
    .arrayOf 2 1,
    .instantiate 1 [3],
    .declarePrimitive "int" .i32,
    .finish,
    .instantiate 1 [5],
    .arrayOf 6 0]

/-- The store that `rowOperations` build. -/
def rowStore : Store := (Operation.runAll rowOperations (ofRoot "object")).getD {}

theorem rowStore_reachable : rowStore.Reachable :=
  (Reachable.ofRoot "object").runAll
    (by decide +kernel : Operation.runAll rowOperations (ofRoot "object") = some rowStore)

/-- Rows of arrays of a parameter are two levels deep and open, by cache and by walk, and only one
handle denotes them. -/
theorem hashConsed_row :
    rowStore.mentionsParam 4 = .ok true ∧ rowStore.walkedNesting 4 = .ok 2 ∧
      ∀ (type : Handle) entry, rowStore.types[type]? = some entry →
        entry.shape = .instantiation 1 [3] → type = 4 := by
  have h := rowStore_reachable.hashConsed
  have hrow : rowStore.types[4]?.map (fun entry => (entry.shape, entry.nesting)) =
      some (.instantiation 1 [3], 2) := by decide +kernel
  obtain ⟨row, hentry, hfields⟩ := Option.map_eq_some_iff.mp hrow
  simp only [Prod.mk.injEq] at hfields
  obtain ⟨hshape, hnesting⟩ := hfields
  refine ⟨?_, ?_, fun type entry htype hsame => ?_⟩
  · obtain ⟨isOpen, hcached, hwalked⟩ := h.isOpen (by decide +kernel : 4 < rowStore.size)
    obtain rfl : true = isOpen := Except.ok.inj
      ((by decide +kernel : rowStore.isOpen 4 = .ok true).symm.trans hcached)
    exact hwalked
  · rw [h.nesting hentry, hnesting]
  · exact h.unique htype hentry (hsame.trans hshape.symm) (Or.inl ⟨1, [3], hsame⟩)

end Store

end NominalGenerics
