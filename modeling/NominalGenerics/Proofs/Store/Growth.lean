import NominalGenerics.Proofs.Store.Coherence

/-!
# Growth by interning

Interning an instantiation or an array either finds it or adds it at the end of the store, where it
waits for its supertypes. `Store.Grown` is what any number of such steps can do to a store: the old
entries stay as they are and the new ones wait in the order in which they were added.
-/

namespace NominalGenerics

/-- An entry as interning adds it: an instantiation or an array without supertypes. -/
structure Entry.Fresh (entry : Entry) : Prop where
  isInterned : (∃ definition args, entry.shape = .instantiation definition args) ∨
    ∃ element rank, entry.shape = .array element rank
  base : entry.base = none
  directInterfaces : entry.directInterfaces = []
  interfaces : entry.interfaces = []
  closed : entry.closed = false
  underlying : entry.underlying = none

namespace Store

variable {s s' : Store}

/-- `s'` is `s` with some new instantiations and arrays, all of them pending. -/
structure Grown (s s' : Store) : Prop where
  types : ∃ new : Array Entry, s'.types = s.types ++ new ∧ (∀ entry ∈ new, entry.Fresh) ∧
    s'.pending = (List.range' s.size new.size).reverse ++ s.pending
  callables : s'.callables = s.callables
  root : s'.root = s.root
  valueTypeRoot : s'.valueTypeRoot = s.valueTypeRoot
  arrayRoot : s'.arrayRoot = s.arrayRoot
  optionalWrapper : s'.optionalWrapper = s.optionalWrapper
  sequenceInterfaces : s'.sequenceInterfaces = s.sequenceInterfaces
  finished : s'.finished = s.finished

namespace Grown

theorem refl (s : Store) : Grown s s :=
  ⟨⟨#[], by simp, by simp, by simp⟩, rfl, rfl, rfl, rfl, rfl, rfl, rfl⟩

theorem trans {a b c : Store} (hab : Grown a b) (hbc : Grown b c) : Grown a c := by
  obtain ⟨new, htypes, hfresh, hpending⟩ := hab.types
  obtain ⟨new', htypes', hfresh', hpending'⟩ := hbc.types
  refine ⟨⟨new ++ new', ?_, ?_, ?_⟩, hbc.callables.trans hab.callables, hbc.root.trans hab.root,
    hbc.valueTypeRoot.trans hab.valueTypeRoot, hbc.arrayRoot.trans hab.arrayRoot,
    hbc.optionalWrapper.trans hab.optionalWrapper,
    hbc.sequenceInterfaces.trans hab.sequenceInterfaces, hbc.finished.trans hab.finished⟩
  · rw [htypes', htypes, Array.append_assoc]
  · intro entry hentry
    rcases Array.mem_append.mp hentry with h | h
    · exact hfresh entry h
    · exact hfresh' entry h
  · have hsize : b.size = a.size + new.size := by simp [size, htypes]
    rw [hpending', hpending, hsize, Array.size_append, ← List.append_assoc, ← List.reverse_append,
      List.range'_append_1]

theorem getElem? (h : Grown s s') {type : Handle} (ht : type < s.size) :
    s'.types[type]? = s.types[type]? := by
  obtain ⟨new, htypes, -⟩ := h.types
  rw [htypes, Array.getElem?_append_left ht]

theorem size_le (h : Grown s s') : s.size ≤ s'.size := by
  obtain ⟨new, htypes, -⟩ := h.types
  simp [size, htypes]

theorem lt (h : Grown s s') {type : Handle} (ht : type < s.size) : type < s'.size :=
  Nat.lt_of_lt_of_le ht h.size_le

theorem entry (h : Grown s s') {type : Handle} {entry : Entry}
    (he : s.types[type]? = some entry) : s'.types[type]? = some entry := by
  rw [h.getElem? (Array.getElem?_eq_some_iff.mp he).choose, he]

/-- An entry of the grown store is old or fresh and pending. -/
theorem old_or_fresh (h : Grown s s') {type : Handle} {entry : Entry}
    (he : s'.types[type]? = some entry) :
    s.types[type]? = some entry ∨ (s.size ≤ type ∧ entry.Fresh ∧ type ∈ s'.pending) := by
  obtain ⟨new, htypes, hfresh, hpending⟩ := h.types
  by_cases ht : type < s.size
  · exact Or.inl (by rw [← h.getElem? ht, he])
  · have hle : s.size ≤ type := Nat.le_of_not_lt ht
    have hnew : new[type - s.size]? = some entry := by
      rw [htypes, Array.getElem?_append_right hle] at he
      exact he
    have hlt : type - s.size < new.size := (Array.getElem?_eq_some_iff.mp hnew).choose
    refine Or.inr ⟨hle, hfresh entry (Array.mem_of_getElem? hnew), ?_⟩
    rw [hpending]
    refine List.mem_append_left _ (List.mem_reverse.mpr ?_)
    exact List.mem_range'_1.mpr ⟨hle, by lia⟩

theorem pending_subset (h : Grown s s') : s.pending ⊆ s'.pending := by
  obtain ⟨new, -, -, hpending⟩ := h.types
  rw [hpending]
  exact List.subset_append_right _ _

theorem mem_pending (h : Grown s s') {type : Handle} (ht : type ∈ s'.pending) :
    type ∈ s.pending ∨ (s.size ≤ type ∧ type < s'.size) := by
  obtain ⟨new, htypes, -, hpending⟩ := h.types
  rw [hpending] at ht
  rcases List.mem_append.mp ht with ht | ht
  · have := List.mem_range'_1.mp (List.mem_reverse.mp ht)
    exact Or.inr ⟨this.1, by simp only [size, htypes, Array.size_append] at this ⊢; lia⟩
  · exact Or.inl ht

theorem «extends» (h : Grown s s') : Extends s s' where
  forms := by
    intro type form hform
    obtain ⟨entry, hentry, rfl⟩ := form_eq_some.mp hform
    exact form_of_entry (h.entry hentry)
  typeParams := by
    intro id params hparams
    rw [typeParams?, h.callables]
    exact hparams

end Grown

/-- The store with one more instantiation or array, under the given tables. -/
def interned (s : Store) (entry : Entry) (instances : List ((Handle × List Handle) × Handle))
    (arrays : List ((Handle × Nat) × Handle)) : Store :=
  { s with
    types := s.types.push entry
    instances := instances
    arrays := arrays
    pending := s.types.size :: s.pending }

theorem grown_interned {entry : Entry} {instances : List ((Handle × List Handle) × Handle)}
    {arrays : List ((Handle × Nat) × Handle)} (h : entry.Fresh) :
    Grown s (s.interned entry instances arrays) := by
  refine ⟨⟨#[entry], ?_, ?_, ?_⟩, rfl, rfl, rfl, rfl, rfl, rfl, rfl⟩
  · simp [interned]
  · simpa using h
  · simp [interned, size]

theorem form_interned {entry : Entry} {instances : List ((Handle × List Handle) × Handle)}
    {arrays : List ((Handle × Nat) × Handle)} (type : Handle) :
    (s.interned entry instances arrays).form type =
      if type = s.size then some entry.form else s.form type := by
  simp only [Store.form, interned, Array.getElem?_push, Store.size]
  by_cases h : type = s.types.size <;> simp [h]

section Interning

variable {entry : Entry} {instances : List ((Handle × List Handle) × Handle)}
  {arrays : List ((Handle × Nat) × Handle)}

/-- A fresh entry that agrees with its parts keeps a store coherent, if it is entered in the
tables. -/
theorem Coherent.interned (hs : s.Coherent) (hfresh : entry.Fresh)
    (hform : s.FormCoherent s.size entry.form)
    (hinstances : ∀ definition args type, instances.lookup (definition, args) = some type ↔
      s.instances.lookup (definition, args) = some type ∨
        type = s.size ∧ entry.form.shape = .instantiation definition args)
    (harrays : ∀ element rank type, arrays.lookup (element, rank) = some type ↔
      s.arrays.lookup (element, rank) = some type ∨
        type = s.size ∧ entry.form.shape = .array element rank) :
    (s.interned entry instances arrays).Coherent := by
  have hext : Extends s (s.interned entry instances arrays) := (grown_interned hfresh).extends
  have hnew : (s.interned entry instances arrays).form s.size = some entry.form := by
    rw [form_interned, if_pos rfl]
  have hold : ∀ {type form}, (s.interned entry instances arrays).form type = some form →
      s.form type = some form ∨ type = s.size ∧ form = entry.form := by
    intro type form h
    rw [form_interned] at h
    split at h
    · next heq => exact Or.inr ⟨heq, (Option.some.inj h).symm⟩
    · exact Or.inl h
  -- A shape is found in the new store if it is an old one or that of the new entry.
  have hshape : ∀ shape type,
      (∃ form, (s.interned entry instances arrays).form type = some form ∧ form.shape = shape) ↔
        (∃ form, s.form type = some form ∧ form.shape = shape) ∨
          type = s.size ∧ entry.form.shape = shape := by
    intro shape type
    constructor
    · rintro ⟨form, hform, hshape⟩
      rcases hold hform with h | ⟨rfl, rfl⟩
      · exact Or.inl ⟨form, h, hshape⟩
      · exact Or.inr ⟨rfl, hshape⟩
    · rintro (⟨form, hform, hshape⟩ | ⟨rfl, hshape⟩)
      · exact ⟨form, hext.forms hform, hshape⟩
      · exact ⟨entry.form, hnew, hshape⟩
  refine ⟨?_, ?_, ?_, ?_, ?_⟩
  · intro type form h
    rcases hold h with h | ⟨rfl, rfl⟩
    · exact hext.formCoherent (hs.forms h)
    · exact hext.formCoherent hform
  · intro definition args type
    rw [hshape, ← hs.instances]
    exact hinstances definition args type
  · intro element rank type
    rw [hshape, ← hs.arrays]
    exact harrays element rank type
  · intro id signature h
    obtain ⟨hid, hparams⟩ := hs.callables h
    exact ⟨hid, fun i p hp => hext.paramAt (hparams i p hp)⟩
  · obtain ⟨hroot, form, hform, hnamed⟩ := hs.root
    exact ⟨hroot, form, hext.forms hform, hnamed⟩

end Interning

/-- `type` is the definition applied to `args`: a definition applied to its own parameters is the
definition itself. -/
def Applies (store : Store) (definition : Handle) (args : List Handle) (type : Handle) : Prop :=
  ∃ params, store.Defines definition params ∧ params.length = args.length ∧
    (params = args ∧ type = definition ∨
      params ≠ args ∧ ∃ form, store.form type = some form ∧
        form.shape = .instantiation definition args)

/-- `type` is the array of `element` of a given rank. -/
def IsArray (store : Store) (element : Handle) (rank : Nat) (type : Handle) : Prop :=
  ∃ form, store.form type = some form ∧ form.shape = .array element rank

theorem fresh_instantiationEntry (definition : Handle) (declared : Entry) (args : List Handle)
    (argEntries : List Entry) : (instantiationEntry definition declared args argEntries).Fresh :=
  ⟨Or.inl ⟨definition, args, rfl⟩, rfl, rfl, rfl, rfl, rfl⟩

theorem fresh_arrayEntry (element : Handle) (elementEntry : Entry) (rank : Nat) :
    (arrayEntry element elementEntry rank).Fresh :=
  ⟨Or.inr ⟨element, rank, rfl⟩, rfl, rfl, rfl, rfl, rfl⟩

/-- Entries read from a store have smaller handles than the next type and the recorded forms. -/
theorem forms_of_entries {args : List Handle} {entries : List Entry}
    (h : List.Forall₂ (fun a e => s.entry a = .ok e) args entries) :
    List.Forall₂ (fun a part => a < s.size ∧ s.form a = some part) args
      (entries.map Entry.form) := by
  induction h with
  | nil => exact List.Forall₂.nil
  | cons ha _ ih =>
      have hform := form_of_entry (entry_eq_ok.mp ha)
      exact List.Forall₂.cons ⟨form_lt hform, hform⟩ ih

theorem formCoherent_instantiationEntry {definition : Handle} {declared : Entry}
    {args params : List Handle} {argEntries : List Entry} (hd : s.Defines definition params)
    (hlen : params.length = args.length) (hne : params ≠ args)
    (hargs : List.Forall₂ (fun a e => s.entry a = .ok e) args argEntries) :
    s.FormCoherent s.size (instantiationEntry definition declared args argEntries).form := by
  obtain ⟨form, hform, hshape⟩ := id hd
  refine ⟨⟨params, hd, hlen, hne⟩, form_lt hform, _, forms_of_entries hargs, ?_, ?_⟩
  · simp [instantiationEntry, Entry.form, List.any_map, Function.comp_def]
  · simp [instantiationEntry, Entry.form, Function.comp_def]

theorem defines_of_entry {type : Handle} {entry : Entry} {params : List Handle}
    (he : s.entry type = .ok entry) : s.Defines type params ↔ entry.shape = .definition params := by
  have hform : s.form type = some entry.form := form_of_entry (entry_eq_ok.mp he)
  constructor
  · rintro ⟨form, hform', hshape⟩
    obtain rfl : entry.form = form := Option.some.inj (hform.symm.trans hform')
    exact Entry.form_shape_eq_definition.mp hshape
  · intro hshape
    exact ⟨entry.form, hform, Entry.form_shape_eq_definition.mpr hshape⟩

/-- What interning an instantiation can do: leave the definition, find the type, or add it. -/
theorem internInstance_cases {definition type : Handle} {args : List Handle}
    (hrun : (internInstance definition args).run s = .ok (type, s')) :
    (s' = s ∧ type = definition ∧ definition < s.size ∧
      ∀ params, s.Defines definition params → params.length = args.length → params = args) ∨
    ∃ params, s.Defines definition params ∧ params.length = args.length ∧ params ≠ args ∧
      ((s' = s ∧ s.instances.lookup (definition, args) = some type) ∨
        (s.instances.lookup (definition, args) = none ∧ type = s.size ∧
          ∃ declared argEntries, List.Forall₂ (fun a e => s.entry a = .ok e) args argEntries ∧
            s' = s.interned (instantiationEntry definition declared args argEntries)
              (((definition, args), s.size) :: s.instances) s.arrays)) := by
  unfold internInstance at hrun
  obtain ⟨_, _, hget, hrun⟩ := run_bind_eq_ok.mp hrun
  cases hget
  obtain ⟨declared, _, hread, hrun⟩ := run_bind_eq_ok.mp hrun
  obtain ⟨hentry, rfl⟩ := run_lift_eq_ok.mp hread
  have hlt : definition < s.size := lt_of_entry (entry_eq_ok.mp hentry)
  split at hrun
  · next params hshape =>
      have hd : s.Defines definition params := (defines_of_entry hentry).mpr hshape
      split at hrun
      · next hsame =>
          obtain ⟨rfl, rfl⟩ := run_pure_eq_ok.mp hrun
          refine Or.inl ⟨rfl, rfl, hlt, fun ps hps hlen => ?_⟩
          rw [(defines_of_entry hentry).mp hps, Shape.definition.injEq] at hshape
          subst hshape
          exact hsame.resolve_left (not_not.mpr hlen)
      · next hnew =>
          obtain ⟨hlen, hne⟩ := not_or.mp hnew
          refine Or.inr ⟨params, hd, not_not.mp hlen, hne, ?_⟩
          split at hrun
          · next hfound =>
              obtain ⟨rfl, rfl⟩ := run_pure_eq_ok.mp hrun
              exact Or.inl ⟨rfl, hfound⟩
          · next hmissing =>
              obtain ⟨argEntries, _, hmap, hrun⟩ := run_bind_eq_ok.mp hrun
              obtain ⟨hargs, rfl⟩ := run_mapM_lift_eq_ok.mp hmap
              cases hrun
              exact Or.inr ⟨hmissing, rfl, declared, argEntries, hargs, rfl⟩
  · next hother =>
      obtain ⟨rfl, rfl⟩ := run_pure_eq_ok.mp hrun
      exact Or.inl ⟨rfl, rfl, hlt, fun ps hps _ =>
        absurd ((defines_of_entry hentry).mp hps) (hother ps)⟩

theorem lookup_cons_eq_some {κ : Type} [BEq κ] [LawfulBEq κ] {table : List (κ × Handle)}
    {key key' : κ} {new type : Handle} (hmissing : table.lookup key = none) :
    ((key, new) :: table).lookup key' = some type ↔
      table.lookup key' = some type ∨ type = new ∧ key = key' := by
  by_cases h : key' = key
  · subst h
    simp [hmissing, eq_comm]
  · have hbeq : (key' == key) = false := by simpa using h
    simp [List.lookup_cons, hbeq, Ne.symm h]

/-- Interning an instantiation keeps the store coherent, only adds to it, and returns the
definition applied to the arguments. -/
theorem internInstance_run (hs : s.Coherent) {definition type : Handle} {args : List Handle}
    (hrun : (internInstance definition args).run s = .ok (type, s')) :
    s'.Coherent ∧ Grown s s' ∧ type < s'.size ∧
      ∀ params, s.Defines definition params → params.length = args.length →
        s'.Applies definition args type := by
  rcases internInstance_cases hrun with
    ⟨rfl, rfl, hlt, hsame⟩ | ⟨params, hd, hlen, hne, ⟨rfl, hfound⟩ | ⟨hmissing, rfl, hadd⟩⟩
  · exact ⟨hs, Grown.refl s', hlt, fun ps hps hlen =>
      ⟨ps, hps, hlen, Or.inl ⟨hsame ps hps hlen, rfl⟩⟩⟩
  · have hinst := (hs.instances definition args type).mp hfound
    obtain ⟨form, hform, -⟩ := id hinst
    exact ⟨hs, Grown.refl s', form_lt hform, fun _ _ _ =>
      ⟨params, hd, hlen, Or.inr ⟨hne, hinst⟩⟩⟩
  · obtain ⟨declared, argEntries, hargs, rfl⟩ := hadd
    have hfresh := fresh_instantiationEntry definition declared args argEntries
    have hgrown : Grown s (s.interned (instantiationEntry definition declared args argEntries)
        (((definition, args), s.size) :: s.instances) s.arrays) := grown_interned hfresh
    have hcoherent : s.FormCoherent s.size
        (instantiationEntry definition declared args argEntries).form :=
      formCoherent_instantiationEntry hd hlen hne hargs
    refine ⟨hs.interned hfresh hcoherent ?_ ?_, hgrown, ?_, fun _ _ _ =>
      ⟨params, hgrown.extends.defines hd, hlen, Or.inr ⟨hne, _, (form_interned _).trans
        (if_pos rfl), rfl⟩⟩⟩
    · intro definition' args' type'
      rw [lookup_cons_eq_some hmissing]
      simp [instantiationEntry, Entry.form, Shape.bare]
    · intro element rank type'
      simp [instantiationEntry, Entry.form, Shape.bare]
    · simp [Store.size, Store.interned]

/-- What interning an array can do: find it or add it. -/
theorem internArray_cases {element type : Handle} {rank : Nat}
    (hrun : (internArray element rank).run s = .ok (type, s')) :
    (s' = s ∧ s.arrays.lookup (element, rank) = some type) ∨
      (s.arrays.lookup (element, rank) = none ∧ type = s.size ∧ 1 ≤ rank ∧
        ∃ elementEntry, s.entry element = .ok elementEntry ∧
          s' = s.interned (arrayEntry element elementEntry rank) s.instances
            (((element, rank), s.size) :: s.arrays)) := by
  unfold internArray at hrun
  obtain ⟨_, _, hget, hrun⟩ := run_bind_eq_ok.mp hrun
  cases hget
  split at hrun
  · next hfound =>
      obtain ⟨rfl, rfl⟩ := run_pure_eq_ok.mp hrun
      exact Or.inl ⟨rfl, hfound⟩
  · next hmissing =>
      split at hrun
      · cases hrun
      · next hrank =>
          obtain ⟨elementEntry, _, hread, hrun⟩ := run_bind_eq_ok.mp hrun
          obtain ⟨hentry, rfl⟩ := run_lift_eq_ok.mp hread
          cases hrun
          exact Or.inr ⟨hmissing, rfl, by omega, elementEntry, hentry, rfl⟩

/-- Interning an array keeps the store coherent, only adds to it, and returns the array. -/
theorem internArray_run (hs : s.Coherent) {element type : Handle} {rank : Nat}
    (hrun : (internArray element rank).run s = .ok (type, s')) :
    s'.Coherent ∧ Grown s s' ∧ type < s'.size ∧ s'.IsArray element rank type := by
  rcases internArray_cases hrun with ⟨rfl, hfound⟩ | ⟨hmissing, rfl, hrank, entry, hentry, rfl⟩
  · have harray := (hs.arrays element rank type).mp hfound
    obtain ⟨form, hform, -⟩ := id harray
    exact ⟨hs, Grown.refl s', form_lt hform, harray⟩
  · have hform : s.form element = some entry.form := form_of_entry (entry_eq_ok.mp hentry)
    have hfresh := fresh_arrayEntry element entry rank
    have hgrown : Grown s (s.interned (arrayEntry element entry rank) s.instances
        (((element, rank), s.size) :: s.arrays)) := grown_interned hfresh
    have hcoherent : s.FormCoherent s.size (arrayEntry element entry rank).form :=
      ⟨hrank, form_lt hform, entry.form, hform, rfl, rfl⟩
    refine ⟨hs.interned hfresh hcoherent ?_ ?_, hgrown, ?_, _, (form_interned _).trans
      (if_pos rfl), rfl⟩
    · intro definition' args' type'
      simp [arrayEntry, Entry.form, Shape.bare]
    · intro element' rank' type'
      rw [lookup_cons_eq_some hmissing]
      simp [arrayEntry, Entry.form, Shape.bare]
    · simp [Store.size, Store.interned]

end Store

end NominalGenerics
