import NominalGenerics.Proofs.Store.Growth
import NominalGenerics.Store.Declaration

/-!
# Declarations keep stores well-formed

A store is well-formed if it is coherent and all handles it records denote types. Every declaration
is one of three changes: some entries that are not interned types are appended, an entry is changed
outside its form, or a role or a signature is set. One lemma for each kind of change carries the
whole list.
-/

namespace NominalGenerics.Store

variable {s s' : Store}

/-- A coherent store in which every recorded handle denotes a type. -/
structure WellFormed (store : Store) : Prop where
  coherent : store.Coherent
  inRange : store.InRange

/-- The store with further entries and other signatures. -/
def appended (s : Store) (new : List Entry) (callables : Array Signature) : Store :=
  { s with types := s.types ++ new.toArray, callables := callables }

theorem appended_getElem? {new : List Entry} {callables : Array Signature} (type : Handle) :
    (s.appended new callables).types[type]? =
      if type < s.size then s.types[type]? else new[type - s.size]? := by
  simp only [appended, Array.getElem?_append, size, List.getElem?_toArray]
  rfl

theorem size_appended {new : List Entry} {callables : Array Signature} :
    (s.appended new callables).size = s.size + new.length := by
  simp [appended, size]

theorem form_appended {new : List Entry} {callables : Array Signature} {type : Handle}
    {form : Entry} (h : s.form type = some form) :
    (s.appended new callables).form type = some form := by
  obtain ⟨entry, hentry, rfl⟩ := form_eq_some.mp h
  refine form_eq_some.mpr ⟨entry, ?_, rfl⟩
  rw [appended_getElem?, if_pos (form_lt h), hentry]

theorem form_appended_new {new : List Entry} {callables : Array Signature} {i : Nat}
    {entry : Entry} (h : new[i]? = some entry) :
    (s.appended new callables).form (s.size + i) = some entry.form := by
  refine form_eq_some.mpr ⟨entry, ?_, rfl⟩
  rw [appended_getElem?, if_neg (Nat.not_lt.mpr (Nat.le_add_right _ _)),
    Nat.add_sub_cancel_left, h]

/-- Appending entries that are not interned types, and signatures, keeps a store well-formed if the
new parts agree with the new store. -/
theorem WellFormed.appended (hs : s.WellFormed) {new : List Entry} {callables : Array Signature}
    (hnew : ∀ (i : Nat) entry, new[i]? = some entry →
      (s.appended new callables).FormCoherent (s.size + i) entry.form ∧
        (∀ definition args, entry.shape ≠ .instantiation definition args) ∧
        (∀ element rank, entry.shape ≠ .array element rank) ∧
        (s.appended new callables).LinksInRange entry)
    (hparams : ∀ {id params}, s.typeParams? id = some params →
      callables[id]?.map (·.typeParams) = some params)
    (hsignatures : ∀ (id : CallableId) signature, callables[id]? = some signature →
      (signature.id = id ∧ ∀ (i : Nat) p, signature.typeParams[i]? = some p →
        (s.appended new callables).ParamAt p (.callable id) i) ∧
      (s.appended new callables).SignatureInRange signature) :
    (s.appended new callables).WellFormed := by
  have hext : Extends s (s.appended new callables) := ⟨form_appended, hparams⟩
  have hsize : s.size ≤ (s.appended new callables).size := by rw [size_appended]; omega
  have hold : ∀ {type : Handle} {entry},
      (s.appended new callables).types[type]? = some entry →
        s.types[type]? = some entry ∨ ∃ i, type = s.size + i ∧ new[i]? = some entry := by
    intro type entry h
    rw [appended_getElem?] at h
    split at h
    · exact Or.inl h
    · next hlt =>
        exact Or.inr ⟨type - s.size, (Nat.add_sub_cancel' (Nat.le_of_not_lt hlt)).symm, h⟩
  refine ⟨⟨?_, ?_, ?_, fun h => (hsignatures _ _ h).1, ?_⟩, ⟨?_, fun h => (hsignatures _ _ h).2,
    ?_, ?_, ?_⟩⟩
  · intro type form h
    obtain ⟨entry, hentry, rfl⟩ := form_eq_some.mp h
    rcases hold hentry with hentry | ⟨i, rfl, hi⟩
    · exact hext.formCoherent (hs.coherent.forms (form_of_entry hentry))
    · exact (hnew i entry hi).1
  · intro definition args type
    refine (hs.coherent.instances definition args type).trans ⟨?_, ?_⟩
    · rintro ⟨form, hform, hshape⟩
      exact ⟨form, hext.forms hform, hshape⟩
    · rintro ⟨form, hform, hshape⟩
      obtain ⟨entry, hentry, rfl⟩ := form_eq_some.mp hform
      rcases hold hentry with hentry | ⟨i, rfl, hi⟩
      · exact ⟨_, form_of_entry hentry, hshape⟩
      · exact absurd (Entry.form_shape_eq_instantiation.mp hshape)
          ((hnew i entry hi).2.1 definition args)
  · intro element rank type
    refine (hs.coherent.arrays element rank type).trans ⟨?_, ?_⟩
    · rintro ⟨form, hform, hshape⟩
      exact ⟨form, hext.forms hform, hshape⟩
    · rintro ⟨form, hform, hshape⟩
      obtain ⟨entry, hentry, rfl⟩ := form_eq_some.mp hform
      rcases hold hentry with hentry | ⟨i, rfl, hi⟩
      · exact ⟨_, form_of_entry hentry, hshape⟩
      · exact absurd (Entry.form_shape_eq_array.mp hshape) ((hnew i entry hi).2.2.1 element rank)
  · obtain ⟨hroot, form, hform, hshape⟩ := hs.coherent.root
    exact ⟨hroot, form, hext.forms hform, hshape⟩
  · intro type entry h
    rcases hold h with h | ⟨i, rfl, hi⟩
    · exact (hs.inRange.links h).mono hsize
    · exact (hnew i entry hi).2.2.2
  · exact fun type h => Nat.lt_of_lt_of_le (hs.inRange.pending type h) hsize
  · exact fun type h => Nat.lt_of_lt_of_le (hs.inRange.valueTypeRoot type h) hsize
  · exact fun type h => Nat.lt_of_lt_of_le (hs.inRange.arrayRoot type h) hsize

theorem push_run (entry : Entry) :
    (push entry).run s = .ok (s.size, s.appended [entry] s.callables) := by
  simp only [push, StateT.run_modifyGet, appended, Array.push_eq_append]
  rfl

theorem appended_appended {new new' : List Entry} {callables callables' : Array Signature} :
    (s.appended new callables).appended new' callables' = s.appended (new ++ new') callables' := by
  simp [appended]

theorem appended_nil : s.appended [] s.callables = s := by simp [appended]

/-- Adding one type after another gives them consecutive handles. -/
theorem mapM_push_run {α : Type} (entryOf : α → Entry) (items : List α) :
    (items.mapM fun item => push (entryOf item)).run s =
      .ok (List.range' s.size items.length, s.appended (items.map entryOf) s.callables) := by
  induction items generalizing s with
  | nil =>
      rw [List.mapM_nil, StateT.run_pure, List.map_nil, appended_nil]
      rfl
  | cons item items ih =>
      have hcallables : (s.appended [entryOf item] s.callables).callables = s.callables := rfl
      rw [List.mapM_cons, StateT.run_bind, push_run, Query.ok_bind, StateT.run_bind, ih,
        Query.ok_bind, StateT.run_pure, size_appended, hcallables, appended_appended]
      rfl

section Links

variable {entry : Entry}

theorem linksInRange_of_none (hbase : entry.base = none) (hdirect : entry.directInterfaces = [])
    (hall : entry.interfaces = []) : s.LinksInRange entry := by
  refine ⟨?_, ?_, ?_⟩
  · simp [hbase]
  · simp [hdirect]
  · simp [hall]

theorem WellFormed.push_named (hs : s.WellFormed) (hshape : entry.shape = .named)
    (hopen : entry.isOpen = false) (hnesting : entry.nesting = 0) (hbase : entry.base = none)
    (hdirect : entry.directInterfaces = []) (hall : entry.interfaces = []) :
    (s.appended [entry] s.callables).WellFormed := by
  have hext : Extends s (s.appended [entry] s.callables) := ⟨form_appended, fun h => h⟩
  refine hs.appended ?_ (fun h => h) ?_
  · intro i e hi
    obtain ⟨rfl, rfl⟩ : i = 0 ∧ entry = e := by simpa [List.getElem?_singleton] using hi
    refine ⟨?_, by simp [hshape], by simp [hshape], linksInRange_of_none hbase hdirect hall⟩
    rw [FormCoherent, Entry.form_shape_eq_named.mpr hshape]
    exact ⟨hopen, hnesting⟩
  · intro id signature hsig
    obtain ⟨hid, hparams⟩ := hs.coherent.callables hsig
    refine ⟨⟨hid, fun i p hp => hext.paramAt (hparams i p hp)⟩, ?_⟩
    exact (hs.inRange.signatures hsig).mono (by rw [size_appended]; omega)

end Links

/-- The entry of a type parameter. -/
def paramEntry (name : String) (owner : ParamOwner) (position : Nat) (variance : Variance) :
    Entry where
  name := name
  flags := {}
  shape := .parameter { name, owner, position, variance }
  closed := true
  isOpen := true

/-- The entries of a generic definition, under the next handle, and of its type parameters. -/
def genericEntries (s : Store) (kind : TypeKind) (name : String)
    (params : List (String × Variance)) : List Entry :=
  { name, flags := kind.flags, isOpen := !params.isEmpty
    shape := .definition (List.range' (s.size + 1) params.length) } ::
    params.zipIdx.map fun ((param, variance), position) =>
      paramEntry param (.type s.size) position variance

theorem modify_appended_head {entry : Entry} {rest : List Entry} {callables : Array Signature}
    (change : Entry → Entry) :
    { s.appended (entry :: rest) callables with
        types := (s.appended (entry :: rest) callables).types.modify s.size change } =
      s.appended (change entry :: rest) callables := by
  simp only [appended, Store.mk.injEq, and_true]
  apply Array.ext_getElem?
  intro i
  rw [Array.getElem?_modify, Array.getElem?_append, Array.getElem?_append]
  by_cases hi : i = s.size
  · subst hi
    simp [size]
  · by_cases hlt : i < s.types.size
    · simp [hlt, Ne.symm hi]
    · obtain ⟨j, rfl⟩ : ∃ j, i = s.types.size + (j + 1) :=
        ⟨i - s.types.size - 1, by simp only [size] at hi; omega⟩
      simp [size]

theorem modifyEntry_run {type : Handle} {change : Entry → Entry} {u : Unit}
    (hrun : (modifyEntry type change).run s = .ok (u, s')) :
    type < s.size ∧ s' = { s with types := s.types.modify type change } := by
  unfold modifyEntry at hrun
  obtain ⟨_, _, hget, hrun⟩ := run_bind_eq_ok.mp hrun
  cases hget
  obtain ⟨_, _, hread, hrun⟩ := run_bind_eq_ok.mp hrun
  cases hentry : s.entry type with
  | error fault =>
      rw [hentry] at hread
      cases hread
  | ok entry =>
      rw [hentry] at hread
      cases hread
      cases hrun
      exact ⟨lt_of_entry (entry_eq_ok.mp hentry), rfl⟩

theorem declareGeneric_run {kind : TypeKind} {name : String} {params : List (String × Variance)}
    {definition : Handle} (hrun : (declareGeneric kind name params).run s = .ok (definition, s')) :
    s' = s.appended (s.genericEntries kind name params) s.callables := by
  unfold declareGeneric at hrun
  obtain ⟨_, _, hpush, hrun⟩ := run_bind_eq_ok.mp hrun
  cases (push_run _).symm.trans hpush
  obtain ⟨handles, _, hmap, hrun⟩ := run_bind_eq_ok.mp hrun
  cases (mapM_push_run _ _).symm.trans hmap
  obtain ⟨_, _, hmodify, hrun⟩ := run_bind_eq_ok.mp hrun
  obtain ⟨-, rfl⟩ := modifyEntry_run hmodify
  obtain ⟨-, rfl⟩ := run_pure_eq_ok.mp hrun
  rw [appended_appended, size_appended, List.length_zipIdx]
  exact modify_appended_head _

/-- The form of a new type parameter. -/
theorem paramAt_of_getElem? {new : List Entry} {callables : Array Signature} {i position : Nat}
    {name : String} {owner : ParamOwner} {variance : Variance}
    (h : new[i]? = some (paramEntry name owner position variance)) :
    (s.appended new callables).ParamAt (s.size + i) owner position :=
  ⟨_, _, form_appended_new h, rfl, rfl, rfl⟩

theorem WellFormed.declareGeneric (hs : s.WellFormed) {kind : TypeKind} {name : String}
    {params : List (String × Variance)} {definition : Handle}
    (hrun : (Store.declareGeneric kind name params).run s = .ok (definition, s')) :
    s'.WellFormed := by
  rw [declareGeneric_run hrun]
  have hparams : ∀ i, (s.genericEntries kind name params)[i + 1]? =
      params[i]?.map fun p => paramEntry p.1 (.type s.size) i p.2 := by
    intro i
    simp only [genericEntries, List.getElem?_cons_succ, List.getElem?_map, List.getElem?_zipIdx,
      Option.map_map, Function.comp_def, Nat.zero_add]
  have hext : Extends s (s.appended (s.genericEntries kind name params) s.callables) :=
    ⟨form_appended, fun h => h⟩
  refine hs.appended ?_ (fun h => h) ?_
  · intro i entry hi
    cases i with
    | zero =>
        cases hi
        refine ⟨⟨by cases params <;> rfl, rfl, ?_⟩, by simp, by simp,
          linksInRange_of_none rfl rfl rfl⟩
        intro j p hp
        obtain ⟨hj, rfl⟩ := List.getElem?_eq_some_iff.mp hp
        rw [List.length_range'] at hj
        rw [List.getElem_range', Nat.one_mul, Nat.add_right_comm, Nat.add_assoc]
        exact paramAt_of_getElem? ((hparams j).trans (by rw [List.getElem?_eq_getElem hj]; rfl))
    | succ i =>
        rw [hparams] at hi
        obtain ⟨p, hp, rfl⟩ := Option.map_eq_some_iff.mp hi
        refine ⟨⟨rfl, rfl, _, ⟨_, form_appended_new (i := 0) rfl, rfl⟩, ?_⟩,
          by simp [paramEntry], by simp [paramEntry], linksInRange_of_none rfl rfl rfl⟩
        obtain ⟨hi, -⟩ := List.getElem?_eq_some_iff.mp hp
        rw [List.getElem?_range' hi, Nat.one_mul, Nat.add_right_comm, Nat.add_assoc]
  · intro id signature hsig
    obtain ⟨hid, hparams⟩ := hs.coherent.callables hsig
    refine ⟨⟨hid, fun i p hp => hext.paramAt (hparams i p hp)⟩, ?_⟩
    exact (hs.inRange.signatures hsig).mono (by rw [size_appended]; omega)

/-- The entries of the type parameters of a new callable. -/
def callableEntries (s : Store) (typeParams : List String) : List Entry :=
  typeParams.zipIdx.map fun (param, position) =>
    paramEntry param (.callable s.callables.size) position .invariant

/-- The signature of a new callable. -/
def newSignature (s : Store) (name : String) (typeParams : List String) : Signature where
  id := s.callables.size
  name := name
  typeParams := List.range' s.size typeParams.length

theorem declareCallable_run {name : String} {typeParams : List String} {id : CallableId}
    (hrun : (declareCallable name typeParams).run s = .ok (id, s')) :
    s' = s.appended (s.callableEntries typeParams)
      (s.callables.push (s.newSignature name typeParams)) := by
  unfold declareCallable at hrun
  obtain ⟨_, _, hget, hrun⟩ := run_bind_eq_ok.mp hrun
  cases hget
  obtain ⟨handles, _, hmap, hrun⟩ := run_bind_eq_ok.mp hrun
  cases (mapM_push_run _ _).symm.trans hmap
  cases hrun
  rw [List.length_zipIdx]
  rfl

theorem WellFormed.declareCallable (hs : s.WellFormed) {name : String} {typeParams : List String}
    {id : CallableId} (hrun : (Store.declareCallable name typeParams).run s = .ok (id, s')) :
    s'.WellFormed := by
  rw [declareCallable_run hrun]
  have hentries : ∀ i, (s.callableEntries typeParams)[i]? =
      typeParams[i]?.map fun p => paramEntry p (.callable s.callables.size) i .invariant := by
    intro i
    simp only [callableEntries, List.getElem?_map, List.getElem?_zipIdx, Option.map_map,
      Function.comp_def, Nat.zero_add]
  have hparams : ∀ {id params}, s.typeParams? id = some params →
      (s.callables.push (s.newSignature name typeParams))[id]?.map (·.typeParams) =
        some params := by
    intro id params h
    obtain ⟨signature, hsig, rfl⟩ := Option.map_eq_some_iff.mp h
    have hlt : id < s.callables.size := (Array.getElem?_eq_some_iff.mp hsig).choose
    rw [Array.getElem?_push, if_neg (Nat.ne_of_lt hlt), hsig]
    rfl
  refine hs.appended ?_ hparams ?_
  · intro i entry hi
    rw [hentries] at hi
    obtain ⟨p, hp, rfl⟩ := Option.map_eq_some_iff.mp hi
    obtain ⟨hi, -⟩ := List.getElem?_eq_some_iff.mp hp
    refine ⟨⟨rfl, rfl, List.range' s.size typeParams.length, ?_, ?_⟩, by simp [paramEntry],
      by simp [paramEntry], linksInRange_of_none rfl rfl rfl⟩
    · simp [typeParams?, Store.appended, newSignature]
    · rw [List.getElem?_range' hi, Nat.one_mul]
  · intro id signature hsig
    rw [Array.getElem?_push] at hsig
    split at hsig
    · next hid =>
        cases hsig
        refine ⟨⟨hid.symm, fun i p hp => ?_⟩, ⟨by simp [newSignature], by simp [newSignature],
          by simp [newSignature]⟩⟩
        obtain ⟨hi, rfl⟩ := List.getElem?_eq_some_iff.mp hp
        simp only [newSignature, List.length_range'] at hi
        simp only [newSignature, List.getElem_range', Nat.one_mul, hid]
        exact paramAt_of_getElem? ((hentries i).trans (by rw [List.getElem?_eq_getElem hi]; rfl))
    · obtain ⟨hid, hold⟩ := hs.coherent.callables hsig
      have hext : Extends s (s.appended (s.callableEntries typeParams)
          (s.callables.push (s.newSignature name typeParams))) := ⟨form_appended, hparams⟩
      refine ⟨⟨hid, fun i p hp => hext.paramAt (hold i p hp)⟩, ?_⟩
      exact (hs.inRange.signatures hsig).mono (by rw [size_appended]; omega)

/-- A change that leaves the forms alone keeps a store well-formed if what it records is in
range. -/
theorem WellFormed.of_sameForms (hs : s.WellFormed) (h : SameForms s s')
    (hlinks : ∀ (type : Handle) entry, s'.types[type]? = some entry → s.LinksInRange entry)
    (hsignatures : ∀ (id : CallableId) signature, s'.callables[id]? = some signature →
      s.SignatureInRange signature)
    (hpending : ∀ type ∈ s'.pending, type < s.size)
    (hvalue : ∀ type, s'.valueTypeRoot = some type → type < s.size)
    (harray : ∀ type, s'.arrayRoot = some type → type < s.size) : s'.WellFormed := by
  have hsize : s.size ≤ s'.size := Nat.le_of_eq h.size.symm
  exact ⟨h.coherent hs.coherent, fun he => (hlinks _ _ he).mono hsize,
    fun hg => (hsignatures _ _ hg).mono hsize, fun t ht => Nat.lt_of_lt_of_le (hpending t ht) hsize,
    fun t ht => Nat.lt_of_lt_of_le (hvalue t ht) hsize,
    fun t ht => Nat.lt_of_lt_of_le (harray t ht) hsize⟩

theorem modify_getElem? {type other : Handle} {change : Entry → Entry} {entry : Entry}
    (h : (s.types.modify type change)[other]? = some entry) :
    (other = type ∧ ∃ old, s.types[type]? = some old ∧ entry = change old) ∨
      (other ≠ type ∧ s.types[other]? = some entry) := by
  rw [Array.getElem?_modify] at h
  split at h
  · next heq =>
      subst heq
      obtain ⟨old, hold, rfl⟩ := Option.map_eq_some_iff.mp h
      exact Or.inl ⟨rfl, old, hold, rfl⟩
  · next hne => exact Or.inr ⟨fun heq => hne heq.symm, h⟩

theorem sameForms_modify {type : Handle} {change : Entry → Entry}
    (hform : ∀ entry, (change entry).form = entry.form) :
    SameForms s { s with types := s.types.modify type change } := by
  refine ⟨fun other => ?_, rfl, rfl, fun _ => rfl, rfl⟩
  simp only [Store.form, Array.getElem?_modify]
  split
  · next heq =>
      subst heq
      simp [Function.comp_def, hform]
  · rfl

/-- Changing an entry outside its form keeps a store well-formed if the new supertypes are in
range. -/
theorem WellFormed.modifyEntry (hs : s.WellFormed) {type : Handle} {change : Entry → Entry}
    {u : Unit} (hrun : (Store.modifyEntry type change).run s = .ok (u, s'))
    (hform : ∀ entry, (change entry).form = entry.form)
    (hlinks : ∀ entry, s.LinksInRange entry → s.LinksInRange (change entry)) : s'.WellFormed := by
  obtain ⟨-, rfl⟩ := modifyEntry_run hrun
  refine hs.of_sameForms (sameForms_modify hform) ?_ (fun _ _ h => hs.inRange.signatures h)
    hs.inRange.pending hs.inRange.valueTypeRoot hs.inRange.arrayRoot
  intro other entry hentry
  rcases modify_getElem? hentry with ⟨-, old, hold, rfl⟩ | ⟨-, hold⟩
  · exact hlinks old (hs.inRange.links hold)
  · exact hs.inRange.links hold

theorem mem_appendNew {types : List Handle} {type other : Handle} :
    other ∈ appendNew types type ↔ other ∈ types ∨ other = type := by
  unfold appendNew
  split
  · next h =>
      constructor
      · exact Or.inl
      · rintro (h' | rfl)
        · exact h'
        · exact h
  · simp

theorem WellFormed.setBase (hs : s.WellFormed) {type base : Handle} {u : Unit}
    (hbase : base < s.size) (hrun : (Store.setBase type base).run s = .ok (u, s')) :
    s'.WellFormed := by
  refine hs.modifyEntry hrun (fun _ => rfl) fun entry h => ⟨?_, h.directInterfaces, h.interfaces⟩
  rintro _ ⟨rfl⟩
  exact hbase

theorem WellFormed.addInterface (hs : s.WellFormed) {type interface : Handle} {u : Unit}
    (hinterface : interface < s.size)
    (hrun : (Store.addInterface type interface).run s = .ok (u, s')) : s'.WellFormed := by
  refine hs.modifyEntry hrun (fun _ => rfl) fun entry h => ⟨h.base, ?_, h.interfaces⟩
  intro target htarget
  rcases mem_appendNew.mp htarget with htarget | rfl
  · exact h.directInterfaces target htarget
  · exact hinterface

theorem WellFormed.addFlags (hs : s.WellFormed) {type : Handle} {flags : Flags} {u : Unit}
    (hrun : (Store.addFlags type flags).run s = .ok (u, s')) : s'.WellFormed :=
  hs.modifyEntry hrun (fun _ => rfl) fun _ h => ⟨h.base, h.directInterfaces, h.interfaces⟩

theorem WellFormed.removeFlags (hs : s.WellFormed) {type : Handle} {flags : Flags} {u : Unit}
    (hrun : (Store.removeFlags type flags).run s = .ok (u, s')) : s'.WellFormed :=
  hs.modifyEntry hrun (fun _ => rfl) fun _ h => ⟨h.base, h.directInterfaces, h.interfaces⟩

theorem WellFormed.addConstraint (hs : s.WellFormed) {param : Handle} {constraint : Constraint}
    {u : Unit} (hrun : (Store.addConstraint param constraint).run s = .ok (u, s')) :
    s'.WellFormed := by
  refine hs.modifyEntry hrun (fun entry => ?_) fun entry h => ?_
  · split
    · next info hshape => simp [Entry.form, hshape, Shape.bare]
    · rfl
  · split
    · exact ⟨h.base, h.directInterfaces, h.interfaces⟩
    · exact h

/-- Setting roles keeps a store well-formed. -/
theorem WellFormed.setRoles (hs : s.WellFormed) {valueTypeRoot arrayRoot wrapper : Option Handle}
    {sequences : List Handle} (hvalue : ∀ type, valueTypeRoot = some type → type < s.size)
    (harray : ∀ type, arrayRoot = some type → type < s.size) :
    { s with valueTypeRoot := valueTypeRoot, arrayRoot := arrayRoot, optionalWrapper := wrapper,
             sequenceInterfaces := sequences : Store }.WellFormed :=
  hs.of_sameForms ⟨fun _ => rfl, rfl, rfl, fun _ => rfl, rfl⟩
    (fun _ _ h => hs.inRange.links h) (fun _ _ h => hs.inRange.signatures h)
    hs.inRange.pending hvalue harray

/-- Changing a signature outside its identity keeps a store well-formed if it mentions only types
of the store. -/
theorem WellFormed.modifySignature (hs : s.WellFormed) {id : CallableId}
    {change : Signature → Signature} {u : Unit}
    (hrun : (Store.modifySignature id change).run s = .ok (u, s'))
    (hid : ∀ g, ((change g).id, (change g).typeParams) = (g.id, g.typeParams))
    (hchange : ∀ g, s.SignatureInRange g → s.SignatureInRange (change g)) : s'.WellFormed := by
  cases hrun
  refine hs.of_sameForms ⟨fun _ => rfl, rfl, rfl, fun other => ?_, rfl⟩
    (fun _ _ h => hs.inRange.links h) (fun other signature hsig => ?_)
    hs.inRange.pending hs.inRange.valueTypeRoot hs.inRange.arrayRoot
  · rw [Array.getElem?_modify]
    split
    · next heq =>
        subst heq
        simp [Function.comp_def, hid]
    · rfl
  · rw [Array.getElem?_modify] at hsig
    split at hsig
    · obtain ⟨old, hold, rfl⟩ := Option.map_eq_some_iff.mp hsig
      exact hchange old (hs.inRange.signatures hold)
    · exact hs.inRange.signatures hsig

theorem WellFormed.addParameter (hs : s.WellFormed) {id : CallableId} {type : Handle}
    {mode : PassingMode} {u : Unit} (htype : type < s.size)
    (hrun : (Store.addParameter id type mode).run s = .ok (u, s')) : s'.WellFormed := by
  refine hs.modifySignature hrun (fun _ => rfl) fun g h => ⟨?_, h.returns, h.declaringType⟩
  intro param hparam
  rcases List.mem_append.mp hparam with hparam | hparam
  · exact h.params param hparam
  · rw [List.mem_singleton.mp hparam]
    exact htype

theorem WellFormed.setReturnType (hs : s.WellFormed) {id : CallableId} {type : Handle} {u : Unit}
    (htype : type < s.size) (hrun : (Store.setReturnType id type).run s = .ok (u, s')) :
    s'.WellFormed := by
  refine hs.modifySignature hrun (fun _ => rfl) fun g h => ⟨h.params, ?_, h.declaringType⟩
  rintro _ ⟨rfl⟩
  exact htype

theorem WellFormed.setDeclaringType (hs : s.WellFormed) {id : CallableId} {type : Handle}
    {u : Unit} (htype : type < s.size)
    (hrun : (Store.setDeclaringType id type).run s = .ok (u, s')) : s'.WellFormed := by
  refine hs.modifySignature hrun (fun _ => rfl) fun g h => ⟨h.params, h.returns, ?_⟩
  rintro _ ⟨rfl⟩
  exact htype

theorem defaultBase_lt (hs : s.WellFormed) {type base : Handle} {entry : Entry}
    (hentry : s.types[type]? = some entry) (h : s.defaultBase type entry = some base) :
    base < s.size := by
  have hroot : s.root < s.size := by
    obtain ⟨hroot, form, hform, -⟩ := hs.coherent.root
    rw [hroot]
    exact form_lt hform
  have hlinks := (hs.inRange.links hentry).base
  -- A default base is the declared one, the base of value types or the root.
  have hcases : entry.base = some base ∨ s.valueTypeRoot = some base ∨ s.root = base := by
    grind [defaultBase]
  rcases hcases with h | h | rfl
  · exact hlinks base h
  · exact hs.inRange.valueTypeRoot base h
  · exact hroot

theorem form_withDefaultBases (type : Handle) : s.withDefaultBases.form type = s.form type := by
  simp only [Store.form, withDefaultBases, Array.getElem?_mapIdx, Option.map_map]
  rfl

theorem entry_withDefaultBases {type : Handle} {entry : Entry}
    (h : s.withDefaultBases.types[type]? = some entry) :
    ∃ old, s.types[type]? = some old ∧ entry = { old with base := s.defaultBase type old } := by
  simp only [withDefaultBases, Array.getElem?_mapIdx] at h
  obtain ⟨old, hold, rfl⟩ := Option.map_eq_some_iff.mp h
  exact ⟨old, hold, rfl⟩

theorem WellFormed.withDefaultBases (hs : s.WellFormed) : s.withDefaultBases.WellFormed := by
  refine hs.of_sameForms ⟨form_withDefaultBases, rfl, rfl, fun _ => rfl, rfl⟩
    (fun type entry h => ?_) (fun _ _ h => hs.inRange.signatures h)
    hs.inRange.pending hs.inRange.valueTypeRoot hs.inRange.arrayRoot
  obtain ⟨old, hold, rfl⟩ := entry_withDefaultBases h
  have hlinks := hs.inRange.links hold
  exact ⟨fun base hbase => defaultBase_lt hs hold hbase, hlinks.directInterfaces,
    hlinks.interfaces⟩

end NominalGenerics.Store
