import NominalGenerics.Proofs.Store.Reachable

/-!
# Derived entries

Interning makes the entry of an instantiation from the entries of its definition and arguments, and
that of an array from the entry of its element. Afterwards only its supertypes and its interface set
are computed. So as long as nothing else changes the parts, an interned type has the name and the
flags that its parts give it now.

An invariant that survives interning and computing is `Robust`. Expanding, closing, instantiating and
completing the declarations do nothing else, so they keep every robust invariant.
-/

namespace NominalGenerics

/-- What interning records and nothing computes later: all but supertypes, interface sets and
constraints. -/
def Entry.core (entry : Entry) : Entry :=
  { entry with
    shape := entry.shape.bare
    base := none
    directInterfaces := []
    interfaces := []
    closed := false }

/-- `after` is `before` with supertypes or an interface set computed, or with other constraints.
Instantiations that are nested too deep get no supertypes, and arrays no interfaces. -/
structure Entry.Computed (before after : Entry) : Prop where
  core : after.core = before.core
  deep : ∀ definition args, before.shape = .instantiation definition args →
    maxInstantiationDepth < before.nesting →
      after.base = before.base ∧ after.directInterfaces = before.directInterfaces
  array : ∀ element rank, before.shape = .array element rank →
    after.directInterfaces = before.directInterfaces

namespace Entry.Computed

variable {a b c : Entry}

theorem refl (entry : Entry) : Entry.Computed entry entry :=
  ⟨rfl, fun _ _ _ _ => ⟨rfl, rfl⟩, fun _ _ _ => rfl⟩

/-- Computing the interface set. -/
theorem close (entry : Entry) (interfaces : List Handle) (closed : Bool) :
    Entry.Computed entry { entry with interfaces, closed } :=
  ⟨rfl, fun _ _ _ _ => ⟨rfl, rfl⟩, fun _ _ _ => rfl⟩

theorem name (h : Entry.Computed a b) : b.name = a.name :=
  (congrArg Entry.name h.core : b.core.name = a.core.name)

theorem flags (h : Entry.Computed a b) : b.flags = a.flags :=
  (congrArg Entry.flags h.core : b.core.flags = a.core.flags)

theorem isOpen (h : Entry.Computed a b) : b.isOpen = a.isOpen :=
  (congrArg Entry.isOpen h.core : b.core.isOpen = a.core.isOpen)

theorem nesting (h : Entry.Computed a b) : b.nesting = a.nesting :=
  (congrArg Entry.nesting h.core : b.core.nesting = a.core.nesting)

theorem underlying (h : Entry.Computed a b) : b.underlying = a.underlying :=
  (congrArg Entry.underlying h.core : b.core.underlying = a.core.underlying)

theorem form (h : Entry.Computed a b) : b.form = a.form := by
  have hshape : b.shape.bare = a.shape.bare :=
    (congrArg Entry.shape h.core : b.core.shape = a.core.shape)
  rw [Entry.form, Entry.form, hshape, h.isOpen, h.nesting]

theorem instantiation (h : Entry.Computed a b) {definition : Handle} {args : List Handle} :
    b.shape = .instantiation definition args ↔ a.shape = .instantiation definition args := by
  rw [← Entry.form_shape_eq_instantiation, h.form, Entry.form_shape_eq_instantiation]

theorem isArray (h : Entry.Computed a b) {element : Handle} {rank : Nat} :
    b.shape = .array element rank ↔ a.shape = .array element rank := by
  rw [← Entry.form_shape_eq_array, h.form, Entry.form_shape_eq_array]

theorem trans (h : Entry.Computed a b) (h' : Entry.Computed b c) : Entry.Computed a c := by
  refine ⟨h'.core.trans h.core, fun definition args hshape hnesting => ?_,
    fun element rank hshape => ?_⟩
  · obtain ⟨hbase, hdirect⟩ := h.deep definition args hshape hnesting
    obtain ⟨hbase', hdirect'⟩ :=
      h'.deep definition args (h.instantiation.mpr hshape) (h.nesting ▸ hnesting)
    exact ⟨hbase'.trans hbase, hdirect'.trans hdirect⟩
  · exact (h'.array element rank (h.isArray.mpr hshape)).trans (h.array element rank hshape)

end Entry.Computed

namespace Store

variable {s s' : Store}

/-- The entry is the one that interning makes of the entries of its parts, up to what is computed
later. -/
inductive Derived (s : Store) (entry : Entry) : Prop
  | instantiation {definition : Handle} {declared : Entry} {args : List Handle} {parts : List Entry}
      (hdeclared : s.types[definition]? = some declared)
      (hparts : List.Forall₂ (fun a part => s.types[a]? = some part) args parts)
      (hcore : entry.core = (instantiationEntry definition declared args parts).core)
      (hdeep : maxInstantiationDepth < entry.nesting →
        entry.base = none ∧ entry.directInterfaces = [])
  | array {element : Handle} {part : Entry} {rank : Nat}
      (hpart : s.types[element]? = some part)
      (hcore : entry.core = (arrayEntry element part rank).core)
      (hdirect : entry.directInterfaces = [])

/-- The types of `s` are types of `s'`, with more computed at most. -/
def Computes (s s' : Store) : Prop :=
  ∀ (type : Handle) entry, s.types[type]? = some entry →
    ∃ entry', s'.types[type]? = some entry' ∧ entry.Computed entry'

/-- Parts that have the same cores give the same entry. -/
theorem instantiationEntry_core {definition : Handle} {declared declared' : Entry}
    {args : List Handle} {parts parts' : List Entry} (hdeclared : declared.Computed declared')
    (hparts : List.Forall₂ Entry.Computed parts parts') :
    instantiationEntry definition declared' args parts' =
      instantiationEntry definition declared args parts := by
  have hmap : ∀ {α : Type} (f : Entry → α), (∀ a b : Entry, a.Computed b → f b = f a) →
      parts'.map f = parts.map f := by
    intro α f hf
    induction hparts with
    | nil => rfl
    | cons h _ ih => rw [List.map_cons, List.map_cons, hf _ _ h, ih]
  have hany : parts'.any (·.isOpen) = parts.any (·.isOpen) := by
    have h := congrArg (·.any id) (hmap (·.isOpen) fun _ _ h => h.isOpen)
    simpa [List.any_map, Function.comp_def] using h
  simp only [instantiationEntry, hdeclared.name, hdeclared.flags, hany,
    hmap (·.name) fun _ _ h => h.name, hmap (·.nesting) fun _ _ h => h.nesting]

theorem arrayEntry_core {element : Handle} {part part' : Entry} {rank : Nat}
    (h : part.Computed part') : arrayEntry element part' rank = arrayEntry element part rank := by
  simp only [arrayEntry, h.name, h.isOpen, h.nesting]

theorem shape_of_core_instantiation {entry declared : Entry} {definition : Handle}
    {args : List Handle} {parts : List Entry}
    (h : entry.core = (instantiationEntry definition declared args parts).core) :
    entry.shape = .instantiation definition args :=
  Entry.form_shape_eq_instantiation.mp (congrArg Entry.shape h : entry.core.shape = _)

theorem shape_of_core_array {entry part : Entry} {element : Handle} {rank : Nat}
    (h : entry.core = (arrayEntry element part rank).core) : entry.shape = .array element rank :=
  Entry.form_shape_eq_array.mp (congrArg Entry.shape h : entry.core.shape = _)

theorem Computes.parts (h : Computes s s') {args : List Handle} {parts : List Entry}
    (hparts : List.Forall₂ (fun a part => s.types[a]? = some part) args parts) :
    ∃ parts', List.Forall₂ (fun a part => s'.types[a]? = some part) args parts' ∧
      List.Forall₂ Entry.Computed parts parts' := by
  induction hparts with
  | nil => exact ⟨[], .nil, .nil⟩
  | cons ha _ ih =>
      obtain ⟨part', ha', hpart⟩ := h _ _ ha
      obtain ⟨parts', hargs', hparts'⟩ := ih
      exact ⟨part' :: parts', .cons ha' hargs', .cons hpart hparts'⟩

theorem interned_of_entry {type : Handle} {entry : Entry} (hentry : s.types[type]? = some entry)
    (hshape : (∃ definition args, entry.shape = .instantiation definition args) ∨
      ∃ element rank, entry.shape = .array element rank) : s.Interned type :=
  ⟨entry.form, form_of_entry hentry,
    hshape.imp (fun ⟨definition, args, h⟩ =>
        ⟨definition, args, Entry.form_shape_eq_instantiation.mpr h⟩)
      fun ⟨element, rank, h⟩ => ⟨element, rank, Entry.form_shape_eq_array.mpr h⟩⟩

theorem Derived.interned {type : Handle} {entry : Entry} (h : s.Derived entry)
    (hentry : s.types[type]? = some entry) : s.Interned type := by
  cases h with
  | instantiation _ _ hcore _ =>
      exact interned_of_entry hentry (Or.inl ⟨_, _, shape_of_core_instantiation hcore⟩)
  | array _ hcore _ => exact interned_of_entry hentry (Or.inr ⟨_, _, shape_of_core_array hcore⟩)

theorem Derived.computed {entry entry' : Entry} (h : s.Derived entry) (hs : Computes s s')
    (hentry : entry.Computed entry') : s'.Derived entry' := by
  cases h with
  | instantiation hdeclared hparts hcore hdeep =>
      obtain ⟨declared', hdeclared', hcomputed⟩ := hs _ _ hdeclared
      obtain ⟨parts', hparts', hcomputed'⟩ := hs.parts hparts
      refine .instantiation hdeclared' hparts' ?_ fun hnesting => ?_
      · rw [instantiationEntry_core hcomputed hcomputed', hentry.core, hcore]
      · rw [hentry.nesting] at hnesting
        obtain ⟨hbase, hdirect⟩ := hentry.deep _ _ (shape_of_core_instantiation hcore) hnesting
        rw [hbase, hdirect]
        exact hdeep hnesting
  | array hpart hcore hdirect =>
      obtain ⟨part', hpart', hcomputed⟩ := hs _ _ hpart
      exact .array hpart' (by rw [hentry.core, hcore, arrayEntry_core hcomputed])
        (by rw [hentry.array _ _ (shape_of_core_array hcore), hdirect])

theorem Computes.refl (s : Store) : Computes s s := fun _ entry h => ⟨entry, h, .refl entry⟩

theorem Computes.trans {a b c : Store} (h : Computes a b) (h' : Computes b c) : Computes a c := by
  intro type entry hentry
  obtain ⟨entry', hentry', hcomputed⟩ := h type entry hentry
  obtain ⟨entry'', hentry'', hcomputed'⟩ := h' type entry' hentry'
  exact ⟨entry'', hentry'', hcomputed.trans hcomputed'⟩

theorem computes_of_types (h : s'.types = s.types) : Computes s s' :=
  fun _ entry hentry => ⟨entry, h ▸ hentry, .refl entry⟩

theorem computes_push {entry : Entry} (h : s'.types = s.types.push entry) : Computes s s' := by
  intro type old hold
  have hlt : type < s.types.size := (Array.getElem?_eq_some_iff.mp hold).choose
  refine ⟨old, ?_, .refl old⟩
  rw [h, Array.getElem?_push, if_neg (Nat.ne_of_lt hlt), hold]

theorem computes_modify {type : Handle} {change : Entry → Entry}
    (hchange : ∀ entry, s.types[type]? = some entry → entry.Computed (change entry)) :
    Computes s { s with types := s.types.modify type change } := by
  intro other entry hentry
  rw [Array.getElem?_modify, hentry]
  split
  · next heq => exact ⟨change entry, rfl, hchange entry (heq ▸ hentry)⟩
  · exact ⟨entry, rfl, .refl entry⟩

theorem Closing.computes {frozen : List Handle} (h : Closing frozen s s') : Computes s s' := by
  intro type entry hentry
  obtain ⟨interfaces, closed, hentry', -⟩ := h.entries hentry
  exact ⟨_, hentry', .close entry interfaces closed⟩

/-- An invariant that survives interning a type and computing supertypes and interface sets. -/
structure Robust (I : Store → Prop) : Prop where
  intern : ∀ {s s' : Store} {entry : Entry}, I s → entry.Fresh → s.Derived entry →
    s'.types = s.types.push entry → I s'
  compute : ∀ {s s' : Store}, I s → Computes s s' → s'.size = s.size → I s'

/-- What was there stays, with more computed. -/
theorem robust_computes (s : Store) : Robust (Computes s) :=
  ⟨fun h _ _ htypes => h.trans (computes_push htypes), fun h h' _ => h.trans h'⟩

theorem Robust.and {I J : Store → Prop} (h : Robust I) (h' : Robust J) :
    Robust fun s => I s ∧ J s :=
  ⟨fun hs hfresh hderived htypes =>
    ⟨h.intern hs.1 hfresh hderived htypes, h'.intern hs.2 hfresh hderived htypes⟩,
    fun hs hcomputes hsize => ⟨h.compute hs.1 hcomputes hsize, h'.compute hs.2 hcomputes hsize⟩⟩

section Keeping

variable {α β : Type} {I : Store → Prop}

/-- The invariant holds wherever the computation ends. -/
def Keeps (I : Store → Prop) (x : StoreM α) (s : Store) : Prop :=
  ∀ a s', x.run s = .ok (a, s') → I s'

theorem Keeps.pure {a : α} (hs : I s) : Keeps I (pure a : StoreM α) s := by
  intro _ s' hrun
  obtain ⟨-, rfl⟩ := run_pure_eq_ok.mp hrun
  exact hs

theorem Keeps.bind {x : StoreM α} {f : α → StoreM β} (hx : Keeps I x s)
    (hf : ∀ a s', I s' → Keeps I (f a) s') : Keeps I (x >>= f) s := by
  intro b s' hrun
  obtain ⟨a, mid, hrun, hrun'⟩ := run_bind_eq_ok.mp hrun
  exact hf a mid (hx a mid hrun) b s' hrun'

theorem Keeps.get_bind {f : Store → StoreM β} (h : Keeps I (f s) s) : Keeps I (get >>= f) s := h

theorem Keeps.lift_bind {x : Query α} {f : α → StoreM β}
    (h : ∀ a, x = .ok a → Keeps I (f a) s) : Keeps I (liftM x >>= f) s := by
  intro b s' hrun
  obtain ⟨a, mid, hrun, hrun'⟩ := run_bind_eq_ok.mp hrun
  obtain ⟨ha, rfl⟩ := run_lift_eq_ok.mp hrun
  exact h a ha b s' hrun'

theorem Keeps.mapM {f : α → StoreM β} {as : List α} (hs : I s)
    (hf : ∀ a ∈ as, ∀ t, I t → Keeps I (f a) t) : Keeps I (as.mapM f) s := by
  induction as generalizing s with
  | nil => exact .pure hs
  | cons a as ih =>
      rw [List.mapM_cons]
      refine (hf a List.mem_cons_self s hs).bind fun b t ht => ?_
      exact (ih ht fun c hc => hf c (List.mem_cons_of_mem a hc)).bind fun _ _ ht' => .pure ht'

end Keeping

namespace Robust

variable {I : Store → Prop}

theorem of_types (h : Robust I) (hs : I s) (htypes : s'.types = s.types) : I s' :=
  h.compute hs (computes_of_types htypes) (congrArg Array.size htypes)

theorem modifyEntry (h : Robust I) (hs : I s) {type : Handle} {change : Entry → Entry}
    (hchange : ∀ entry, s.types[type]? = some entry → entry.Computed (change entry)) :
    Keeps I (Store.modifyEntry type change) s := by
  intro _ s' hrun
  obtain ⟨-, rfl⟩ := modifyEntry_run hrun
  exact h.compute hs (computes_modify hchange) (by simp [size])

theorem internInstance (h : Robust I) (hs : I s) (definition : Handle) (args : List Handle) :
    Keeps I (Store.internInstance definition args) s := by
  refine .get_bind (.lift_bind fun declared hdeclared => ?_)
  split
  · split
    · exact .pure hs
    · split
      · exact .pure hs
      · intro type s' hrun
        obtain ⟨parts, _, hmap, hrun⟩ := run_bind_eq_ok.mp hrun
        obtain ⟨hparts, rfl⟩ := run_mapM_lift_eq_ok.mp hmap
        cases hrun
        refine h.intern hs (fresh_instantiationEntry definition declared args parts) ?_ rfl
        exact .instantiation (entry_eq_ok.mp hdeclared)
          (hparts.imp fun _ _ => entry_eq_ok.mp) rfl fun _ => ⟨rfl, rfl⟩
  · exact .pure hs

theorem internArray (h : Robust I) (hs : I s) (element : Handle) (rank : Nat) :
    Keeps I (Store.internArray element rank) s := by
  intro type s' hrun
  rcases internArray_cases hrun with ⟨rfl, -⟩ | ⟨-, -, -, part, hpart, rfl⟩
  · exact hs
  · exact h.intern hs (fresh_arrayEntry element part rank)
      (.array (entry_eq_ok.mp hpart) rfl rfl) rfl

theorem substituteWithin (h : Robust I) (hs : I s) (params args : List Handle) (height : Nat)
    (type : Handle) : Keeps I (Store.substituteWithin params args height type) s := by
  induction height generalizing s type with
  | zero =>
      intro _ _ hrun
      cases hrun
  | succ height ih =>
      unfold Store.substituteWithin
      split
      · split
        · exact .pure hs
        · intro _ _ hrun
          cases hrun
      · refine .get_bind (.lift_bind fun entry _ => ?_)
        split
        · refine (Keeps.mapM hs fun part _ t ht => ih ht part).bind fun replaced t ht => ?_
          split
          · exact .pure ht
          · exact h.internInstance ht _ _
        · refine (ih hs _).bind fun replaced t ht => ?_
          split
          · exact .pure ht
          · exact h.internArray ht _ _
        · exact .pure hs

theorem substitute (h : Robust I) (hs : I s) (params args : List Handle) (type : Handle) :
    Keeps I (Store.substitute params args type) s :=
  h.substituteWithin hs params args _ type

theorem expand (h : Robust I) (hs : I s) (type : Handle) : Keeps I (Store.expand type) s := by
  refine .get_bind (.lift_bind fun entry hentry => ?_)
  split
  · next definition args hshape =>
      split
      · exact .pure hs
      · next hnesting =>
          refine .lift_bind fun declared _ => ?_
          split
          · next params _ =>
              -- The entry is still the one that was read, so it is not nested too deep.
              have hboth := h.and (robust_computes s)
              have hbase : Keeps (fun t => I t ∧ Computes s t)
                  (declared.base.mapM (Store.substitute params args)) s := by
                cases declared.base with
                | none => exact .pure ⟨hs, .refl s⟩
                | some base =>
                    rw [Option.mapM_some, map_eq_pure_bind]
                    exact (hboth.substitute ⟨hs, .refl s⟩ params args base).bind
                      fun _ _ ht => .pure ht
              intro u s' hrun
              obtain ⟨base, t, hrun₁, hrun⟩ := run_bind_eq_ok.mp hrun
              obtain ⟨direct, t', hrun₂, hrun⟩ := run_bind_eq_ok.mp hrun
              obtain ⟨ht', hcomputes⟩ := Keeps.mapM (hbase _ _ hrun₁)
                (fun target _ t ht => hboth.substitute ht params args target) _ _ hrun₂
              obtain ⟨entry', hentry', hcomputed⟩ := hcomputes type entry (entry_eq_ok.mp hentry)
              refine h.modifyEntry ht' (fun other hother => ?_) u s' hrun
              obtain rfl : entry' = other := Option.some.inj (hentry'.symm.trans hother)
              refine ⟨rfl, fun _ _ _ hdeep => ?_, fun _ _ harray => ?_⟩
              · exact absurd (hcomputed.nesting ▸ hdeep) hnesting
              · rw [hcomputed.instantiation.mpr hshape] at harray
                cases harray
          · exact .pure hs
  · next element rank hshape =>
      refine h.modifyEntry hs fun other hother => ⟨rfl, fun _ _ hinst _ => ?_, fun _ _ _ => rfl⟩
      obtain rfl : entry = other := Option.some.inj ((entry_eq_ok.mp hentry).symm.trans hother)
      rw [hshape] at hinst
      cases hinst
  · exact .pure hs

theorem drain (h : Robust I) (hs : I s) (fuel : Nat) : Keeps I (Store.drain fuel) s := by
  induction fuel generalizing s with
  | zero =>
      refine .get_bind ?_
      split
      · exact .pure hs
      · intro _ _ hrun
        cases hrun
  | succ fuel ih =>
      refine .get_bind ?_
      split
      · exact .pure hs
      · next type rest _ =>
          have hmodify : Keeps I (modify fun store => { store with pending := rest }) s := by
            intro _ _ hrun
            cases hrun
            exact h.of_types hs rfl
          refine hmodify.bind fun _ t ht => (h.expand ht type).bind fun _ t' ht' => ?_
          exact (ih ht').bind fun _ _ ht => .pure ht

theorem close (h : Robust I) (hs : I s) (hdraining : s.Draining) : Keeps I Store.close s := by
  intro _ s' hrun
  obtain ⟨types, mid, hdrain, hrun⟩ := run_bind_eq_ok.mp hrun
  obtain ⟨hmid, -⟩ := drain_run hdraining hdrain
  obtain ⟨-, hclosing, -⟩ := closeAll_run hmid.wellFormed hrun
  exact h.compute (h.drain hs _ _ _ hdrain) hclosing.computes hclosing.size

/-- Closing after interning keeps a robust invariant. -/
theorem closeIfFinished (h : Robust I) (hs : I s) (hdraining : s.Draining) :
    Keeps I Store.closeIfFinished s := by
  refine .get_bind ?_
  split
  · exact h.close hs hdraining
  · exact .pure hs

theorem instantiate (h : Robust I) (hs : I s) (hlawful : s.Lawful) (definition : Handle)
    (args : List Handle) : Keeps I (Store.instantiate definition args) s := by
  intro type s' hrun
  obtain ⟨mid, hintern, hclose⟩ := run_instantiate_eq_ok hrun
  obtain ⟨hcoherent, hgrown, -⟩ := internInstance_run hlawful.wellFormed.coherent hintern
  exact h.closeIfFinished (h.internInstance hs definition args _ _ hintern)
    (hlawful.grown_draining hgrown hcoherent) _ _ hclose

theorem arrayOf (h : Robust I) (hs : I s) (hlawful : s.Lawful) (element : Handle) (rank : Nat) :
    Keeps I (Store.arrayOf element rank) s := by
  intro type s' hrun
  obtain ⟨mid, hintern, hclose⟩ := run_arrayOf_eq_ok hrun
  obtain ⟨hcoherent, hgrown, -⟩ := internArray_run hlawful.wellFormed.coherent hintern
  exact h.closeIfFinished (h.internArray hs element _ _ _ hintern)
    (hlawful.grown_draining hgrown hcoherent) _ _ hclose

/-- An operation that interns a type keeps a robust invariant. -/
theorem interning (h : Robust I) (hI : I s) (hs : s.Lawful)
    {op : Operation} (hop : op.interns = true) (hrun : op.run.run s = .ok ((), s')) : I s' := by
  cases op with
  | instantiate definition args =>
      obtain ⟨_, hrun⟩ := run_discard_eq_ok hrun
      exact h.instantiate hI hs definition args _ _ hrun
  | arrayOf element rank =>
      obtain ⟨_, hrun⟩ := run_discard_eq_ok hrun
      exact h.arrayOf hI hs element rank _ _ hrun
  | _ => cases hop

theorem finish (h : Robust I) (hs : I s) (hlawful : s.Lawful) (hunfinished : s.finished = false) :
    Keeps I Store.finish s := by
  intro _ s' hrun
  obtain ⟨mid, last, hclose, hall, rfl⟩ := finish_run hrun
  have hbases : Computes s s.withDefaultBases := by
    intro type entry hentry
    refine ⟨{ entry with base := s.defaultBase type entry }, ?_, rfl, ?_, fun _ _ _ => rfl⟩
    · simp [withDefaultBases, hentry]
    · intro definition args hshape _
      exact ⟨by simp [defaultBase, hshape], rfl⟩
  have hdraining := (hlawful.withDefaultBases hunfinished).draining
  have hmid := h.close (h.compute hs hbases (by simp [withDefaultBases, size])) hdraining _ _ hclose
  obtain ⟨hclosed, -⟩ := close_run hdraining hclose
  obtain ⟨-, hclosing, -⟩ := closeAll_run hclosed.wellFormed hall
  exact h.of_types (h.compute hmid hclosing.computes hclosing.size) rfl

end Robust

/-- Every type from `start` on has the entry that interning makes of its parts. -/
def DerivedFrom (start : Nat) (store : Store) : Prop :=
  ∀ (type : Handle) entry, start ≤ type → store.types[type]? = some entry → store.Derived entry

theorem DerivedFrom.interned {start : Nat} (h : s.DerivedFrom start) {type : Handle}
    (hge : start ≤ type) (hlt : type < s.size) : s.Interned type := by
  obtain ⟨entry, hentry⟩ := entry_of_lt hlt
  exact (h type entry hge hentry).interned hentry

/-- No type of a store comes after all of its types. -/
theorem derivedFrom_size (s : Store) : s.DerivedFrom s.size := fun _ _ hge hentry =>
  absurd (lt_of_entry hentry) (Nat.not_lt.mpr hge)

theorem robust_derivedFrom (start : Nat) : Robust (DerivedFrom start) := by
  refine ⟨fun {s s' entry} hs _ hderived htypes => ?_, fun {s s'} hs hcomputes hsize => ?_⟩
  · intro type entry' hge hentry'
    have hpush : Computes s s' := computes_push htypes
    rw [htypes, Array.getElem?_push] at hentry'
    split at hentry'
    · cases hentry'
      exact hderived.computed hpush (.refl _)
    · exact (hs type entry' hge hentry').computed hpush (.refl _)
  · intro type entry' hge hentry'
    obtain ⟨entry, hentry⟩ : ∃ entry, s.types[type]? = some entry :=
      entry_of_lt (hsize ▸ lt_of_entry hentry')
    obtain ⟨found, hfound, hcomputed⟩ := hcomputes type entry hentry
    obtain rfl : found = entry' := Option.some.inj (hfound.symm.trans hentry')
    exact (hs type entry hge hentry).computed hcomputes hcomputed

section Names

/-- The types of `s` are types of `s'`, of the same names and built in the same way. -/
def Names (s s' : Store) : Prop :=
  ∀ (type : Handle) entry, s.types[type]? = some entry →
    ∃ entry', s'.types[type]? = some entry' ∧ entry'.name = entry.name ∧ entry'.form = entry.form

theorem Names.refl (s : Store) : Names s s := fun _ entry h => ⟨entry, h, rfl, rfl⟩

theorem Names.trans {a b c : Store} (h : Names a b) (h' : Names b c) : Names a c := by
  intro type entry hentry
  obtain ⟨entry', hentry', hname, hform⟩ := h type entry hentry
  obtain ⟨entry'', hentry'', hname', hform'⟩ := h' type entry' hentry'
  exact ⟨entry'', hentry'', hname'.trans hname, hform'.trans hform⟩

theorem Names.lt (h : Names s s') {type : Handle} (hlt : type < s.size) : type < s'.size := by
  obtain ⟨entry, hentry⟩ := entry_of_lt hlt
  obtain ⟨entry', hentry', -⟩ := h type entry hentry
  exact lt_of_entry hentry'

theorem Computes.names (h : Computes s s') : Names s s' := by
  intro type entry hentry
  obtain ⟨entry', hentry', hcomputed⟩ := h type entry hentry
  exact ⟨entry', hentry', hcomputed.name, hcomputed.form⟩

/-- A name finds a type of that name, which is no type parameter. -/
theorem lookup?_entry {name : String} {type : Handle} (h : s.lookup? name = some type) :
    ∃ entry, s.types[type]? = some entry ∧ entry.name = name ∧ entry.isParameter = false := by
  unfold Store.lookup? at h
  obtain ⟨hlt, hmatch, -⟩ := Array.findIdx?_eq_some_iff_getElem.mp h
  rw [Bool.and_eq_true, beq_iff_eq, Bool.not_eq_true'] at hmatch
  exact ⟨_, Array.getElem?_eq_getElem hlt, hmatch.2, hmatch.1⟩

theorem lookup?_lt {name : String} {type : Handle} (h : s.lookup? name = some type) :
    type < s.size := by
  obtain ⟨entry, hentry, -⟩ := lookup?_entry h
  exact lt_of_entry hentry

/-- The name of a type that is no type parameter is found. -/
theorem lookup?_isSome {type : Handle} {entry : Entry} {name : String}
    (hentry : s.types[type]? = some entry) (hname : entry.name = name)
    (hparam : entry.isParameter = false) : (s.lookup? name).isSome := by
  unfold Store.lookup?
  rw [Array.findIdx?_isSome, Array.any_eq_true]
  obtain ⟨hlt, rfl⟩ := Array.getElem?_eq_some_iff.mp hentry
  exact ⟨type, hlt, by simp [hname, hparam]⟩

/-- A name that was found is found where it was. -/
theorem Names.lookup? (h : Names s s') {name : String} {type : Handle}
    (hfound : s.lookup? name = some type) : s'.lookup? name = some type := by
  unfold Store.lookup? at hfound ⊢
  obtain ⟨hlt, hmatch, hfirst⟩ := Array.findIdx?_eq_some_iff_getElem.mp hfound
  obtain ⟨entry', hentry', hname, hform⟩ := h type _ (Array.getElem?_eq_getElem hlt)
  obtain ⟨hlt', rfl⟩ := Array.getElem?_eq_some_iff.mp hentry'
  refine Array.findIdx?_eq_some_iff_getElem.mpr ⟨hlt', ?_, fun other hother => ?_⟩
  · rw [hname, ← Entry.form_isParameter, hform, Entry.form_isParameter]
    exact hmatch
  · obtain ⟨earlier, hearlier, hname', hform'⟩ :=
      h other _ (Array.getElem?_eq_getElem (Nat.lt_trans hother hlt))
    obtain ⟨_, rfl⟩ := Array.getElem?_eq_some_iff.mp hearlier
    rw [hname', ← Entry.form_isParameter, hform', Entry.form_isParameter]
    exact hfirst other hother

theorem names_of_types (h : s'.types = s.types) : Names s s' := (computes_of_types h).names

theorem names_appended (new : List Entry) (callables : Array Signature) :
    Names s (s.appended new callables) := by
  intro type entry hentry
  refine ⟨entry, ?_, rfl, rfl⟩
  rw [appended_getElem?, if_pos (lt_of_entry hentry), hentry]

theorem names_modifyEntry {type : Handle} {change : Entry → Entry} {u : Unit}
    (hrun : (modifyEntry type change).run s = .ok (u, s'))
    (hchange : ∀ entry, (change entry).name = entry.name ∧ (change entry).form = entry.form) :
    Names s s' := by
  obtain ⟨-, rfl⟩ := modifyEntry_run hrun
  intro other entry hentry
  rw [Array.getElem?_modify, hentry]
  split
  · exact ⟨change entry, rfl, hchange entry⟩
  · exact ⟨entry, rfl, rfl, rfl⟩

/-- No operation changes what a type is called or how it is built. -/
theorem Lawful.names (hs : s.Lawful) {op : Operation} (hallowed : op.Allowed s)
    (hrun : op.run.run s = .ok ((), s')) : Names s s' := by
  cases op with
  | declare kind name =>
      obtain ⟨_, hrun⟩ := run_discard_eq_ok hrun
      cases (push_run _).symm.trans hrun
      exact names_appended _ _
  | declareGeneric kind name params =>
      obtain ⟨_, hrun⟩ := run_discard_eq_ok hrun
      rw [declareGeneric_run hrun]
      exact names_appended _ _
  | declarePrimitive name kind =>
      obtain ⟨_, hrun⟩ := run_discard_eq_ok hrun
      cases (push_run _).symm.trans hrun
      exact names_appended _ _
  | declareEnum name underlying =>
      obtain ⟨_, hrun⟩ := run_discard_eq_ok hrun
      cases (push_run _).symm.trans hrun
      exact names_appended _ _
  | declarePointer name =>
      obtain ⟨_, hrun⟩ := run_discard_eq_ok hrun
      cases (push_run _).symm.trans hrun
      exact names_appended _ _
  | setBase type base => exact names_modifyEntry hrun fun _ => ⟨rfl, rfl⟩
  | addInterface type interface => exact names_modifyEntry hrun fun _ => ⟨rfl, rfl⟩
  | addFlags type flags => exact names_modifyEntry hrun fun _ => ⟨rfl, rfl⟩
  | removeFlags type flags => exact names_modifyEntry hrun fun _ => ⟨rfl, rfl⟩
  | setValueTypeRoot type => cases hrun; exact names_of_types rfl
  | setArrayRoot type => cases hrun; exact names_of_types rfl
  | setOptionalWrapper definition => cases hrun; exact names_of_types rfl
  | addSequenceInterface definition => cases hrun; exact names_of_types rfl
  | finish => exact ((robust_computes s).finish (.refl s) hs (hallowed.2 rfl) _ _ hrun).names
  | instantiate definition args =>
      exact ((robust_computes s).interning (.refl s) hs rfl hrun).names
  | arrayOf element rank => exact ((robust_computes s).interning (.refl s) hs rfl hrun).names
  | declareCallable name typeParams =>
      obtain ⟨_, hrun⟩ := run_discard_eq_ok hrun
      rw [declareCallable_run hrun]
      exact names_appended _ _
  | addParameter id type mode => cases hrun; exact names_of_types rfl
  | setReturnType id type => cases hrun; exact names_of_types rfl
  | setDeclaringType id type => cases hrun; exact names_of_types rfl
  | addConstraint param constraint =>
      refine names_modifyEntry hrun fun entry => ?_
      split
      · next info hshape => exact ⟨rfl, by simp [Entry.form, hshape, Shape.bare]⟩
      · exact ⟨rfl, rfl⟩

/-- Only completing the declarations finishes a store. -/
theorem finished_of_run {op : Operation} (hs : s.Lawful) (hop : op ≠ .finish)
    (hrun : op.run.run s = .ok ((), s')) : s'.finished = s.finished := by
  have hmodify : ∀ {type change}, (modifyEntry type change).run s = .ok ((), s') →
      s'.finished = s.finished := by
    intro type change hrun
    obtain ⟨-, rfl⟩ := modifyEntry_run hrun
    rfl
  cases op with
  | declare kind name => cases hrun; rfl
  | declareGeneric kind name params =>
      obtain ⟨_, hrun⟩ := run_discard_eq_ok hrun
      rw [declareGeneric_run hrun]
      rfl
  | declarePrimitive name kind => cases hrun; rfl
  | declareEnum name underlying => cases hrun; rfl
  | declarePointer name => cases hrun; rfl
  | setBase type base => exact hmodify hrun
  | addInterface type interface => exact hmodify hrun
  | addFlags type flags => exact hmodify hrun
  | removeFlags type flags => exact hmodify hrun
  | setValueTypeRoot type => cases hrun; rfl
  | setArrayRoot type => cases hrun; rfl
  | setOptionalWrapper definition => cases hrun; rfl
  | addSequenceInterface definition => cases hrun; rfl
  | finish => exact absurd rfl hop
  | instantiate definition args => exact (hs.later_of_interns rfl hrun).2.finished
  | arrayOf element rank => exact (hs.later_of_interns rfl hrun).2.finished
  | declareCallable name typeParams =>
      obtain ⟨_, hrun⟩ := run_discard_eq_ok hrun
      rw [declareCallable_run hrun]
      rfl
  | addParameter id type mode => cases hrun; rfl
  | setReturnType id type => cases hrun; rfl
  | setDeclaringType id type => cases hrun; rfl
  | addConstraint param constraint => exact hmodify hrun

end Names

end Store

end NominalGenerics
