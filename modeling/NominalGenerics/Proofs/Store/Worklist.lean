import Mathlib.Data.Fintype.BigOperators
import NominalGenerics.Proofs.Store.Progress
import NominalGenerics.Proofs.Store.Reachable

/-!
# The worklist of pending types

Expanding a pending type may intern further types, which are pending in turn, so no list shrinks from
step to step. The worklist empties all the same. Only instantiations of nesting at most
`maxInstantiationDepth` are expanded, so putting their arguments in for the parameters of a declared
supertype gives types of bounded nesting. Over the leaves, the definitions and the ranks that the
store starts with there are finitely many of these, and each is stored once: `Frame.capacity` bounds
the number of types that the store can ever hold. Each step takes one type off the list and queues
exactly the types that it adds.
-/

namespace NominalGenerics.Store

variable {s s' : Store}

section Nesting

theorem le_foldl_max {ns : List Nat} {n start : Nat} (h : n ∈ ns) : n ≤ ns.foldl max start := by
  induction ns generalizing start with
  | nil => cases h
  | cons m ns ih =>
      rcases List.mem_cons.mp h with rfl | h
      · clear ih h
        rw [List.foldl_cons]
        have hstart : ∀ {ns : List Nat} {start : Nat}, start ≤ ns.foldl max start := by
          intro ns
          induction ns with
          | nil => exact Nat.le_refl _
          | cons m ns ih =>
              intro start
              exact Nat.le_trans (Nat.le_max_left start m) ih
        exact Nat.le_trans (Nat.le_max_right start n) hstart
      · exact ih h

theorem foldl_max_le {ns : List Nat} {bound start : Nat} (hstart : start ≤ bound)
    (h : ∀ n ∈ ns, n ≤ bound) : ns.foldl max start ≤ bound := by
  induction ns generalizing start with
  | nil => exact hstart
  | cons n ns ih =>
      rw [List.foldl_cons]
      exact ih (Nat.max_le.mpr ⟨hstart, h n List.mem_cons_self⟩)
        fun m hm => h m (List.mem_cons_of_mem n hm)

/-- The nesting of the type that a handle denotes. -/
def nestingAt (store : Store) (type : Handle) : Nat :=
  (store.types[type]?.map (·.nesting)).getD 0

variable {type : Handle} {form : Entry}

theorem nestingAt_of_form (h : s.form type = some form) : s.nestingAt type = form.nesting := by
  obtain ⟨entry, hentry, rfl⟩ := form_eq_some.mp h
  rw [nestingAt, hentry]
  rfl

theorem Extends.nestingAt (h : Extends s s') (hlt : type < s.size) :
    s'.nestingAt type = s.nestingAt type := by
  obtain ⟨form, hform⟩ := form_isSome hlt
  rw [nestingAt_of_form hform, nestingAt_of_form (h.forms hform)]

theorem nestingAt_arguments (hs : s.Coherent) (hform : s.form type = some form)
    {definition : Handle} {args : List Handle}
    (hshape : form.shape = .instantiation definition args) :
    s.nestingAt type = 1 + (args.map s.nestingAt).foldl max 0 := by
  obtain ⟨-, -, parts, hparts, -, hnesting⟩ := hs.instantiation hform hshape
  have hmap : args.map s.nestingAt = parts.map (·.nesting) := by
    clear hnesting hshape
    induction hparts with
    | nil => rfl
    | cons hpart _ ih => rw [List.map_cons, List.map_cons, ih, nestingAt_of_form hpart.2]
  rw [nestingAt_of_form hform, hnesting, hmap]

theorem nestingAt_element (hs : s.Coherent) (hform : s.form type = some form) {element : Handle}
    {rank : Nat} (hshape : form.shape = .array element rank) :
    s.nestingAt type = s.nestingAt element + 1 := by
  obtain ⟨-, -, part, hpart, -, hnesting⟩ := hs.array hform hshape
  rw [nestingAt_of_form hform, hnesting, nestingAt_of_form hpart]

theorem nestingAt_definition (hs : s.Coherent) {params : List Handle}
    (hd : s.Defines type params) : s.nestingAt type = 0 := by
  obtain ⟨form, hform, hshape⟩ := hd
  rw [nestingAt_of_form hform, (hs.definition hform hshape).2.1]

/-- An application is nested at most one deeper than its arguments. -/
theorem Applies.nestingAt_le (hs : s.Coherent) {definition result : Handle} {args : List Handle}
    (h : s.Applies definition args result) {bound : Nat}
    (hargs : ∀ a ∈ args, s.nestingAt a ≤ bound) : s.nestingAt result ≤ bound + 1 := by
  obtain ⟨params, hd, -, ⟨-, rfl⟩ | ⟨-, form, hform, hshape⟩⟩ := h
  · rw [nestingAt_definition hs hd]
    exact Nat.zero_le _
  · have hfold : (args.map s.nestingAt).foldl max 0 ≤ bound :=
      foldl_max_le (Nat.zero_le _) (by simpa using hargs)
    rw [nestingAt_arguments hs hform hshape]
    omega

/-- Putting in arguments adds at most their nesting. -/
theorem Replaced.nestingAt_le (hs : s.Coherent) {params args : List Handle} {result : Handle}
    {added : Nat} (hadded : ∀ a ∈ args, s.nestingAt a ≤ added)
    (h : s.Replaced true params args type result) :
    s.nestingAt result ≤ s.nestingAt type + added := by
  induction h with
  | bound _ harg => exact Nat.le_add_left_of_le (hadded _ (List.mem_of_getElem? harg))
  | @application type definition result form parts _ hform hdefinition hatomic hlength _ hresult ih =>
      cases hshape : form.shape with
      | instantiation definition' inner =>
          have hinner : form.arguments = inner := by simp [Entry.arguments, hshape]
          rw [nestingAt_arguments hs hform hshape]
          have hparts : ∀ part ∈ parts,
              s.nestingAt part ≤ (inner.map s.nestingAt).foldl max 0 + added := by
            intro part hpart
            obtain ⟨i, hi⟩ := List.getElem?_of_mem hpart
            obtain ⟨a, ha⟩ := getElem?_of_length_eq hlength hi
            have hmem : a ∈ inner := hinner ▸ List.mem_of_getElem? ha
            have hle : s.nestingAt a ≤ (inner.map s.nestingAt).foldl max 0 :=
              le_foldl_max (List.mem_map_of_mem hmem)
            have := ih i a part ha hi
            omega
          have := hresult.nestingAt_le hs hparts
          omega
      | definition own =>
          simp only [Entry.definition?, hshape, Option.some.injEq] at hdefinition
          exact absurd hdefinition.symm (hatomic rfl)
      | named => simp [Entry.definition?, hshape] at hdefinition
      | array element rank => simp [Entry.definition?, hshape] at hdefinition
      | parameter info => simp [Entry.definition?, hshape] at hdefinition
  | array _ hform harray _ hresult ih =>
      obtain ⟨_, hform', hshape'⟩ := hresult
      obtain ⟨_, hform'', hshape''⟩ := isArray_of_form hform harray
      rw [nestingAt_element hs hform' hshape', nestingAt_element hs hform'' hshape'']
      omega
  | leaf => exact Nat.le_add_right _ _

end Nesting

section Growth

/-- Types that are in `s'` but not in `s` have bounded nesting. -/
def NewNesting (bound : Nat) (s s' : Store) : Prop :=
  ∀ type, s.size ≤ type → type < s'.size → s'.nestingAt type ≤ bound

theorem NewNesting.refl (bound : Nat) (s : Store) : NewNesting bound s s :=
  fun _ hle hlt => absurd hlt (Nat.not_lt.mpr hle)

theorem NewNesting.trans {bound : Nat} {a b c : Store} (hab : NewNesting bound a b)
    (hbc : NewNesting bound b c) (hext : Extends b c) : NewNesting bound a c := by
  intro type hle hlt
  by_cases hold : type < b.size
  · rw [hext.nestingAt hold]
    exact hab type hle hold
  · exact hbc type (Nat.le_of_not_lt hold) hlt

/-- Ranks of arrays are bounded. -/
def RanksWithin (rank : Nat) (store : Store) : Prop :=
  ∀ type element r, store.IsArray element r type → r ≤ rank

theorem size_interned {entry : Entry} {instances : List ((Handle × List Handle) × Handle)}
    {arrays : List ((Handle × Nat) × Handle)} :
    (s.interned entry instances arrays).size = s.size + 1 := by
  simp [interned, size]

theorem ranksWithin_interned {rank : Nat} {entry : Entry}
    {instances : List ((Handle × List Handle) × Handle)} {arrays : List ((Handle × Nat) × Handle)}
    (hs : s.RanksWithin rank) (hentry : ∀ element r, entry.shape = .array element r → r ≤ rank) :
    (s.interned entry instances arrays).RanksWithin rank := by
  rintro type element r ⟨form, hform, hshape⟩
  rw [form_interned] at hform
  split at hform
  · cases hform
    exact hentry element r (Entry.form_shape_eq_array.mp hshape)
  · exact hs type element r ⟨form, hform, hshape⟩

theorem internInstance_bounded (hs : s.Coherent) {definition type : Handle} {args : List Handle}
    {bound rank : Nat} (hargs : ∀ a ∈ args, a < s.size ∧ s.nestingAt a + 1 ≤ bound)
    (hbound : 1 ≤ bound) (hranks : s.RanksWithin rank)
    (hrun : (internInstance definition args).run s = .ok (type, s')) :
    NewNesting bound s s' ∧ s'.RanksWithin rank := by
  obtain ⟨hs', hgrown, -, happlies⟩ := internInstance_run hs hrun
  have hparts : ∀ a ∈ args, s'.nestingAt a ≤ bound - 1 := by
    intro a ha
    obtain ⟨halt, hnesting⟩ := hargs a ha
    rw [hgrown.extends.nestingAt halt]
    omega
  rcases internInstance_cases hrun with
    ⟨rfl, -⟩ | ⟨params, hd, hlength, -, ⟨rfl, -⟩ | ⟨-, rfl, declared, argEntries, -, rfl⟩⟩
  · exact ⟨NewNesting.refl bound s', hranks⟩
  · exact ⟨NewNesting.refl bound s', hranks⟩
  · refine ⟨fun type hle hlt => ?_, ranksWithin_interned hranks (by simp [instantiationEntry])⟩
    obtain rfl : type = s.size := by
      rw [size_interned] at hlt
      exact Nat.le_antisymm (Nat.le_of_lt_succ hlt) hle
    have := (happlies params hd hlength).nestingAt_le hs' hparts
    omega

theorem internArray_bounded (hs : s.Coherent) {element type : Handle} {rank bound maxRank : Nat}
    (helement : element < s.size) (hnesting : s.nestingAt element + 1 ≤ bound)
    (hrank : rank ≤ maxRank) (hranks : s.RanksWithin maxRank)
    (hrun : (internArray element rank).run s = .ok (type, s')) :
    NewNesting bound s s' ∧ s'.RanksWithin maxRank := by
  obtain ⟨hs', hgrown, -, harray⟩ := internArray_run hs hrun
  rcases internArray_cases hrun with ⟨rfl, -⟩ | ⟨-, rfl, -, entry, -, rfl⟩
  · exact ⟨NewNesting.refl bound s', hranks⟩
  · refine ⟨fun type hle hlt => ?_, ranksWithin_interned hranks ?_⟩
    · obtain rfl : type = s.size := by
        rw [size_interned] at hlt
        exact Nat.le_antisymm (Nat.le_of_lt_succ hlt) hle
      obtain ⟨form, hform, hshape⟩ := harray
      rw [nestingAt_element hs' hform hshape, hgrown.extends.nestingAt helement]
      exact hnesting
    · simp only [arrayEntry, Shape.array.injEq]
      rintro _ _ ⟨-, rfl⟩
      exact hrank

/-- What substitution relies on: the arguments are types of bounded nesting, and ranks are
bounded. -/
structure Substitutable (args : List Handle) (added rank : Nat) (store : Store) : Prop where
  coherent : store.Coherent
  args_lt : ∀ a ∈ args, a < store.size
  nesting : ∀ a ∈ args, store.nestingAt a ≤ added
  ranks : store.RanksWithin rank

theorem Substitutable.grown {args : List Handle} {added rank : Nat}
    (h : Substitutable args added rank s) (hgrown : Grown s s') (hs' : s'.Coherent)
    (hranks : s'.RanksWithin rank) : Substitutable args added rank s' :=
  ⟨hs', fun a ha => hgrown.lt (h.args_lt a ha),
    fun a ha => hgrown.extends.nestingAt (h.args_lt a ha) ▸ h.nesting a ha, hranks⟩

/-- A run that interns only types of bounded nesting. -/
def Interns (args : List Handle) (added rank bound : Nat) (s s' : Store) : Prop :=
  Substitutable args added rank s' ∧ Grown s s' ∧ NewNesting bound s s'

theorem Interns.trans {args : List Handle} {added rank bound : Nat} {a b c : Store}
    (hab : Interns args added rank bound a b) (hbc : Interns args added rank bound b c) :
    Interns args added rank bound a c :=
  ⟨hbc.1, hab.2.1.trans hbc.2.1, hab.2.2.trans hbc.2.2 hbc.2.1.extends⟩

theorem mapM_interns {f : Handle → StoreM Handle} {args : List Handle} {added rank bound : Nat}
    (hf : ∀ s type result s', Substitutable args added rank s → type < s.size →
      s.nestingAt type + added ≤ bound → (f type).run s = .ok (result, s') →
      Interns args added rank bound s s')
    {types results : List Handle} (hs : Substitutable args added rank s)
    (htypes : ∀ t ∈ types, t < s.size ∧ s.nestingAt t + added ≤ bound)
    (hrun : (types.mapM f).run s = .ok (results, s')) : Interns args added rank bound s s' := by
  induction types generalizing s results with
  | nil =>
      obtain ⟨rfl, rfl⟩ := run_pure_eq_ok.mp hrun
      exact ⟨hs, Grown.refl s, NewNesting.refl bound s⟩
  | cons type types ih =>
      rw [List.mapM_cons] at hrun
      obtain ⟨result, t, hhead, hrun⟩ := run_bind_eq_ok.mp hrun
      obtain ⟨rest, t', htail, hrun⟩ := run_bind_eq_ok.mp hrun
      obtain ⟨rfl, rfl⟩ := run_pure_eq_ok.mp hrun
      obtain ⟨hlt, hnesting⟩ := htypes type List.mem_cons_self
      have hfirst := hf s type result t hs hlt hnesting hhead
      refine hfirst.trans (ih hfirst.1 (fun other hother => ?_) htail)
      obtain ⟨hlt', hnesting'⟩ := htypes other (List.mem_cons_of_mem type hother)
      exact ⟨hfirst.2.1.lt hlt', (hfirst.2.1.extends.nestingAt hlt').symm ▸ hnesting'⟩

/-- Substitution interns only types whose nesting is bounded by that of the type and of the
arguments. -/
theorem substituteWithin_interns {params args : List Handle} {added rank bound height : Nat}
    {type result : Handle} (hs : Substitutable args added rank s) (htype : type < s.size)
    (hbound : s.nestingAt type + added ≤ bound)
    (hrun : (substituteWithin params args height type).run s = .ok (result, s')) :
    Interns args added rank bound s s' := by
  induction height generalizing s s' type result with
  | zero => cases hrun
  | succ height ih =>
      unfold substituteWithin at hrun
      split at hrun
      · split at hrun
        · obtain ⟨-, rfl⟩ := run_pure_eq_ok.mp hrun
          exact ⟨hs, Grown.refl s, NewNesting.refl bound s⟩
        · cases hrun
      · obtain ⟨_, _, hget, hrun⟩ := run_bind_eq_ok.mp hrun
        cases hget
        obtain ⟨entry, _, hread, hrun⟩ := run_bind_eq_ok.mp hrun
        obtain ⟨hentry, rfl⟩ := run_lift_eq_ok.mp hread
        have hform : s.form type = some entry.form := form_of_entry (entry_eq_ok.mp hentry)
        split at hrun
        · next definition inner hshape =>
            have hshape' := Entry.form_shape_eq_instantiation.mpr hshape
            have hnesting := nestingAt_arguments hs.coherent hform hshape'
            obtain ⟨-, -, parts, hparts, -⟩ := hs.coherent.instantiation hform hshape'
            have hinner : ∀ a ∈ inner, a < s.size ∧ s.nestingAt a + 1 + added ≤ bound := by
              intro a ha
              obtain ⟨_, -, hlt, -⟩ := mem_of_forall₂ hparts ha
              have hle : s.nestingAt a ≤ (inner.map s.nestingAt).foldl max 0 :=
                le_foldl_max (List.mem_map_of_mem ha)
              exact ⟨Nat.lt_trans hlt htype, by omega⟩
            obtain ⟨replaced, t, hmap, hrun⟩ := run_bind_eq_ok.mp hrun
            have hmapped := mapM_interns (fun _ _ _ _ => ih) hs (fun a ha =>
              ⟨(hinner a ha).1, by have := (hinner a ha).2; omega⟩) hmap
            obtain ⟨-, -, hreplaced⟩ :=
              mapM_replaces (fun _ _ _ _ => substituteWithin_run) hs.coherent hs.args_lt hmap
            obtain ⟨ht, hgrown, -⟩ := id hmapped
            split at hrun
            · obtain ⟨-, rfl⟩ := run_pure_eq_ok.mp hrun
              exact hmapped
            · obtain ⟨hcoherent, hgrown', -⟩ := internInstance_run ht.coherent hrun
              have hargs : ∀ b ∈ replaced, b < t.size ∧ t.nestingAt b + 1 ≤ bound := by
                intro b hb
                obtain ⟨a, ha, hlt, hr⟩ := mem_of_forall₂ hreplaced.flip hb
                have hle := hr.nestingAt_le ht.coherent ht.nesting
                obtain ⟨halt, hbounded⟩ := hinner a ha
                rw [hgrown.extends.nestingAt halt] at hle
                exact ⟨hlt, by omega⟩
              obtain ⟨hnew', hranks⟩ : NewNesting bound t s' ∧ s'.RanksWithin rank :=
                internInstance_bounded ht.coherent hargs (by omega) ht.ranks hrun
              exact hmapped.trans ⟨ht.grown hgrown' hcoherent hranks, hgrown', hnew'⟩
        · next element r hshape =>
            have hshape' := Entry.form_shape_eq_array.mpr hshape
            have hnesting := nestingAt_element hs.coherent hform hshape'
            obtain ⟨-, hlt, -⟩ := hs.coherent.array hform hshape'
            have helement : element < s.size := Nat.lt_trans hlt htype
            obtain ⟨replaced, t, hpart, hrun⟩ := run_bind_eq_ok.mp hrun
            have hmapped := ih hs helement (by omega) hpart
            obtain ⟨ht, hgrown, -⟩ := id hmapped
            split at hrun
            · obtain ⟨-, rfl⟩ := run_pure_eq_ok.mp hrun
              exact hmapped
            · obtain ⟨-, -, hreplaced, hr⟩ := substituteWithin_run hs.coherent hs.args_lt hpart
              have hle := hr.nestingAt_le ht.coherent ht.nesting
              rw [hgrown.extends.nestingAt helement] at hle
              obtain ⟨hcoherent, hgrown', -⟩ := internArray_run ht.coherent hrun
              obtain ⟨hnew', hranks⟩ : NewNesting bound t s' ∧ s'.RanksWithin rank :=
                internArray_bounded ht.coherent hreplaced (by omega)
                  (hs.ranks type element r ⟨_, hform, hshape'⟩) ht.ranks hrun
              exact hmapped.trans ⟨ht.grown hgrown' hcoherent hranks, hgrown', hnew'⟩
        · obtain ⟨-, rfl⟩ := run_pure_eq_ok.mp hrun
          exact ⟨hs, Grown.refl s, NewNesting.refl bound s⟩

end Growth

section Counting

/-- What bounds the types that a store can come to hold by expansion. -/
structure Frame where
  /-- The number of types at the start. -/
  types : Nat
  /-- The largest number of parameters of a definition. -/
  arity : Nat
  /-- The largest rank of an array. -/
  rank : Nat
  /-- The largest nesting of a type at the start. -/
  nesting : Nat
  /-- The largest nesting of a supertype declared on a definition. -/
  declared : Nat

/-- The nesting that expansion does not exceed: an instantiation that is expanded has arguments of
nesting less than `maxInstantiationDepth`, which go into a declared supertype. -/
def Frame.expandedNesting (frame : Frame) : Nat := maxInstantiationDepth - 1 + frame.declared

/-- The number of types up to a given nesting: leaves, applications of a definition to types of
smaller nesting, and arrays of such types. -/
def Frame.capacity (frame : Frame) : Nat → Nat
  | 0 => frame.types
  | depth + 1 =>
      frame.types + frame.types * (frame.capacity depth + 1) ^ frame.arity +
        frame.capacity depth * (frame.rank + 1)

/-- The store holds only types that fit the frame. -/
structure Within (store : Store) (frame : Frame) : Prop where
  added : ∀ type, frame.types ≤ type → type < store.size →
    store.Interned type ∧ store.nestingAt type ≤ frame.expandedNesting
  nesting : ∀ type, type < frame.types → store.nestingAt type ≤ frame.nesting
  arity : ∀ type params, store.Defines type params → params.length ≤ frame.arity
  ranks : store.RanksWithin frame.rank
  declared : ∀ type params base interfaces, store.Defines type params →
    store.links type = some (base, interfaces) → ∀ target ∈ base.toList ++ interfaces,
      store.nestingAt target ≤ frame.declared

/-- The handles of types up to a given nesting. -/
def upTo (store : Store) (depth : Nat) : Finset Handle :=
  {type ∈ Finset.range store.size | store.nestingAt type ≤ depth}

theorem mem_upTo {depth : Nat} {type : Handle} :
    type ∈ s.upTo depth ↔ type < s.size ∧ s.nestingAt type ≤ depth := by
  simp [upTo]

/-- Lists of bounded length over some handles, read as functions on positions. -/
def argumentLists (handles : Finset Handle) (arity : Nat) : Finset (Fin arity → Option Handle) :=
  Fintype.piFinset fun _ => insert none (handles.image some)

theorem card_argumentLists (handles : Finset Handle) (arity : Nat) :
    (argumentLists handles arity).card ≤ (handles.card + 1) ^ arity := by
  rw [argumentLists, Fintype.card_piFinset_const]
  refine Nat.pow_le_pow_left ((Finset.card_insert_le _ _).trans ?_) arity
  exact Nat.succ_le_succ Finset.card_image_le

/-- A list no longer than `arity` is determined by its elements at the first positions. -/
theorem eq_of_positions {arity : Nat} {args args' : List Handle} (h : args.length ≤ arity)
    (h' : args'.length ≤ arity)
    (heq : (fun i : Fin arity => args[i.val]?) = fun i => args'[i.val]?) : args = args' := by
  apply List.ext_getElem?
  intro i
  by_cases hi : i < arity
  · exact congrFun heq ⟨i, hi⟩
  · rw [List.getElem?_eq_none (by omega), List.getElem?_eq_none (by omega)]

/-- How a type is built, with the arguments read as a function on positions. -/
def code (store : Store) (arity : Nat) (type : Handle) :
    Handle ⊕ (Handle × (Fin arity → Option Handle)) ⊕ (Handle × Nat) :=
  match (store.form type).map Entry.shape with
  | some (.instantiation definition args) => .inr (.inl (definition, fun i => args[i.val]?))
  | some (.array element rank) => .inr (.inr (element, rank))
  | _ => .inl type

/-- The codes of types that fit a frame and are built from given handles. -/
def codes (frame : Frame) (handles : Finset Handle) :
    Finset (Handle ⊕ (Handle × (Fin frame.arity → Option Handle)) ⊕ (Handle × Nat)) :=
  (Finset.range frame.types).disjSum
    ((Finset.range frame.types ×ˢ argumentLists handles frame.arity).disjSum
      (handles ×ˢ Finset.range (frame.rank + 1)))

section Codes

variable {frame : Frame} {type : Handle} {form : Entry}

theorem code_instantiation (hform : s.form type = some form) {definition : Handle}
    {args : List Handle} (hshape : form.shape = .instantiation definition args) (arity : Nat) :
    s.code arity type = .inr (.inl (definition, fun i => args[i.val]?)) := by
  simp [code, hform, hshape]

theorem code_array (hform : s.form type = some form) {element : Handle} {rank : Nat}
    (hshape : form.shape = .array element rank) (arity : Nat) :
    s.code arity type = .inr (.inr (element, rank)) := by
  simp [code, hform, hshape]

theorem code_leaf (h : ¬ s.Interned type) (arity : Nat) : s.code arity type = .inl type := by
  unfold code
  split
  · next definition args hshape =>
      obtain ⟨form, hform, hshape⟩ := Option.map_eq_some_iff.mp hshape
      exact absurd ⟨form, hform, Or.inl ⟨definition, args, hshape⟩⟩ h
  · next element rank hshape =>
      obtain ⟨form, hform, hshape⟩ := Option.map_eq_some_iff.mp hshape
      exact absurd ⟨form, hform, Or.inr ⟨element, rank, hshape⟩⟩ h
  · rfl

/-- The three kinds of codes. -/
theorem code_cases (hs : s.Coherent) (hw : ∀ type params, s.Defines type params →
    params.length ≤ frame.arity) (type : Handle) :
    s.code frame.arity type = .inl type ∨
    (∃ definition args, args.length ≤ frame.arity ∧
      (∃ form, s.form type = some form ∧ form.shape = .instantiation definition args) ∧
      s.code frame.arity type = .inr (.inl (definition, fun i => args[i.val]?))) ∨
    ∃ element rank, s.IsArray element rank type ∧
      s.code frame.arity type = .inr (.inr (element, rank)) := by
  by_cases h : s.Interned type
  · obtain ⟨form, hform, ⟨definition, args, hshape⟩ | ⟨element, rank, hshape⟩⟩ := h
    · obtain ⟨⟨params, hd, hlength, -⟩, -⟩ := hs.instantiation hform hshape
      exact Or.inr (Or.inl ⟨definition, args, hlength ▸ hw definition params hd,
        ⟨form, hform, hshape⟩, code_instantiation hform hshape _⟩)
    · exact Or.inr (Or.inr ⟨element, rank, ⟨form, hform, hshape⟩, code_array hform hshape _⟩)
  · exact Or.inl (code_leaf h _)

theorem Within.lt_of_not_interned (hw : s.Within frame) (hlt : type < s.size)
    (h : ¬ s.Interned type) : type < frame.types := by
  by_contra hle
  exact h (hw.added type (Nat.le_of_not_lt hle) hlt).1

theorem Within.definition_lt (hw : s.Within frame) {params : List Handle}
    (hd : s.Defines type params) : type < frame.types := by
  obtain ⟨form, hform, -⟩ := id hd
  exact hw.lt_of_not_interned (form_lt hform) fun h => h.not_defines hd

theorem code_mem_codes (hs : s.Coherent) (hw : s.Within frame) {depth : Nat}
    (h : type ∈ s.upTo (depth + 1)) :
    s.code frame.arity type ∈ codes frame (s.upTo depth) := by
  obtain ⟨hlt, hnesting⟩ := mem_upTo.mp h
  by_cases hinterned : s.Interned type
  · obtain ⟨form, hform, ⟨definition, args, hshape⟩ | ⟨element, rank, hshape⟩⟩ := hinterned
    · obtain ⟨⟨params, hd, -⟩, -, parts, hparts, -⟩ := hs.instantiation hform hshape
      rw [nestingAt_arguments hs hform hshape] at hnesting
      have hargs : ∀ a ∈ args, a ∈ s.upTo depth := by
        intro a ha
        obtain ⟨_, -, halt, -⟩ := mem_of_forall₂ hparts ha
        have hle : s.nestingAt a ≤ (args.map s.nestingAt).foldl max 0 :=
          le_foldl_max (List.mem_map_of_mem ha)
        exact mem_upTo.mpr ⟨Nat.lt_trans halt hlt, by omega⟩
      rw [code_instantiation hform hshape]
      simp only [codes, Finset.inr_mem_disjSum, Finset.inl_mem_disjSum, Finset.mem_product,
        Finset.mem_range, argumentLists, Fintype.mem_piFinset]
      refine ⟨hw.definition_lt hd, fun i => ?_⟩
      cases hi : args[i.val]? with
      | none => exact Finset.mem_insert_self _ _
      | some a =>
          refine Finset.mem_insert_of_mem (Finset.mem_image_of_mem _ ?_)
          exact hargs a (List.mem_of_getElem? hi)
    · obtain ⟨-, helement, -⟩ := hs.array hform hshape
      rw [nestingAt_element hs hform hshape] at hnesting
      rw [code_array hform hshape]
      simp only [codes, Finset.inr_mem_disjSum, Finset.mem_product, Finset.mem_range, mem_upTo]
      exact ⟨⟨Nat.lt_trans helement hlt, by omega⟩,
        Nat.lt_succ_of_le (hw.ranks type element rank ⟨form, hform, hshape⟩)⟩
  · rw [code_leaf hinterned]
    simp only [codes, Finset.inl_mem_disjSum, Finset.mem_range]
    exact hw.lt_of_not_interned hlt hinterned

/-- Types are stored once, so their codes tell them apart. -/
theorem code_injOn (hs : s.Coherent) (hw : s.Within frame) {types : Set Handle} :
    Set.InjOn (s.code frame.arity) types := by
  intro type _ type' _ heq
  rcases code_cases hs hw.arity type with h | ⟨definition, args, hlength, hinst, h⟩ |
    ⟨element, rank, harray, h⟩ <;>
  rcases code_cases hs hw.arity type' with h' | ⟨definition', args', hlength', hinst', h'⟩ |
    ⟨element', rank', harray', h'⟩ <;>
  rw [h, h'] at heq
  -- Codes of different kinds differ.
  all_goals try (cases heq; done)
  · exact Sum.inl.inj heq
  · rw [Sum.inr.injEq, Sum.inl.injEq, Prod.mk.injEq] at heq
    obtain ⟨rfl, hargs⟩ := heq
    obtain rfl := eq_of_positions hlength hlength' hargs
    have hlookup := (hs.instances definition args type).mpr hinst
    exact Option.some.inj (hlookup.symm.trans ((hs.instances definition args type').mpr hinst'))
  · rw [Sum.inr.injEq, Sum.inr.injEq, Prod.mk.injEq] at heq
    obtain ⟨rfl, rfl⟩ := heq
    exact hs.isArray_unique harray harray'

theorem card_codes (frame : Frame) (handles : Finset Handle) :
    (codes frame handles).card ≤
      frame.types + frame.types * (handles.card + 1) ^ frame.arity +
        handles.card * (frame.rank + 1) := by
  rw [codes, Finset.card_disjSum, Finset.card_disjSum, Finset.card_product, Finset.card_product,
    Finset.card_range, Finset.card_range, Nat.add_assoc]
  have := Nat.mul_le_mul_left frame.types (card_argumentLists handles frame.arity)
  omega

theorem card_upTo_le (hs : s.Coherent) (hw : s.Within frame) (depth : Nat) :
    (s.upTo depth).card ≤ frame.capacity depth := by
  induction depth with
  | zero =>
      have hsub : s.upTo 0 ⊆ Finset.range frame.types := by
        intro type h
        obtain ⟨hlt, hnesting⟩ := mem_upTo.mp h
        refine Finset.mem_range.mpr (hw.lt_of_not_interned hlt ?_)
        rintro ⟨form, hform, ⟨definition, args, hshape⟩ | ⟨element, rank, hshape⟩⟩
        · rw [nestingAt_arguments hs hform hshape] at hnesting
          omega
        · rw [nestingAt_element hs hform hshape] at hnesting
          omega
      exact (Finset.card_le_card hsub).trans (Nat.le_of_eq (Finset.card_range _))
  | succ depth ih =>
      calc (s.upTo (depth + 1)).card
          ≤ (codes frame (s.upTo depth)).card :=
            Finset.card_le_card_of_injOn (s.code frame.arity)
              (fun _ h => code_mem_codes hs hw h) (code_injOn hs hw)
        _ ≤ frame.types + frame.types * ((s.upTo depth).card + 1) ^ frame.arity +
              (s.upTo depth).card * (frame.rank + 1) := card_codes frame _
        _ ≤ frame.capacity (depth + 1) := by
            have hpow := Nat.pow_le_pow_left (Nat.succ_le_succ ih) frame.arity
            exact Nat.add_le_add (Nat.add_le_add_left (Nat.mul_le_mul_left _ hpow) _)
              (Nat.mul_le_mul_right _ ih)

/-- The number of types that a store within the frame can hold. -/
def Frame.bound (frame : Frame) : Nat :=
  frame.capacity (max frame.nesting frame.expandedNesting)

theorem Within.size_le (hs : s.Coherent) (hw : s.Within frame) : s.size ≤ frame.bound := by
  have hall : Finset.range s.size ⊆ s.upTo (max frame.nesting frame.expandedNesting) := by
    intro type h
    have hlt := Finset.mem_range.mp h
    refine mem_upTo.mpr ⟨hlt, ?_⟩
    by_cases hold : type < frame.types
    · exact (hw.nesting type hold).trans (Nat.le_max_left _ _)
    · exact (hw.added type (Nat.le_of_not_lt hold) hlt).2.trans (Nat.le_max_right _ _)
  calc s.size = (Finset.range s.size).card := (Finset.card_range _).symm
    _ ≤ (s.upTo (max frame.nesting frame.expandedNesting)).card := Finset.card_le_card hall
    _ ≤ frame.bound := card_upTo_le hs hw _

end Codes

end Counting

section Expansion

variable {frame : Frame}

/-- The direct supertypes of generic definitions. -/
def declaredSupertypes (store : Store) : List Handle :=
  store.types.toList.flatMap fun entry =>
    match entry.shape with
    | .definition _ => entry.base.toList ++ entry.directInterfaces
    | _ => []

/-- The largest nesting of a base or interface declared on a generic definition. -/
def declaredNesting (store : Store) : Nat :=
  (store.declaredSupertypes.map store.nestingAt).foldl max 0

/-- The frame of the types that a store holds and declares. -/
def Frame.ofStore (store : Store) : Frame where
  types := store.size
  arity := (store.types.toList.map fun entry => entry.arguments.length).foldl max 0
  rank := (store.types.toList.map fun entry => (entry.array?.map (·.2)).getD 0).foldl max 0
  nesting := (store.types.toList.map (·.nesting)).foldl max 0
  declared := store.declaredNesting

theorem le_foldl_types {type : Handle} {entry : Entry} (h : s.types[type]? = some entry)
    (field : Entry → Nat) : field entry ≤ (s.types.toList.map field).foldl max 0 := by
  refine le_foldl_max (List.mem_map_of_mem ?_)
  exact List.mem_of_getElem? (by rwa [Array.getElem?_toList])

theorem within_ofStore (s : Store) : s.Within (Frame.ofStore s) := by
  refine ⟨fun type hle hlt => absurd hlt (Nat.not_lt.mpr hle), fun type hlt => ?_,
    fun type params hd => ?_, fun type element rank harray => ?_,
    fun type params base interfaces hd hlinks target htarget => ?_⟩
  · obtain ⟨entry, hentry⟩ := entry_of_lt hlt
    rw [nestingAt, hentry]
    exact le_foldl_types hentry (·.nesting)
  · obtain ⟨form, hform, hshape⟩ := hd
    obtain ⟨entry, hentry, rfl⟩ := form_eq_some.mp hform
    have hparams : entry.arguments = params := by
      rw [Entry.arguments, Entry.form_shape_eq_definition.mp hshape]
    exact hparams ▸ le_foldl_types hentry fun entry => entry.arguments.length
  · obtain ⟨form, hform, hshape⟩ := harray
    obtain ⟨entry, hentry, rfl⟩ := form_eq_some.mp hform
    have hrank : (entry.array?.map (·.2)).getD 0 = rank := by
      rw [Entry.array?, Entry.form_shape_eq_array.mp hshape]
      rfl
    exact hrank ▸ le_foldl_types hentry fun entry => (entry.array?.map (·.2)).getD 0
  · obtain ⟨form, hform, hshape⟩ := hd
    obtain ⟨entry, hentry, rfl⟩ := form_eq_some.mp hform
    rw [links, hentry, Option.map_some, Option.some.injEq, Prod.mk.injEq] at hlinks
    obtain ⟨rfl, rfl⟩ := hlinks
    refine le_foldl_max (List.mem_map_of_mem (List.mem_flatMap.mpr ⟨entry, ?_, ?_⟩))
    · exact List.mem_of_getElem? (by rwa [Array.getElem?_toList])
    · rw [Entry.form_shape_eq_definition.mp hshape]
      exact htarget

/-- Interning types of bounded nesting and rank keeps a store within the frame. -/
theorem Within.grown (hw : s.Within frame) (hs : s.WellFormed) (hsize : frame.types ≤ s.size)
    (hgrown : Grown s s') (hnew : NewNesting frame.expandedNesting s s')
    (hranks : s'.RanksWithin frame.rank) : s'.Within frame := by
  have hdefines : ∀ {type params}, s'.Defines type params → s.Defines type params := by
    rintro type params ⟨form, hform, hshape⟩
    obtain ⟨entry, hentry, rfl⟩ := form_eq_some.mp hform
    rcases hgrown.old_or_fresh hentry with hold | ⟨-, hfresh, -⟩
    · exact ⟨_, form_of_entry hold, hshape⟩
    · rw [Entry.form_shape_eq_definition] at hshape
      rcases hfresh.isInterned with ⟨_, _, h⟩ | ⟨_, _, h⟩ <;> simp [h] at hshape
  refine ⟨fun type hle hlt => ?_, fun type hlt => ?_, fun type params hd => ?_, hranks,
    fun type params base interfaces hd hlinks target htarget => ?_⟩
  · by_cases hold : type < s.size
    · obtain ⟨⟨form, hform, hshape⟩, hnesting⟩ := hw.added type hle hold
      exact ⟨⟨form, hgrown.extends.forms hform, hshape⟩,
        (hgrown.extends.nestingAt hold).symm ▸ hnesting⟩
    · refine ⟨?_, hnew type (Nat.le_of_not_lt hold) hlt⟩
      obtain ⟨entry, hentry⟩ := entry_of_lt hlt
      rcases hgrown.old_or_fresh hentry with h | ⟨-, hfresh, -⟩
      · exact absurd (lt_of_entry h) hold
      · refine ⟨entry.form, form_of_entry hentry, ?_⟩
        simpa using hfresh.isInterned
  · rw [hgrown.extends.nestingAt (Nat.lt_of_lt_of_le hlt hsize)]
    exact hw.nesting type hlt
  · exact hw.arity type params (hdefines hd)
  · have hd' := hdefines hd
    obtain ⟨form, hform, -⟩ := id hd'
    rw [hgrown.links (form_lt hform)] at hlinks
    have hlt : target < s.size := by
      obtain ⟨entry, hentry, heq⟩ := Option.map_eq_some_iff.mp hlinks
      obtain ⟨rfl, rfl⟩ := Prod.mk.inj heq
      have hrange := hs.inRange.links hentry
      rcases List.mem_append.mp htarget with h | h
      · exact hrange.base target (Option.mem_toList.mp h)
      · exact hrange.directInterfaces target h
    rw [hgrown.extends.nestingAt hlt]
    exact hw.declared type params base interfaces hd' hlinks target htarget

/-- New supertypes for a type that is no definition keep a store within the frame. -/
theorem Within.relink (hw : s.Within frame) {type : Handle}
    {change : Entry → Option Handle × List Handle} (htype : s.Interned type) :
    (s.relink type change).Within frame := by
  have hsame : SameForms s (s.relink type change) := sameForms_relink
  have hnesting : ∀ t, (s.relink type change).nestingAt t = s.nestingAt t := by
    intro t
    by_cases hlt : t < s.size
    · exact hsame.extends.nestingAt hlt
    · have hlt' : ¬ t < (s.relink type change).size := by rwa [size_relink]
      rw [nestingAt, nestingAt, Array.getElem?_eq_none (Nat.le_of_not_lt hlt),
        Array.getElem?_eq_none (Nat.le_of_not_lt hlt')]
  have hdefines : ∀ {t params}, (s.relink type change).Defines t params → s.Defines t params := by
    rintro t params ⟨form, hform, hshape⟩
    exact ⟨form, (hsame.forms t).symm.trans hform, hshape⟩
  refine ⟨fun t hle hlt => ?_, fun t hlt => hnesting t ▸ hw.nesting t hlt,
    fun t params hd => hw.arity t params (hdefines hd), ?_,
    fun t params base interfaces hd hlinks target htarget => ?_⟩
  · rw [size_relink] at hlt
    obtain ⟨⟨form, hform, hshape⟩, hle'⟩ := hw.added t hle hlt
    exact ⟨⟨form, (hsame.forms t).trans hform, hshape⟩, hnesting t ▸ hle'⟩
  · rintro t element rank ⟨form, hform, hshape⟩
    exact hw.ranks t element rank ⟨form, (hsame.forms t).symm.trans hform, hshape⟩
  · have hne : t ≠ type := by
      rintro rfl
      exact htype.not_defines (hdefines hd)
    rw [links_relink_ne hne] at hlinks
    rw [hnesting]
    exact hw.declared t params base interfaces (hdefines hd) hlinks target htarget

/-- What expanding a type does: nothing, or put the arguments of an instantiation into the supertypes
of its definition, or give an array its base. -/
theorem expand_cases {type : Handle} {u : Unit} (hrun : (expand type).run s = .ok (u, s')) :
    s' = s ∨
    (∃ entry declared definition args params base mid interfaces last,
      s.types[type]? = some entry ∧ entry.shape = .instantiation definition args ∧
      entry.nesting ≤ maxInstantiationDepth ∧ s.types[definition]? = some declared ∧
      declared.shape = .definition params ∧
      (declared.base.mapM (substitute params args)).run s = .ok (base, mid) ∧
      (declared.directInterfaces.mapM (substitute params args)).run mid = .ok (interfaces, last) ∧
      s' = last.relink type fun _ => (base, interfaces)) ∨
    ∃ entry element rank, s.types[type]? = some entry ∧ entry.shape = .array element rank ∧
      s' = s.relink type fun e => (some (s.arrayRoot.getD s.root), e.directInterfaces) := by
  unfold expand at hrun
  obtain ⟨_, _, hget, hrun⟩ := run_bind_eq_ok.mp hrun
  cases hget
  obtain ⟨entry, _, hread, hrun⟩ := run_bind_eq_ok.mp hrun
  obtain ⟨hentry, rfl⟩ := run_lift_eq_ok.mp hread
  rw [entry_eq_ok] at hentry
  split at hrun
  · next definition args hshape =>
      split at hrun
      · exact Or.inl (run_pure_eq_ok.mp hrun).2.symm
      · next hnesting =>
          obtain ⟨declared, _, hread, hrun⟩ := run_bind_eq_ok.mp hrun
          obtain ⟨hdeclared, rfl⟩ := run_lift_eq_ok.mp hread
          split at hrun
          · next params hparams =>
              obtain ⟨base, mid, hbase, hrun⟩ := run_bind_eq_ok.mp hrun
              obtain ⟨interfaces, last, hinterfaces, hrun⟩ := run_bind_eq_ok.mp hrun
              obtain ⟨-, rfl⟩ := modifyEntry_run hrun
              exact Or.inr (Or.inl ⟨entry, declared, definition, args, params, base, mid,
                interfaces, last, hentry, hshape, Nat.le_of_not_lt hnesting,
                entry_eq_ok.mp hdeclared, hparams, hbase, hinterfaces, rfl⟩)
          · exact Or.inl (run_pure_eq_ok.mp hrun).2.symm
  · next element rank hshape =>
      obtain ⟨-, rfl⟩ := modifyEntry_run hrun
      exact Or.inr (Or.inr ⟨entry, element, rank, hentry, hshape, rfl⟩)
  · exact Or.inl (run_pure_eq_ok.mp hrun).2.symm

theorem substitute_option_interns {params args : List Handle} {declared result : Option Handle}
    {added rank bound : Nat} (hs : Substitutable args added rank s)
    (hdeclared : ∀ t ∈ declared.toList, t < s.size ∧ s.nestingAt t + added ≤ bound)
    (hrun : (declared.mapM (substitute params args)).run s = .ok (result, s')) :
    Interns args added rank bound s s' := by
  cases declared with
  | none =>
      obtain ⟨rfl, rfl⟩ := run_pure_eq_ok.mp hrun
      exact ⟨hs, Grown.refl s, NewNesting.refl bound s⟩
  | some type =>
      rw [Option.mapM_some, map_eq_pure_bind] at hrun
      obtain ⟨replaced, t, hsubstitute, hrun⟩ := run_bind_eq_ok.mp hrun
      obtain ⟨-, rfl⟩ := run_pure_eq_ok.mp hrun
      obtain ⟨hlt, hnesting⟩ := hdeclared type (by simp)
      exact substituteWithin_interns hs hlt hnesting hsubstitute

/-- Expanding a type keeps a store within the frame. -/
theorem Within.expand (hw : s.Within frame) (hs : s.WellFormed) (hsize : frame.types ≤ s.size)
    {type : Handle} {u : Unit} (hrun : (Store.expand type).run s = .ok (u, s')) :
    s'.Within frame := by
  rcases expand_cases hrun with rfl | ⟨entry, declared, definition, args, params, base, mid,
    interfaces, last, hentry, hshape, hnesting, hdeclared, hparams, hbase, hinterfaces, rfl⟩ |
    ⟨entry, element, rank, hentry, hshape, rfl⟩
  · exact hw
  · have hform : s.form type = some entry.form := form_of_entry hentry
    have hshape' := Entry.form_shape_eq_instantiation.mpr hshape
    obtain ⟨-, -, parts, hparts, -⟩ := hs.coherent.instantiation hform hshape'
    have hdepth := nestingAt_arguments hs.coherent hform hshape'
    rw [nestingAt_of_form hform, Entry.form_nesting] at hdepth
    -- The arguments are nested less deep than the instantiation.
    have hready : Substitutable args (maxInstantiationDepth - 1) frame.rank s := by
      refine ⟨hs.coherent, fun a ha => ?_, fun a ha => ?_, hw.ranks⟩
      · obtain ⟨_, -, hlt, -⟩ := mem_of_forall₂ hparts ha
        exact Nat.lt_trans hlt (form_lt hform)
      · have hle : s.nestingAt a ≤ (args.map s.nestingAt).foldl max 0 :=
          le_foldl_max (List.mem_map_of_mem ha)
        omega
    have hdefines : s.Defines definition params :=
      (defines_of_entry (entry_eq_ok.mpr hdeclared)).mpr hparams
    have hrange := hs.inRange.links hdeclared
    have htargets : ∀ t ∈ declared.base.toList ++ declared.directInterfaces, t < s.size ∧
        s.nestingAt t + (maxInstantiationDepth - 1) ≤ frame.expandedNesting := by
      intro t ht
      have hle := hw.declared definition params _ _ hdefines (by rw [links, hdeclared]; rfl) t ht
      refine ⟨?_, by unfold Frame.expandedNesting; omega⟩
      rcases List.mem_append.mp ht with h | h
      · exact hrange.base t (Option.mem_toList.mp h)
      · exact hrange.directInterfaces t h
    have hfirst := substitute_option_interns hready
      (fun t ht => htargets t (List.mem_append_left _ ht)) hbase
    have hsecond := mapM_interns (fun _ _ _ _ => substituteWithin_interns) hfirst.1
      (fun t ht => by
        obtain ⟨hlt, hle⟩ := htargets t (List.mem_append_right _ ht)
        exact ⟨hfirst.2.1.lt hlt, (hfirst.2.1.extends.nestingAt hlt).symm ▸ hle⟩) hinterfaces
    obtain ⟨hlast, hgrown, hnew⟩ := hfirst.trans hsecond
    exact (hw.grown hs hsize hgrown hnew hlast.ranks).relink
      ⟨_, hgrown.extends.forms hform, Or.inl ⟨definition, args, hshape'⟩⟩
  · exact hw.relink ⟨_, form_of_entry hentry,
      Or.inr ⟨element, rank, Entry.form_shape_eq_array.mpr hshape⟩⟩

/-- Expanding a type queues exactly the types that it adds. -/
theorem expand_pending {type : Handle} {u : Unit} (hs : s.WellFormed)
    (hrun : (Store.expand type).run s = .ok (u, s')) :
    s.size ≤ s'.size ∧ s'.pending.length + s.size = s.pending.length + s'.size ∧
      ∀ t, t ∈ s'.pending ↔ t ∈ s.pending ∨ s.size ≤ t ∧ t < s'.size := by
  rcases expand_run hs hrun with ⟨rfl, -⟩ | ⟨mid, change, -, hgrown, -, rfl, -⟩
  · refine ⟨Nat.le_refl _, rfl, fun t => ?_⟩
    have hnone : ¬ (s'.size ≤ t ∧ t < s'.size) := fun h => absurd h.2 (Nat.not_lt.mpr h.1)
    simp [hnone]
  · obtain ⟨new, htypes, -, hpending⟩ := hgrown.types
    have hsize : mid.size = s.size + new.size := by simp [size, htypes]
    have hlength : mid.pending.length = new.size + s.pending.length := by simp [hpending]
    have hsame : (mid.relink type change).pending = mid.pending := rfl
    rw [size_relink, hsize, hsame]
    refine ⟨Nat.le_add_right _ _, by omega, fun t => ?_⟩
    rw [hpending, List.mem_append, List.mem_reverse, List.mem_range'_1, or_comm]

/-- Draining the store expands `types` in this order and ends in `s'`. Whatever the fuel, it ends so
if the fuel covers one step for each type, and otherwise only runs out of fuel. -/
structure Drains (s : Store) (types : List Handle) (s' : Store) : Prop where
  run : ∀ fuel, (drain fuel).run s =
    if types.length ≤ fuel then .ok (types, s') else .error .outOfFuel
  pending : s'.pending = []

theorem drains_nil (h : s.pending = []) : Drains s [] s := by
  refine ⟨fun fuel => ?_, h⟩
  have hget : (get : StoreM Store).run s = .ok (s, s) := rfl
  cases fuel with
  | zero =>
      rw [drain, StateT.run_bind, hget, Query.ok_bind, h]
      rfl
  | succ fuel =>
      rw [drain, StateT.run_bind, hget, Query.ok_bind, h]
      rfl

theorem drains_cons {type : Handle} {rest types : List Handle} {mid : Store}
    (hpending : s.pending = type :: rest)
    (hexpand : (Store.expand type).run { s with pending := rest } = .ok ((), mid))
    (hrest : Drains mid types s') : Drains s (type :: types) s' := by
  refine ⟨fun fuel => ?_, hrest.pending⟩
  have hget : (get : StoreM Store).run s = .ok (s, s) := rfl
  have hmodify : (modify fun store => { store with pending := rest } : StoreM PUnit).run s =
      .ok ((), { s with pending := rest }) := rfl
  cases fuel with
  | zero =>
      rw [drain, StateT.run_bind, hget, Query.ok_bind, hpending]
      rfl
  | succ fuel =>
      rw [drain, StateT.run_bind, hget, Query.ok_bind, hpending]
      simp only [StateT.run_bind, hmodify, Query.ok_bind, hexpand, hrest.run fuel, List.length_cons,
        Nat.succ_le_succ_iff]
      split
      · rfl
      · rfl

/-- The worklist of a store within a frame empties. It takes a step for each type pending at the
start and for each type added. -/
theorem Draining.drains (hs : s.Draining) (hw : s.Within frame) (hsize : frame.types ≤ s.size) :
    ∃ types s', Drains s types s' ∧ s'.Draining ∧ s'.Within frame ∧ s.size ≤ s'.size ∧
      types.length + s.size = s.pending.length + s'.size ∧
      ∀ t, t ∈ types ↔ t ∈ s.pending ∨ s.size ≤ t ∧ t < s'.size := by
  -- The types that can still be added, and those that wait, are one less after each step.
  obtain ⟨n, hn⟩ : ∃ n, frame.bound - s.size + s.pending.length = n := ⟨_, rfl⟩
  have hdone : ∀ {s : Store}, s.pending = [] → ∀ t, t ∈ s.pending ∨ s.size ≤ t ∧ t < s.size →
      t ∈ ([] : List Handle) := by
    rintro s hempty t (h | ⟨hle, hlt⟩)
    · rwa [hempty] at h
    · exact absurd hlt (Nat.not_lt.mpr hle)
  induction n generalizing s with
  | zero =>
      have hempty : s.pending = [] := List.length_eq_zero_iff.mp (by omega)
      exact ⟨[], s, drains_nil hempty, hs, hw, Nat.le_refl _, by simp [hempty],
        fun t => ⟨by simp, hdone hempty t⟩⟩
  | succ n ih =>
      cases hpending : s.pending with
      | nil =>
          exact ⟨[], s, drains_nil hpending, hs, hw, Nat.le_refl _, by simp,
            fun t => ⟨by simp, hpending ▸ hdone hpending t⟩⟩
      | cons type rest =>
          have hrest : ∀ t ∈ type :: rest, t < s.size :=
            fun t ht => hs.wellFormed.inRange.pending t (hpending ▸ ht)
          obtain ⟨hwf, -⟩ := unqueue hs.wellFormed fun t ht => hrest t (List.mem_cons_of_mem type ht)
          obtain ⟨_, mid, hexpand, -⟩ := expand_returns hwf (hrest type List.mem_cons_self)
          obtain ⟨hmid, -⟩ := hs.step hpending hexpand
          obtain ⟨hle, hcount, hqueued⟩ := expand_pending hwf hexpand
          have hunqueued : ({ s with pending := rest } : Store).Within frame :=
            ⟨hw.added, hw.nesting, hw.arity, hw.ranks, hw.declared⟩
          have hwithin : mid.Within frame := hunqueued.expand hwf hsize hexpand
          have hbound := hwithin.size_le hmid.wellFormed.coherent
          have hsame : ({ s with pending := rest } : Store).size = s.size := rfl
          simp only [hsame] at hle hcount hqueued
          rw [hpending, List.length_cons] at hn
          obtain ⟨types, s', hdrains, hs', hw', hle', hlength, hmem⟩ := ih hmid hwithin
            (Nat.le_trans hsize hle) (by omega)
          refine ⟨type :: types, s', drains_cons hpending hexpand hdrains, hs', hw',
            Nat.le_trans hle hle', ?_, fun t => ?_⟩
          · rw [List.length_cons, List.length_cons]
            omega
          · have hsplit : (s.size ≤ t ∧ t < mid.size) ∨ (mid.size ≤ t ∧ t < s'.size) ↔
                s.size ≤ t ∧ t < s'.size := by
              constructor
              · rintro (⟨h, h'⟩ | ⟨h, h'⟩)
                · exact ⟨h, Nat.lt_of_lt_of_le h' hle'⟩
                · exact ⟨Nat.le_trans hle h, h'⟩
              · rintro ⟨h, h'⟩
                exact (Nat.lt_or_ge t mid.size).imp (⟨h, ·⟩) (⟨·, h'⟩)
            rw [List.mem_cons, List.mem_cons, hmem, hqueued, or_assoc, or_assoc, hsplit]

end Expansion

section Operations

/-- Closing the pending types ends if the worklist fits the handle space. -/
theorem close_returns {types : List Handle} {last : Store} (hdrains : Drains s types last)
    (hlast : last.WellFormed) (htypes : ∀ t ∈ types, t < last.size)
    (hfits : types.length ≤ handleSpace) :
    Returns close s fun _ s' => s'.WellFormed ∧ Closing [] last s' ∧
      (last.closingAttempts types ≤ Limits.supertypeClosure.maxIterations →
        ∀ t ∈ types, s'.ClosedAt t) := by
  have hrun : (drain handleSpace).run s = .ok (types, last) := by
    rw [hdrains.run, if_pos hfits]
  exact .run_bind hrun (closeAll_returns hlast htypes)

/-- Completing the declarations ends if the worklist fits the handle space. -/
theorem finish_returns {types : List Handle} {last : Store}
    (hdrains : Drains s.withDefaultBases types last) (hlast : last.WellFormed)
    (htypes : ∀ t ∈ types, t < last.size) (hfits : types.length ≤ handleSpace) :
    Returns finish s fun _ s' => s'.pending = [] ∧ s'.size = last.size := by
  obtain ⟨_, mid, hclose, hmid, hclosing, -⟩ := close_returns hdrains hlast htypes hfits
  obtain ⟨_, last', hall, -, hclosing', -⟩ :=
    closeAll_returns hmid fun t ht => List.mem_range.mp ht
  refine .run_bind rfl (.run_bind hclose (.get_bind (.run_bind hall ⟨(), _, rfl, ?_, ?_⟩)))
  · exact hclosing'.pending.trans (hclosing.pending.trans hdrains.pending)
  · exact hclosing'.size.trans hclosing.size

/-- Closing after interning ends if the worklist fits the handle space. -/
theorem closeIfFinished_returns {types : List Handle} {last : Store}
    (hfinished : s.finished = true) (hdrains : Drains s types last) (hlast : last.WellFormed)
    (htypes : ∀ t ∈ types, t < last.size) (hfits : types.length ≤ handleSpace) :
    Returns closeIfFinished s fun _ s' => s'.pending = [] ∧ s'.size = last.size := by
  refine .get_bind ?_
  rw [if_pos hfinished]
  refine (close_returns hdrains hlast htypes hfits).of_run ?_
  rintro _ s' - ⟨-, hclosing, -⟩
  exact ⟨hclosing.pending.trans hdrains.pending, hclosing.size⟩

theorem returns_discard {α : Type} {x : StoreM α} {post : α → Store → Prop} {post' : Store → Prop}
    (hx : Returns x s post) (h : ∀ a s', post a s' → post' s') :
    Returns (discard x) s fun _ s' => post' s' := by
  have hbind : (discard x : StoreM PUnit) = x >>= fun _ => pure PUnit.unit := rfl
  rw [hbind]
  exact hx.bind fun a s' hpost => .pure (h a s' hpost)

end Operations

end NominalGenerics.Store

namespace NominalGenerics

/-- What an operation does before it expands pending types: completing the declarations gives
default bases, and interning adds the type asked for. -/
def Operation.prepare : Operation → StoreM Unit
  | .finish => modify Store.withDefaultBases
  | .instantiate definition args => discard <| Store.internInstance definition args
  | .arrayOf element rank => discard <| Store.internArray element (max rank 1)
  | _ => pure ()

/-- Whether the operation expands the pending types of the store. -/
def Operation.expands (store : Store) : Operation → Bool
  | .finish => true
  | .instantiate .. | .arrayOf .. => store.finished
  | _ => false

namespace Store

variable {s : Store}

/-- Interning a type and closing it ends if the worklist fits the handle space. -/
theorem interning_returns {x : StoreM Handle} {type : Handle} {start last : Store}
    {types : List Handle} (hrun : x.run s = .ok (type, start)) (hfinished : start.finished = true)
    (hdrains : Drains start types last) (hlast : last.WellFormed)
    (htypes : ∀ t ∈ types, t < last.size) (hfits : types.length ≤ handleSpace) :
    Returns (discard (do
      let type ← x
      closeIfFinished
      return type : StoreM Handle)) s fun _ s' => s'.pending = [] ∧ s'.size = last.size := by
  have hclose := closeIfFinished_returns hfinished hdrains hlast htypes hfits
  have hreturns : Returns (do
      let type ← x
      closeIfFinished
      return type : StoreM Handle) s fun _ s' => s'.pending = [] ∧ s'.size = last.size :=
    .run_bind hrun (hclose.bind fun _ _ h => .pure h)
  exact returns_discard hreturns fun _ _ h => h

/-- An operation prepares a store whose worklist is drained next, and ends once the worklist fits
the handle space. -/
theorem Lawful.prepare (hs : s.Lawful) {op : Operation} (hallowed : op.Allowed s)
    (hexpands : op.expands s = true) :
    ∃ start, op.prepare.run s = .ok ((), start) ∧ start.Draining ∧
      ∀ types last, Drains start types last → last.WellFormed → (∀ t ∈ types, t < last.size) →
        types.length ≤ handleSpace →
        Returns op.run s fun _ s' => s'.pending = [] ∧ s'.size = last.size := by
  obtain ⟨hhandles, htime⟩ := hallowed
  cases op with
  | finish =>
      refine ⟨s.withDefaultBases, rfl, (hs.withDefaultBases (htime rfl)).draining, ?_⟩
      intro types last hdrains hlast htypes hfits
      exact finish_returns hdrains hlast htypes hfits
  | instantiate definition args =>
      obtain ⟨type, start, hrun, hcoherent, hgrown, -⟩ := internInstance_returns
        hs.wellFormed.coherent (hhandles definition List.mem_cons_self)
        fun a ha => hhandles a (List.mem_cons_of_mem definition ha)
      refine ⟨start, discard_run hrun, hs.grown_draining hgrown hcoherent, ?_⟩
      intro types last
      exact interning_returns hrun (hgrown.finished.trans hexpands)
  | arrayOf element rank =>
      obtain ⟨type, start, hrun, hcoherent, hgrown, -⟩ := internArray_returns
        hs.wellFormed.coherent (hhandles element List.mem_cons_self) (Nat.le_max_right rank 1)
      refine ⟨start, discard_run hrun, hs.grown_draining hgrown hcoherent, ?_⟩
      intro types last
      exact interning_returns hrun (hgrown.finished.trans hexpands)
  | _ => cases hexpands

/-- Supertype closure terminates. On every store that operations build, completing the declarations,
and interning a type after that, empties the worklist after finitely many steps: one for each type
pending at the start or added on the way. There is a bound on the types that the store can come to
hold, and those added by the worklist are nested at most `maxInstantiationDepth - 1` deeper than the
supertypes declared on generic definitions. If the types fit the handle space, the operation itself
ends, with nothing pending. -/
theorem Reachable.worklist_empties (hs : s.Reachable) {op : Operation} (hallowed : op.Allowed s)
    (hexpands : op.expands s = true) :
    ∃ start types last, op.prepare.run s = .ok ((), start) ∧ Drains start types last ∧
      types.length + start.size = start.pending.length + last.size ∧
      last.size ≤ (Frame.ofStore start).bound ∧
      (∀ (type : Handle) entry, start.size ≤ type → last.types[type]? = some entry →
        entry.nesting ≤ (maxInstantiationDepth - 1) + start.declaredNesting) ∧
      (types.length ≤ handleSpace →
        Returns op.run s fun _ s' => s'.pending = [] ∧ s'.size = last.size) := by
  obtain ⟨start, hprepare, hstart, hends⟩ := hs.lawful.prepare hallowed hexpands
  obtain ⟨types, last, hdrains, hlast, hwithin, hle, hlength, hmem⟩ :=
    hstart.drains (within_ofStore start) (Nat.le_refl _)
  refine ⟨start, types, last, hprepare, hdrains, hlength,
    hwithin.size_le hlast.wellFormed.coherent, fun type entry hnew hentry => ?_, fun hfits => ?_⟩
  · have hform : last.form type = some entry.form := form_eq_some.mpr ⟨entry, hentry, rfl⟩
    have hnesting := (hwithin.added type hnew (form_lt hform)).2
    rwa [nestingAt_of_form hform, Entry.form_nesting] at hnesting
  · refine hends types last hdrains hlast.wellFormed (fun t ht => ?_) hfits
    rcases (hmem t).mp ht with h | ⟨-, hlt⟩
    · exact Nat.lt_of_lt_of_le (hstart.wellFormed.inRange.pending t h) hle
    · exact hlt

/-- A class whose interface mentions the class at a larger argument: `G<T> : I<G<List<T>>>`, and two
interfaces that extend each other. -/
def expansiveOperations : List Operation :=
  [.declareGeneric .interfaceType "I" [("T", .invariant)],
    .declareGeneric .classType "List" [("T", .invariant)],
    .declareGeneric .classType "G" [("T", .invariant)],
    .instantiate 3 [6],
    .instantiate 5 [7],
    .instantiate 1 [8],
    .addInterface 5 9,
    .declareGeneric .interfaceType "P" [("T", .invariant)],
    .declareGeneric .interfaceType "Q" [("T", .invariant)],
    .instantiate 12 [11],
    .addInterface 10 14,
    .instantiate 10 [13],
    .addInterface 12 15]

/-- The store that `expansiveOperations` build. -/
def expansiveStore : Store := (Operation.runAll expansiveOperations (ofRoot "object")).getD {}

/-- Expansive and cyclic declarations can be completed: the largest nesting of a declared supertype
is three, so every type that the worklist adds is nested at most 52 deep. -/
theorem worklist_empties_expansive :
    ∃ start types last, Operation.finish.prepare.run expansiveStore = .ok ((), start) ∧
      Drains start types last ∧
      ∀ (type : Handle) entry, start.size ≤ type → last.types[type]? = some entry →
        entry.nesting ≤ 52 := by
  have hreachable : expansiveStore.Reachable := (Reachable.ofRoot "object").runAll
    (by decide +kernel : Operation.runAll expansiveOperations (ofRoot "object") =
      some expansiveStore)
  have hallowed : Operation.finish.Allowed expansiveStore := by decide +kernel
  obtain ⟨start, types, last, hprepare, hdrains, -, -, hnesting, -⟩ :=
    hreachable.worklist_empties hallowed rfl
  refine ⟨start, types, last, hprepare, hdrains, fun type entry hle hentry => ?_⟩
  have hrun : Operation.finish.prepare.run expansiveStore =
      .ok ((), expansiveStore.withDefaultBases) := rfl
  obtain rfl : start = expansiveStore.withDefaultBases :=
    congrArg Prod.snd (Except.ok.inj (hprepare.symm.trans hrun))
  have hdeclared : expansiveStore.withDefaultBases.declaredNesting = 3 := by decide +kernel
  have hbound := hnesting type entry hle hentry
  rwa [hdeclared] at hbound

end Store

end NominalGenerics
