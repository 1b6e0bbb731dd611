import NominalGenerics.Proofs.Store.Derivation
import NominalGenerics.Proofs.Store.Worklist
import NominalGenerics.Proofs.TypeExpr.Reading

/-!
# Written names of types

The name of an instantiation or an array is composed of the names of its parts when it is interned,
and no operation changes a name. So the name of a type is the written form of an expression, and
interning that expression leads back to the type: declared types are found by their names, type
parameters in the scope, and interned types where they are. Nothing is added on the way.
-/

namespace NominalGenerics

/-- Whether the type is not composed of others: a declared type or a type parameter. -/
def Entry.isAtomic (entry : Entry) : Bool :=
  match entry.shape with
  | .instantiation _ _ | .array _ _ => false
  | _ => true

/-- Whether the type is a declared one, plain or generic. -/
def Entry.isDeclared (entry : Entry) : Bool :=
  match entry.shape with
  | .named | .definition _ => true
  | _ => false

namespace Store

variable {s s' : Store}

/-- The name of a type; handles that denote none have the empty name. -/
def nameAt (store : Store) (type : Handle) : String :=
  ((store.types[type]?).map (·.name)).getD ""

theorem nameAt_of_entry {type : Handle} {entry : Entry} (h : s.types[type]? = some entry) :
    s.nameAt type = entry.name := by
  rw [nameAt, h]
  rfl

theorem map_nameAt {types : List Handle} {entries : List Entry}
    (h : List.Forall₂ (fun type entry => s.types[type]? = some entry) types entries) :
    types.map s.nameAt = entries.map (·.name) := by
  induction h with
  | nil => rfl
  | cons hentry _ ih => rw [List.map_cons, List.map_cons, nameAt_of_entry hentry, ih]

theorem Names.nameAt (h : Names s s') {type : Handle} (hlt : type < s.size) :
    s'.nameAt type = s.nameAt type := by
  obtain ⟨entry, hentry⟩ := entry_of_lt hlt
  obtain ⟨entry', hentry', hname, -⟩ := h type entry hentry
  rw [nameAt_of_entry hentry, nameAt_of_entry hentry', hname]

/-- The name of an interned type is composed of the names of its parts. -/
structure Composed (store : Store) (entry : Entry) : Prop where
  instantiation : ∀ definition args, entry.shape = .instantiation definition args →
    entry.name = instantiationName (store.nameAt definition) (args.map store.nameAt)
  array : ∀ element rank, entry.shape = .array element rank →
    entry.name = arrayName (store.nameAt element) rank

/-- The names of all interned types are. -/
def NamesComposed (store : Store) : Prop :=
  ∀ (type : Handle) entry, store.types[type]? = some entry → store.Composed entry

theorem Derived.composed {entry : Entry} (h : s.Derived entry) : s.Composed entry := by
  cases h with
  | @instantiation definition declared args parts hdeclared hparts hcore _ =>
      refine ⟨fun other args' hshape => ?_, fun element rank hshape => ?_⟩
      · rw [shape_of_core_instantiation hcore, Shape.instantiation.injEq] at hshape
        obtain ⟨rfl, rfl⟩ := hshape
        rw [nameAt_of_entry hdeclared, map_nameAt hparts]
        exact (congrArg Entry.name hcore : entry.core.name = _)
      · rw [shape_of_core_instantiation hcore] at hshape
        cases hshape
  | @array element part rank hpart hcore _ =>
      refine ⟨fun other args' hshape => ?_, fun element' rank' hshape => ?_⟩
      · rw [shape_of_core_array hcore] at hshape
        cases hshape
      · rw [shape_of_core_array hcore, Shape.array.injEq] at hshape
        obtain ⟨rfl, rfl⟩ := hshape
        rw [nameAt_of_entry hpart]
        exact (congrArg Entry.name hcore : entry.core.name = _)

/-- A declared type or a type parameter is not composed. -/
theorem composed_of_atomic {entry : Entry} (hatomic : entry.isAtomic = true) :
    s.Composed entry := by
  constructor
  · intro definition args hshape
    rw [Entry.isAtomic, hshape] at hatomic
    cases hatomic
  · intro element rank hshape
    rw [Entry.isAtomic, hshape] at hatomic
    cases hatomic

/-- The types that an operation adds are derived from others or not composed. -/
theorem Lawful.added_composed (hs : s.Lawful) {op : Operation} (hallowed : op.Allowed s)
    (hrun : op.run.run s = .ok ((), s')) {type : Handle} {entry : Entry} (hnew : s.size ≤ type)
    (hentry : s'.types[type]? = some entry) : s'.Composed entry := by
  have hkept : s'.size = s.size → s'.Composed entry := fun hsize =>
    absurd (lt_of_entry hentry) (Nat.not_lt.mpr (hsize ▸ hnew))
  have hmodify : ∀ {changed change}, (Store.modifyEntry changed change).run s = .ok ((), s') →
      s'.Composed entry := by
    intro changed change hrun
    obtain ⟨-, rfl⟩ := modifyEntry_run hrun
    exact hkept (by simp [size])
  have happended : ∀ {new callables}, s' = s.appended new callables →
      (∀ entry ∈ new, entry.isAtomic = true) → s'.Composed entry := by
    rintro new callables rfl hatomic
    rw [appended_getElem?, if_neg (Nat.not_lt.mpr hnew)] at hentry
    exact composed_of_atomic (hatomic entry (List.mem_of_getElem? hentry))
  have hnone : s.DerivedFrom s.size := derivedFrom_size s
  have hderived : Robust (DerivedFrom s.size) := robust_derivedFrom s.size
  have hpushed : ∀ {new}, s' = s.appended [new] s.callables → new.isAtomic = true →
      s'.Composed entry := fun h hatomic => happended h (by simpa using hatomic)
  cases op with
  | declare kind name =>
      obtain ⟨_, hrun⟩ := run_discard_eq_ok hrun
      cases (push_run _).symm.trans hrun
      exact hpushed rfl rfl
  | declareGeneric kind name params =>
      obtain ⟨_, hrun⟩ := run_discard_eq_ok hrun
      refine happended (declareGeneric_run hrun) fun new hmem => ?_
      rcases List.mem_cons.mp hmem with rfl | hmem
      · rfl
      · obtain ⟨_, -, rfl⟩ := List.mem_map.mp hmem
        rfl
  | declarePrimitive name kind =>
      obtain ⟨_, hrun⟩ := run_discard_eq_ok hrun
      cases (push_run _).symm.trans hrun
      exact hpushed rfl rfl
  | declareEnum name underlying =>
      obtain ⟨_, hrun⟩ := run_discard_eq_ok hrun
      cases (push_run _).symm.trans hrun
      exact hpushed rfl rfl
  | declarePointer name =>
      obtain ⟨_, hrun⟩ := run_discard_eq_ok hrun
      cases (push_run _).symm.trans hrun
      exact hpushed rfl rfl
  | setBase type base => exact hmodify hrun
  | addInterface type interface => exact hmodify hrun
  | addFlags type flags => exact hmodify hrun
  | removeFlags type flags => exact hmodify hrun
  | setValueTypeRoot type => cases hrun; exact hkept rfl
  | setArrayRoot type => cases hrun; exact hkept rfl
  | setOptionalWrapper definition => cases hrun; exact hkept rfl
  | addSequenceInterface definition => cases hrun; exact hkept rfl
  | finish =>
      exact (hderived.finish hnone hs (hallowed.2 rfl) _ _ hrun type entry hnew hentry).composed
  | instantiate definition args =>
      obtain ⟨_, hrun⟩ := run_discard_eq_ok hrun
      exact (hderived.instantiate hnone hs definition args _ _ hrun type entry hnew hentry).composed
  | arrayOf element rank =>
      obtain ⟨_, hrun⟩ := run_discard_eq_ok hrun
      exact (hderived.arrayOf hnone hs element rank _ _ hrun type entry hnew hentry).composed
  | declareCallable name typeParams =>
      obtain ⟨_, hrun⟩ := run_discard_eq_ok hrun
      refine happended (declareCallable_run hrun) fun new hmem => ?_
      obtain ⟨_, -, rfl⟩ := List.mem_map.mp hmem
      rfl
  | addParameter id type mode => cases hrun; exact hkept rfl
  | setReturnType id type => cases hrun; exact hkept rfl
  | setDeclaringType id type => cases hrun; exact hkept rfl
  | addConstraint param constraint => exact hmodify hrun

/-- Names stay composed, since no operation changes the name of a part. -/
theorem Composed.later (hs : s.Coherent) (hnames : Names s s') {type : Handle}
    {entry entry' : Entry} (hentry : s.types[type]? = some entry)
    (hentry' : s'.types[type]? = some entry')
    (h : s.Composed entry) : s'.Composed entry' := by
  obtain ⟨found, hfound, hname, hform⟩ := hnames type entry hentry
  obtain rfl := Option.some.inj (hfound.symm.trans hentry')
  have hself : s.form type = some entry.form := form_of_entry hentry
  refine ⟨fun definition args hshape => ?_, fun element rank hshape => ?_⟩
  · have hbefore : entry.form.shape = .instantiation definition args :=
      hform ▸ Entry.form_shape_eq_instantiation.mpr hshape
    obtain ⟨-, hlt, -⟩ := hs.instantiation hself hbefore
    rw [hname, h.instantiation definition args (Entry.form_shape_eq_instantiation.mp hbefore),
      hnames.nameAt (Nat.lt_trans hlt (form_lt hself))]
    congr 1
    refine List.map_congr_left fun arg harg => (hnames.nameAt ?_).symm
    obtain ⟨part, hpart, -⟩ := hs.argument hself
      (show arg ∈ entry.form.arguments by simpa [Entry.arguments, hbefore] using harg)
    exact form_lt hpart
  · have hbefore : entry.form.shape = .array element rank :=
      hform ▸ Entry.form_shape_eq_array.mpr hshape
    obtain ⟨-, hlt, -⟩ := hs.array hself hbefore
    rw [hname, h.array element rank (Entry.form_shape_eq_array.mp hbefore),
      hnames.nameAt (Nat.lt_trans hlt (form_lt hself))]

/-- In a reachable store the names of interned types are composed of the names of their parts. -/
theorem Reachable.namesComposed (hs : s.Reachable) : s.NamesComposed := by
  induction hs with
  | ofRoot name =>
      intro type entry hentry
      refine composed_of_atomic ?_
      obtain ⟨rfl, rfl⟩ := entry_ofRoot hentry
      rfl
  | @step s s' op hs hallowed hrun ih =>
      intro type entry' hentry'
      rcases Nat.lt_or_ge type s.size with hlt | hge
      · obtain ⟨entry, hentry⟩ := entry_of_lt hlt
        exact (ih type entry hentry).later hs.lawful.wellFormed.coherent
          (hs.lawful.names hallowed hrun) hentry hentry'
      · exact hs.lawful.added_composed hallowed hrun hge hentry'

theorem isParameter_of_isDeclared {entry : Entry} (h : entry.isDeclared = true) :
    entry.isParameter = false := by
  cases hshape : entry.shape <;> simp [Entry.isDeclared, Entry.isParameter, hshape] at h ⊢

/-- `part` occurs in the written name of a type. The own type parameters of a definition do not. -/
inductive WrittenIn (store : Store) (part : Handle) : Handle → Prop
  | self : WrittenIn store part part
  | definition {type : Handle} {entry : Entry} {args : List Handle}
      (hentry : store.types[type]? = some entry) (hshape : entry.shape = .instantiation part args) :
      WrittenIn store part type
  | argument {type arg definition : Handle} {entry : Entry} {args : List Handle}
      (hentry : store.types[type]? = some entry)
      (hshape : entry.shape = .instantiation definition args) (harg : arg ∈ args)
      (h : WrittenIn store part arg) : WrittenIn store part type
  | element {type element : Handle} {entry : Entry} {rank : Nat}
      (hentry : store.types[type]? = some entry) (hshape : entry.shape = .array element rank)
      (h : WrittenIn store part element) : WrittenIn store part type

/-- Declared types, plain and generic, have names of name characters, no two the same. -/
structure DistinctNames (store : Store) : Prop where
  isName : ∀ (type : Handle) entry, store.types[type]? = some entry → entry.isDeclared = true →
    TypeExpr.IsName entry.name
  distinct : ∀ (type other : Handle) entry entry', store.types[type]? = some entry →
    store.types[other]? = some entry' → entry.isDeclared = true → entry'.isDeclared = true →
      entry.name = entry'.name → type = other

/-- The scope does not hide the declared types in the name of a type, and finds the type parameters
in it. -/
structure Legible (store : Store) (scope : Scope) (type : Handle) : Prop where
  declared : ∀ (part : Handle) entry, store.WrittenIn part type → store.types[part]? = some entry →
    entry.isDeclared = true → scope.lookup entry.name = none
  params : ∀ (part : Handle) entry, store.WrittenIn part type → store.types[part]? = some entry →
    entry.isParameter = true → TypeExpr.IsName entry.name ∧ scope.lookup entry.name = some part

/-- No type parameter occurs in the type. -/
def NoParameter (store : Store) (type : Handle) : Prop :=
  ∀ (part : Handle) entry, store.WrittenIn part type → store.types[part]? = some entry →
    entry.isParameter = false

variable {scope : Scope} {type : Handle} {entry : Entry}

theorem Legible.of_writtenIn {part : Handle} (h : s.Legible scope type)
    (hwritten : ∀ other, s.WrittenIn other part → s.WrittenIn other type) : s.Legible scope part :=
  ⟨fun other entry hother => h.declared other entry (hwritten other hother),
    fun other entry hother => h.params other entry (hwritten other hother)⟩

theorem NoParameter.legible (h : s.NoParameter type) : s.Legible [] type := by
  refine ⟨fun _ _ _ _ _ => rfl, fun part entry hpart hentry hparam => ?_⟩
  rw [h part entry hpart hentry] at hparam
  cases hparam

/-- No type parameter occurs in a type that records none. -/
theorem Coherent.noParameter (hs : s.Coherent) (h : s.isOpen type = .ok false) :
    s.NoParameter type := by
  intro part found hpart hfound
  have hclosed : ∀ {other : Handle} {entry : Entry}, s.types[other]? = some entry →
      s.isOpen other = .ok false → entry.form.isOpen = false := by
    intro other entry hentry hopen
    rw [show s.isOpen other = .ok entry.isOpen from query_of_entry hentry (·.isOpen)] at hopen
    exact Except.ok.inj hopen
  induction hpart with
  | self =>
      have hform : s.form part = some found.form := form_of_entry hfound
      cases hshape : found.shape with
      | parameter info =>
          have hopen := (hs.parameter hform (Entry.form_shape_of_parameter hshape)).1
          cases hopen.symm.trans (hclosed hfound h)
      | _ => simp [Entry.isParameter, hshape]
  | definition hentry hshape =>
      obtain ⟨⟨params, hd, -⟩, -⟩ := hs.instantiation (form_of_entry hentry)
        (Entry.form_shape_eq_instantiation.mpr hshape)
      simp [Entry.isParameter, (defines_of_entry (entry_eq_ok.mpr hfound)).mp hd]
  | @argument type arg definition entry args hentry hshape harg _ ih =>
      have hshape' := Entry.form_shape_eq_instantiation.mpr hshape
      obtain ⟨part, hpart, hopen⟩ := hs.argument (form_of_entry hentry)
        (show arg ∈ entry.form.arguments by simpa [Entry.arguments, hshape'] using harg)
      exact ih ((isOpen_of_form hpart).trans (congrArg _ (hopen (hclosed hentry h)).1))
  | @element type element entry rank hentry hshape _ ih =>
      obtain ⟨-, -, part, hpart, hopen, -⟩ := hs.array (form_of_entry hentry)
        (Entry.form_shape_eq_array.mpr hshape)
      exact ih ((isOpen_of_form hpart).trans (congrArg _ (hopen ▸ hclosed hentry h)))

/-- A declared type is found by its name. -/
theorem DistinctNames.lookup? (h : s.DistinctNames) (hs : s.NamesComposed)
    (hentry : s.types[type]? = some entry) (hdeclared : entry.isDeclared = true) :
    s.lookup? entry.name = some type := by
  obtain ⟨found, hfound⟩ := Option.isSome_iff_exists.mp
    (lookup?_isSome hentry rfl (isParameter_of_isDeclared hdeclared))
  obtain ⟨entry', hentry', hname, hkind⟩ := lookup?_entry hfound
  have hisName := h.isName type entry hentry hdeclared
  rw [← hname] at hisName
  have hdeclared' : entry'.isDeclared = true := by
    have hcomposed := hs found entry' hentry'
    cases hshape : entry'.shape with
    | instantiation definition args =>
        rw [hcomposed.instantiation definition args hshape] at hisName
        exact absurd hisName (TypeExpr.not_isName_instantiationName _ _)
    | array element rank =>
        rw [hcomposed.array element rank hshape] at hisName
        exact absurd hisName (TypeExpr.not_isName_arrayName _ _)
    | parameter info => simp [Entry.isParameter, hshape] at hkind
    | named => simp [Entry.isDeclared, hshape]
    | definition params => simp [Entry.isDeclared, hshape]
  rw [hfound, h.distinct type found entry entry' hentry hentry' hdeclared hdeclared' hname.symm]

open TypeExpr

/-- The expression is written like the type and stands for it, and interning it changes nothing. -/
structure Spells (store : Store) (scope : Scope) (expr : TypeExpr) (type : Handle) : Prop where
  writable : expr.Writable
  write : expr.write = (store.nameAt type).toList
  intern : (expr.intern scope).run.run store = .ok (.ok type, store)

/-- The expressions are written like the arguments `types`, and stand for them. -/
structure SpellsAll (store : Store) (scope : Scope) (exprs : List TypeExpr) (types : List Handle) :
    Prop where
  writable : AllWritable exprs
  length : exprs.length = types.length
  write : writeAll exprs = (", ".intercalate (types.map store.nameAt)).toList
  intern : (internAll scope exprs).run.run store = .ok (.ok types, store)

/-- Sequencing after a step that ends with a value. -/
theorem run_bind_of_ok {ε α β : Type} {x : ExceptT ε StoreM α} {f : α → ExceptT ε StoreM β} {a : α}
    (h : x.run.run s = .ok (.ok a, s')) : (x >>= f).run.run s = (f a).run.run s' := by
  rw [ExceptT.run_bind, StateT.run_bind, h]
  rfl

theorem run_query_of_ok {ε α : Type} {q : Query α} {a : α} (h : q = .ok a) :
    (liftM q : ExceptT ε StoreM α).run.run s = .ok (.ok a, s) := by
  subst h
  rfl

theorem run_lift_of_ok {ε α : Type} {x : StoreM α} {a : α} (h : x.run s = .ok (a, s')) :
    (liftM x : ExceptT ε StoreM α).run.run s = .ok (.ok a, s') := by
  rw [run_liftM]
  exact run_bind_eq_ok.mpr ⟨a, s', h, rfl⟩

theorem spellsAll {types : List Handle} (h : ∀ type ∈ types, ∃ expr, s.Spells scope expr type) :
    ∃ exprs, s.SpellsAll scope exprs types := by
  induction types with
  | nil => exact ⟨[], trivial, rfl, rfl, rfl⟩
  | cons type types ih =>
      obtain ⟨expr, hexpr⟩ := h type List.mem_cons_self
      obtain ⟨exprs, hexprs⟩ := ih fun other hother => h other (List.mem_cons_of_mem type hother)
      refine ⟨expr :: exprs, ⟨hexpr.writable, hexprs.writable⟩, by simp [hexprs.length], ?_, ?_⟩
      · have hlength := hexprs.length
        have hwrite := hexprs.write
        cases exprs with
        | nil =>
            obtain rfl := List.eq_nil_of_length_eq_zero hlength.symm
            simp [writeAll, hexpr.write]
        | cons next exprs =>
            cases types with
            | nil => cases hlength
            | cons other types =>
                rw [writeAll, hexpr.write, hwrite]
                simp [String.intercalate_cons_cons]
      · rw [internAll, run_bind_of_ok hexpr.intern, run_bind_of_ok hexprs.intern]
        rfl

/-- Closing has nothing to do where nothing is pending. -/
theorem Lawful.closeIfFinished_run (hs : s.Lawful) : closeIfFinished.run s = .ok ((), s) := by
  have hclose : s.pending = [] → close.run s = .ok ((), s) := by
    intro hpending
    have hdrain := (drains_nil hpending).run handleSpace
    rw [List.length_nil, if_pos (Nat.zero_le _)] at hdrain
    exact run_bind_eq_ok.mpr ⟨[], s, hdrain, rfl⟩
  change (if s.finished then close else pure ()).run s = _
  split
  · next hfinished => exact hclose (hs.finished hfinished).1
  · rfl

theorem instantiate_found (hs : s.Lawful) {definition : Handle} {args : List Handle}
    (hentry : s.types[type]? = some entry) (hshape : entry.shape = .instantiation definition args) :
    (Store.instantiate definition args).run s = .ok (type, s) := by
  have hform : s.form type = some entry.form := form_of_entry hentry
  have hshape' := Entry.form_shape_eq_instantiation.mpr hshape
  obtain ⟨⟨params, hd, hlength, hne⟩, hlt, -⟩ := hs.wellFormed.coherent.instantiation hform hshape'
  have hargs : ∀ arg ∈ args, arg < s.size := by
    intro arg harg
    obtain ⟨part, hpart, -⟩ := hs.wellFormed.coherent.argument hform
      (show arg ∈ entry.form.arguments by simpa [Entry.arguments, hshape'] using harg)
    exact form_lt hpart
  obtain ⟨found, mid, hintern, -⟩ := internInstance_returns hs.wellFormed.coherent
    (Nat.lt_trans hlt (form_lt hform)) hargs
  have hlookup := (hs.wellFormed.coherent.instances definition args type).mpr ⟨_, hform, hshape'⟩
  refine run_bind_eq_ok.mpr ⟨type, s, ?_, run_bind_eq_ok.mpr ⟨(), s, hs.closeIfFinished_run, rfl⟩⟩
  rcases internInstance_cases hintern with
    ⟨-, -, -, hsame⟩ | ⟨_, -, -, -, ⟨rfl, hfound⟩ | ⟨hnone, -⟩⟩
  · exact absurd (hsame params hd hlength) hne
  · rw [hlookup, Option.some.injEq] at hfound
    exact hfound ▸ hintern
  · rw [hlookup] at hnone
    cases hnone

theorem arrayOf_found (hs : s.Lawful) {element : Handle} {rank : Nat}
    (hentry : s.types[type]? = some entry) (hshape : entry.shape = .array element rank) :
    (Store.arrayOf element rank).run s = .ok (type, s) := by
  have hform : s.form type = some entry.form := form_of_entry hentry
  have hshape' := Entry.form_shape_eq_array.mpr hshape
  obtain ⟨hrank, hlt, -⟩ := hs.wellFormed.coherent.array hform hshape'
  obtain ⟨found, mid, hintern, -⟩ := internArray_returns hs.wellFormed.coherent
    (Nat.lt_trans hlt (form_lt hform)) hrank
  have hlookup := (hs.wellFormed.coherent.arrays element rank type).mpr ⟨_, hform, hshape'⟩
  rw [Store.arrayOf, Nat.max_eq_left hrank]
  refine run_bind_eq_ok.mpr ⟨type, s, ?_, run_bind_eq_ok.mpr ⟨(), s, hs.closeIfFinished_run, rfl⟩⟩
  rcases internArray_cases hintern with ⟨rfl, hfound⟩ | ⟨hnone, -⟩
  · rw [hlookup, Option.some.injEq] at hfound
    exact hfound ▸ hintern
  · rw [hlookup] at hnone
    cases hnone

/-- A declared type that the scope does not hide is what its name stands for. -/
theorem DistinctNames.resolve (h : s.DistinctNames) (hs : s.NamesComposed)
    (hentry : s.types[type]? = some entry) (hdeclared : entry.isDeclared = true)
    (hscope : scope.lookup entry.name = none) :
    (TypeExpr.resolve scope entry.name).run.run s = .ok (.ok type, s) := by
  unfold TypeExpr.resolve
  rw [hscope]
  dsimp only
  rw [run_getThe_bind, h.lookup? hs hentry hdeclared]
  rfl

/-- A definition that the scope does not hide, applied to the arguments of an instantiation, stands
for the instantiation. -/
theorem DistinctNames.instantiate (h : s.DistinctNames) (hs : s.NamesComposed) (hlawful : s.Lawful)
    {definition : Handle} {declared : Entry} {args : List Handle}
    (hentry : s.types[type]? = some entry) (hshape : entry.shape = .instantiation definition args)
    (hdeclared : s.types[definition]? = some declared)
    (hscope : scope.lookup declared.name = none) :
    (TypeExpr.instantiate scope declared.name args).run.run s = .ok (.ok type, s) := by
  have hform : s.form type = some entry.form := form_of_entry hentry
  obtain ⟨⟨params, hd, hlength, -⟩, -⟩ := hlawful.wellFormed.coherent.instantiation hform
    (Entry.form_shape_eq_instantiation.mpr hshape)
  have hparams := (defines_of_entry (entry_eq_ok.mpr hdeclared)).mp hd
  have hresolve := h.resolve hs hdeclared (by simp [Entry.isDeclared, hparams]) hscope
  have hdefinition : s.definition? definition = .ok (some definition) := by
    rw [show s.definition? definition = .ok (declared.definition? definition) from
      query_of_entry hdeclared (·.definition? definition), Entry.definition?, hparams]
  have hargs : s.arguments definition = .ok params := by
    rw [show s.arguments definition = .ok declared.arguments from
      query_of_entry hdeclared (·.arguments), Entry.arguments, hparams]
  rw [TypeExpr.instantiate, run_bind_of_ok hresolve]
  change (liftM (s.definition? definition) >>= _ : TypeExprM Handle).run.run s = _
  rw [run_bind_of_ok (run_query_of_ok hdefinition), if_pos rfl,
    run_bind_of_ok (run_query_of_ok hargs), if_pos hlength]
  exact run_lift_of_ok (instantiate_found hlawful hentry hshape)

/-- Every legible type is spelled by an expression. The induction is on the handle, which is larger
than those of the parts. -/
theorem Reachable.exists_spells (hs : s.Reachable) (hnames : s.DistinctNames) (hlt : type < s.size)
    (hlegible : s.Legible scope type) : ∃ expr, s.Spells scope expr type := by
  have hcomposed := hs.namesComposed
  have hcoherent := hs.lawful.wellFormed.coherent
  induction type using Nat.strong_induction_on with
  | _ type ih =>
      obtain ⟨entry, hentry⟩ := entry_of_lt hlt
      have hform : s.form type = some entry.form := form_of_entry hentry
      have hname := nameAt_of_entry hentry
      have hnamed : entry.isDeclared = true → ∃ expr, s.Spells scope expr type := by
        intro hdeclared
        exact ⟨.named entry.name, hnames.isName type entry hentry hdeclared, by rw [hname]; rfl,
          hnames.resolve hcomposed hentry hdeclared
            (hlegible.declared type entry .self hentry hdeclared)⟩
      cases hshape : entry.shape with
      | named => exact hnamed (by simp [Entry.isDeclared, hshape])
      | definition params => exact hnamed (by simp [Entry.isDeclared, hshape])
      | parameter info =>
          obtain ⟨hisName, hscope⟩ := hlegible.params type entry .self hentry
            (by simp [Entry.isParameter, hshape])
          refine ⟨.named entry.name, hisName, by rw [hname]; rfl, ?_⟩
          rw [intern, TypeExpr.resolve, hscope]
          rfl
      | instantiation definition args =>
          have hshape' := Entry.form_shape_eq_instantiation.mpr hshape
          obtain ⟨⟨params, hd, hlength, hne⟩, hbelow, parts, hparts, -⟩ :=
            hcoherent.instantiation hform hshape'
          obtain ⟨declared, hdeclared⟩ := entry_of_lt (Nat.lt_trans hbelow hlt)
          have hgeneric : declared.isDeclared = true := by
            simp [Entry.isDeclared, (defines_of_entry (entry_eq_ok.mpr hdeclared)).mp hd]
          have hscope := hlegible.declared definition declared (.definition hentry hshape) hdeclared
            hgeneric
          obtain ⟨exprs, hexprs⟩ : ∃ exprs, s.SpellsAll scope exprs args := by
            refine spellsAll fun arg harg => ?_
            obtain ⟨_, -, harglt, -⟩ := mem_of_forall₂ hparts harg
            exact ih arg harglt (Nat.lt_trans harglt hlt)
              (hlegible.of_writtenIn fun other hother => .argument hentry hshape harg hother)
          have hargs : exprs ≠ [] := by
            rintro rfl
            have hnil := List.eq_nil_of_length_eq_zero hexprs.length.symm
            rw [hnil] at hlength hne
            exact hne (List.eq_nil_of_length_eq_zero hlength)
          refine ⟨.apply declared.name exprs,
            ⟨hnames.isName definition declared hdeclared hgeneric, hargs, hexprs.writable⟩, ?_, ?_⟩
          · rw [hname, (hcomposed type entry hentry).instantiation definition args hshape,
              nameAt_of_entry hdeclared, write, hexprs.write, instantiationName]
            simp
          · rw [intern, run_bind_of_ok hexprs.intern]
            exact hnames.instantiate hcomposed hs.lawful hentry hshape hdeclared hscope
      | array element rank =>
          obtain ⟨hrank, hbelow, -⟩ := hcoherent.array hform (Entry.form_shape_eq_array.mpr hshape)
          obtain ⟨expr, hexpr⟩ := ih element hbelow (Nat.lt_trans hbelow hlt)
            (hlegible.of_writtenIn fun other hother => .element hentry hshape hother)
          refine ⟨.array expr rank, ⟨hexpr.writable, hrank⟩, ?_, ?_⟩
          · rw [hname, (hcomposed type entry hentry).array element rank hshape, write, hexpr.write,
              arrayName]
            simp
          · rw [intern, run_bind_of_ok hexpr.intern]
            exact run_lift_of_ok (arrayOf_found hs.lawful hentry hshape)

/-- Reading undoes writing. In a reachable store whose declared types have distinct names, the text
of the name of a type names that type, in every scope that finds its type parameters and hides none
of its declared types, and reading it leaves the store unchanged. So types in which no type
parameter occurs have different names. -/
theorem Reachable.parseType_typeName (hs : s.Reachable) (hnames : s.DistinctNames) :
    (∀ scope type, type < s.size → s.Legible scope type →
      ∃ name, s.typeName type = .ok name ∧ (parseType scope name).run.run s = .ok (.ok type, s)) ∧
    ∀ type other name, s.NoParameter type → s.NoParameter other → s.typeName type = .ok name →
      s.typeName other = .ok name → type = other := by
  have hreads : ∀ scope type name, s.Legible scope type → s.typeName type = .ok name →
      (parseType scope name).run.run s = .ok (.ok type, s) := by
    intro scope type name hlegible hname
    obtain ⟨entry, hentry, hname⟩ := Query.bind_eq_ok.mp hname
    obtain rfl := Query.pure_eq_ok.mp hname
    have hfound := entry_eq_ok.mp hentry
    obtain ⟨expr, hexpr⟩ := hs.exists_spells hnames
      (form_lt (form_eq_some.mpr ⟨entry, hfound, rfl⟩)) hlegible
    have hread : TypeExpr.read entry.name.toList = .ok expr := by
      rw [← nameAt_of_entry hfound, ← hexpr.write]
      exact read_write hexpr.writable
    rw [parseType, hread]
    exact hexpr.intern
  refine ⟨fun scope type hlt hlegible => ?_, fun type other name htype hother hname hname' => ?_⟩
  · obtain ⟨entry, hentry⟩ := entry_of_lt hlt
    have hname : s.typeName type = .ok entry.name := query_of_entry hentry (·.name)
    exact ⟨entry.name, hname, hreads scope type entry.name hlegible hname⟩
  · have hsame := (hreads [] type name htype.legible hname).symm.trans
      (hreads [] other name hother.legible hname')
    exact congrArg Prod.fst (Except.ok.inj hsame) |> Except.ok.inj

/-- A cell of integers, and arrays of cells of a type parameter of a callable. -/
def cellOperations : List Operation :=
  [.declarePrimitive "int" .i32,
    .declareGeneric .classType "Cell" [("T", .invariant)],
    .finish,
    .instantiate 2 [1],
    .declareCallable "Copy" ["U"],
    .instantiate 2 [5],
    .arrayOf 6 2]

/-- The store that `cellOperations` build. -/
def cellStore : Store := (Operation.runAll cellOperations (ofRoot "object")).getD {}

/-- `Cell<U>[,]` names the type of this name, and no other type has the name of `Cell<int>`. -/
theorem parseType_typeName_cells :
    (parseType [("U", 5), ("T", 3)] "Cell<U>[,]").run.run cellStore = .ok (.ok 7, cellStore) ∧
      ∀ other, cellStore.isOpen other = .ok false → cellStore.typeName other = .ok "Cell<int>" →
        other = 4 := by
  have hreachable : cellStore.Reachable := (Reachable.ofRoot "object").runAll
    (by decide +kernel : Operation.runAll cellOperations (ofRoot "object") = some cellStore)
  have hlt : ∀ {type : Handle} {entry}, cellStore.types[type]? = some entry →
      type < cellStore.size := fun hentry => form_lt (form_eq_some.mpr ⟨_, hentry, rfl⟩)
  have hdeclared : ∀ type < cellStore.size, ∀ other < cellStore.size,
      ∀ entry ∈ cellStore.types[type]?, ∀ entry' ∈ cellStore.types[other]?,
      entry.isDeclared = true → IsName entry.name ∧
        (entry'.isDeclared = true → entry.name = entry'.name → type = other) := by
    decide +kernel
  have hnames : cellStore.DistinctNames := by
    refine ⟨fun type entry hentry h => ?_,
      fun type other entry entry' hentry hentry' h h' hname => ?_⟩
    · exact (hdeclared type (hlt hentry) type (hlt hentry) entry hentry entry hentry h).1
    · exact (hdeclared type (hlt hentry) other (hlt hentry') entry hentry entry' hentry' h).2 h'
        hname
  have hscope : ∀ part < cellStore.size, ∀ entry ∈ cellStore.types[part]?,
      (entry.isDeclared = true → List.lookup entry.name [("U", 5), ("T", 3)] = none) ∧
        (entry.isParameter = true → IsName entry.name ∧
          List.lookup entry.name [("U", 5), ("T", 3)] = some part) := by
    decide +kernel
  have hlegible : cellStore.Legible [("U", 5), ("T", 3)] 7 :=
    ⟨fun part entry _ hentry h => (hscope part (hlt hentry) entry hentry).1 h,
      fun part entry _ hentry h => (hscope part (hlt hentry) entry hentry).2 h⟩
  obtain ⟨hreads, hdifferent⟩ := hreachable.parseType_typeName hnames
  constructor
  · obtain ⟨name, hname, hread⟩ := hreads _ 7 (by decide +kernel) hlegible
    rw [show cellStore.typeName 7 = .ok "Cell<U>[,]" by decide +kernel] at hname
    exact Except.ok.inj hname ▸ hread
  · intro other hclosed hname
    have hcoherent := hreachable.lawful.wellFormed.coherent
    exact hdifferent other 4 "Cell<int>" (hcoherent.noParameter hclosed)
      (hcoherent.noParameter (by decide +kernel)) hname (by decide +kernel)

end Store

end NominalGenerics
