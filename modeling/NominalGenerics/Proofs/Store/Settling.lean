import NominalGenerics.Proofs.Store.InterfaceSets

/-!
# Complete interface sets in reachable stores

Until the declarations are complete only type parameters are closed. Completing them closes the
instantiations and arrays first, and then all types in the order of their handles. A walk of the
first round goes through whole paths of supertypes; one of the second round passes by the types of
smaller handles, so a chain of any length is closed if bases are declared before the types that
extend them.

Where no path is longer than what a walk takes, all types but type parameters are complete, and stay
complete however the store grows.
-/

namespace NominalGenerics.Store

variable {s s' : Store} {type : Handle} {entry : Entry}

section Shapes

/-- The type is a type parameter. -/
def IsParameter (store : Store) (type : Handle) : Prop :=
  ∃ form info, store.form type = some form ∧ form.shape = .parameter info

theorem IsParameter.mono (hext : ∀ {type form}, s.form type = some form → s'.form type = some form)
    (h : s.IsParameter type) : s'.IsParameter type := by
  obtain ⟨form, info, hform, hshape⟩ := h
  exact ⟨form, info, hext hform, hshape⟩

theorem Interned.mono (hext : ∀ {type form}, s.form type = some form → s'.form type = some form)
    (h : s.Interned type) : s'.Interned type := by
  obtain ⟨form, hform, hshape⟩ := h
  exact ⟨form, hext hform, hshape⟩

theorem Names.form (h : Names s s') {form : Entry} (hform : s.form type = some form) :
    s'.form type = some form := by
  obtain ⟨entry, hentry, rfl⟩ := form_eq_some.mp hform
  obtain ⟨entry', hentry', -, hsame⟩ := h type entry hentry
  exact form_eq_some.mpr ⟨entry', hentry', hsame⟩

theorem isParameter_of_entry {info : TypeParam} (hentry : s.types[type]? = some entry)
    (hshape : entry.shape = .parameter info) : s.IsParameter type :=
  ⟨entry.form, { info with constraints := [] }, form_of_entry hentry, by
    rw [Entry.form, hshape, Shape.bare]⟩

end Shapes

section Declaring

/-- Until the declarations are complete only type parameters are closed, and only instantiations and
arrays wait for their supertypes. -/
structure Declaring (store : Store) : Prop where
  closed : ∀ type, store.ClosedAt type → store.IsParameter type
  pending : ∀ type ∈ store.pending, store.Interned type

/-- Changes that intern nothing and close type parameters at most. -/
theorem Declaring.of_entries (hs : s.Declaring) (hnames : Names s s')
    (hpending : s'.pending = s.pending)
    (hentries : ∀ (type : Handle) entry, s'.types[type]? = some entry → entry.closed = true →
      s.ClosedAt type ∨ ∃ info, entry.shape = .parameter info) : s'.Declaring := by
  refine ⟨fun type ⟨entry, hentry, hclosed⟩ => ?_, fun type htype => ?_⟩
  · rcases hentries type entry hentry hclosed with hold | ⟨info, hshape⟩
    · exact (hs.closed type hold).mono hnames.form
    · exact isParameter_of_entry hentry hshape
  · exact (hs.pending type (hpending ▸ htype)).mono hnames.form

theorem Declaring.appended {new : List Entry} {callables : Array Signature} (hs : s.Declaring)
    (hnew : ∀ entry ∈ new, entry.closed = true → ∃ info, entry.shape = .parameter info) :
    (s.appended new callables).Declaring := by
  refine hs.of_entries (names_appended _ _) rfl fun type entry hentry hclosed => ?_
  rw [appended_getElem?] at hentry
  split at hentry
  · exact Or.inl ⟨entry, hentry, hclosed⟩
  · exact Or.inr (hnew entry (List.mem_of_getElem? hentry) hclosed)

theorem Declaring.modifyEntry {change : Entry → Entry} {u : Unit} (hs : s.Declaring)
    (hnames : Names s s') (hrun : (Store.modifyEntry type change).run s = .ok (u, s'))
    (hclosed : ∀ entry, (change entry).closed = entry.closed) : s'.Declaring := by
  obtain ⟨-, rfl⟩ := modifyEntry_run hrun
  refine hs.of_entries hnames rfl fun other entry hentry hnow => Or.inl ?_
  rcases modify_getElem? hentry with ⟨rfl, old, hold, rfl⟩ | ⟨-, hold⟩
  · exact ⟨old, hold, (hclosed old).symm.trans hnow⟩
  · exact ⟨entry, hold, hnow⟩

theorem Declaring.grown (hs : s.Declaring) (hgrown : Grown s s') : s'.Declaring := by
  have hforms := hgrown.extends
  refine ⟨fun type hclosed => (hs.closed type (hgrown.closedAt hclosed)).mono hforms.forms,
    fun type hpending => ?_⟩
  rcases hgrown.mem_pending hpending with hold | ⟨hge, hlt⟩
  · exact (hs.pending type hold).mono hforms.forms
  · obtain ⟨entry, hentry⟩ := entry_of_lt hlt
    rcases hgrown.old_or_fresh hentry with hold | ⟨-, hfresh, -⟩
    · exact absurd (lt_of_entry hold) (Nat.not_lt.mpr hge)
    · exact interned_of_entry hentry hfresh.isInterned

/-- Interning a type before the declarations are complete. -/
theorem Declaring.intern (hs : s.Declaring) (hunfinished : s.finished = false) {mid : Store}
    {u : Unit} (hgrown : Grown s mid) (hrun : closeIfFinished.run mid = .ok (u, s')) :
    s'.Declaring := by
  obtain ⟨_, _, hget, hrun⟩ := run_bind_eq_ok.mp hrun
  cases hget
  rw [if_neg (by simp [hgrown.finished, hunfinished])] at hrun
  obtain ⟨-, rfl⟩ := run_pure_eq_ok.mp hrun
  exact hs.grown hgrown

theorem declaring_ofRoot (name : String) : (ofRoot name).Declaring := by
  refine ⟨fun type ⟨entry, hentry, hclosed⟩ => ?_, fun type htype => by cases htype⟩
  obtain ⟨rfl, rfl⟩ := entry_ofRoot hentry
  cases hclosed

theorem Declaring.step (hdeclaring : s.Declaring) (hs : s.Lawful) (hunfinished : s.finished = false)
    {op : Operation} (hop : op ≠ .finish) (hallowed : op.Allowed s)
    (hrun : op.run.run s = .ok ((), s')) : s'.Declaring := by
  have hnames := hs.names hallowed hrun
  have hpush : ∀ {entry : Entry}, entry.closed = false →
      (s.appended [entry] s.callables).Declaring := by
    intro entry hopen
    refine hdeclaring.appended fun other hother hclosed => ?_
    rw [List.mem_singleton.mp hother, hopen] at hclosed
    cases hclosed
  have htypes : s'.types = s.types → s'.pending = s.pending → s'.Declaring := by
    intro htypes hpending
    exact hdeclaring.of_entries hnames hpending fun type entry hentry hclosed =>
      Or.inl ⟨entry, htypes ▸ hentry, hclosed⟩
  cases op with
  | declare kind name => cases hrun; exact hpush rfl
  | declareGeneric kind name params =>
      obtain ⟨_, hrun⟩ := run_discard_eq_ok hrun
      rw [declareGeneric_run hrun]
      refine hdeclaring.appended fun entry hentry hclosed => ?_
      rcases List.mem_cons.mp hentry with rfl | hentry
      · cases hclosed
      · obtain ⟨_, -, rfl⟩ := List.mem_map.mp hentry
        exact ⟨_, rfl⟩
  | declarePrimitive name kind => cases hrun; exact hpush rfl
  | declareEnum name underlying => cases hrun; exact hpush rfl
  | declarePointer name => cases hrun; exact hpush rfl
  | setBase type base => exact hdeclaring.modifyEntry hnames hrun fun _ => rfl
  | addInterface type interface => exact hdeclaring.modifyEntry hnames hrun fun _ => rfl
  | addFlags type flags => exact hdeclaring.modifyEntry hnames hrun fun _ => rfl
  | removeFlags type flags => exact hdeclaring.modifyEntry hnames hrun fun _ => rfl
  | setValueTypeRoot type => cases hrun; exact htypes rfl rfl
  | setArrayRoot type => cases hrun; exact htypes rfl rfl
  | setOptionalWrapper definition => cases hrun; exact htypes rfl rfl
  | addSequenceInterface definition => cases hrun; exact htypes rfl rfl
  | finish => exact absurd rfl hop
  | instantiate definition args =>
      obtain ⟨mid, hgrown, -, hclose⟩ := hs.interning rfl hrun
      exact hdeclaring.intern hunfinished hgrown hclose
  | arrayOf element rank =>
      obtain ⟨mid, hgrown, -, hclose⟩ := hs.interning rfl hrun
      exact hdeclaring.intern hunfinished hgrown hclose
  | declareCallable name typeParams =>
      obtain ⟨_, hrun⟩ := run_discard_eq_ok hrun
      rw [declareCallable_run hrun]
      refine hdeclaring.appended fun entry hentry _ => ?_
      obtain ⟨_, -, rfl⟩ := List.mem_map.mp hentry
      exact ⟨_, rfl⟩
  | addParameter id type mode => cases hrun; exact htypes rfl rfl
  | setReturnType id type => cases hrun; exact htypes rfl rfl
  | setDeclaringType id type => cases hrun; exact htypes rfl rfl
  | addConstraint param constraint =>
      refine hdeclaring.modifyEntry hnames hrun fun entry => ?_
      split <;> rfl

end Declaring

section Closability

/-- No walk that closes types gives up: the store is not too large, no path of direct supertypes
comes back, those that begin with an instantiation or an array are short, and so are those that
begin with any type, as far as they go through types that were added after it. -/
structure Closable (store : Store) : Prop where
  size_le : store.size ≤ Limits.supertypeClosure.maxIterations
  acyclic : ∃ room, ∀ type, type < store.size → store.climbs 0 room type = true
  interned : ∀ type, store.Interned type →
    store.climbs 0 Limits.supertypeClosure.maxDepth type = true
  declared : ∀ type, type < store.size →
    store.climbs type Limits.supertypeClosure.maxDepth type = true

/-- A part of a closable store is closable. -/
theorem Closable.of_links (hs' : s'.Closable) (hs : s.WellFormed) (hsize : s.size ≤ s'.size)
    (hlinks : ∀ type, type < s.size → s'.links type = s.links type)
    (hinterned : ∀ type, s.Interned type → s'.Interned type) : s.Closable := by
  refine ⟨hsize.trans hs'.size_le, ?_, fun type htype => ?_, fun type hlt => ?_⟩
  · obtain ⟨room, hroom⟩ := hs'.acyclic
    exact ⟨room, fun type hlt =>
      climbs_of_links hs hlinks hlt (hroom type (Nat.lt_of_lt_of_le hlt hsize))⟩
  · obtain ⟨form, hform, -⟩ := id htype
    exact climbs_of_links hs hlinks (form_lt hform) (hs'.interned type (hinterned type htype))
  · exact climbs_of_links hs hlinks hlt (hs'.declared type (Nat.lt_of_lt_of_le hlt hsize))

/-- In a closable store ranks fall along the paths through the types from any handle on. -/
theorem Closable.ranksFall (h : s.Closable) (start : Nat) : ∃ rank, s.RanksFall start rank ∧
    ∀ type, s.climbs start Limits.supertypeClosure.maxDepth type = true →
      rank type < Limits.supertypeClosure.maxDepth := by
  obtain ⟨room, hroom⟩ := h.acyclic
  obtain ⟨rank, hfall, hrank⟩ := ranksFall_of_climbs fun type hlt =>
    climbs_mono (Nat.zero_le start) (Nat.le_refl room) (hroom type hlt)
  refine ⟨rank, hfall, fun type hclimbs => ?_⟩
  have hle : rank type ≤ Limits.supertypeClosure.maxDepth - 1 := hrank type _ hclimbs
  exact Nat.lt_of_le_of_lt hle (by decide)

/-- Instantiations and arrays of a closable store are ranked. -/
theorem Closable.ranks (h : s.Closable) {start : Nat}
    (hnew : ∀ type, start ≤ type → type < s.size → s.Interned type) :
    ∃ rank, s.Ranks start rank := by
  obtain ⟨rank, hfall, hrank⟩ := h.ranksFall start
  have hspace : Limits.supertypeClosure.maxIterations ≤ handleSpace := by decide
  refine ⟨rank, h.size_le.trans hspace, h.size_le.trans (Nat.le_add_left _ _),
    fun type entry hge hentry => hrank type ?_, hfall.base, hfall.direct⟩
  have hlt : type < s.size := lt_of_entry hentry
  exact climbs_mono (Nat.zero_le start) (Nat.le_refl _) (h.interned type (hnew type hge hlt))

end Closability

section Completion

/-- Every type is closed, and lists what it gathers from its direct supertypes unless it is a type
parameter. -/
structure Gathered (store : Store) : Prop where
  closed : store.AllClosed
  complete : ∀ type, type < store.size → ¬ store.IsParameter type →
    ∃ entry, store.CompleteAt type entry

/-- Closing interned types, and then all types in the order of their handles. -/
theorem Closable.closeAll_gathers (h : s.Closable) (hs : s.WellFormed) {types : List Handle}
    (htypes : ∀ type ∈ types, s.Interned type) {mid : Store} {u v : Unit}
    (hfirst : (closeAll types).run s = .ok (u, mid))
    (hsecond : (closeAll (List.range mid.size)).run mid = .ok (v, s')) :
    s'.AllClosed ∧
      ∀ type, ¬ s.ClosedAt type → s'.ClosedAt type → ∃ entry, s'.CompleteAt type entry := by
  have hnone : ∀ type, type < 0 → s.ClosedAt type := fun type hlt => absurd hlt (Nat.not_lt_zero _)
  obtain ⟨rank, hfall, hrank⟩ := h.ranksFall 0
  obtain ⟨-, hfirstComplete⟩ := hfall.closeAll hs (h.size_le.trans (Nat.le_add_left _ _)) hnone
    (fun type htype _ => hrank type (h.interned type (htypes type htype))) hfirst
  obtain ⟨hmid, hclosing, -⟩ := closeAll_run hs hfirst
  have hsize := hclosing.size
  obtain ⟨hclosed, hsecondComplete⟩ := closeAll_range hmid (hsize.trans_le h.size_le)
    (fun type hlt => by
      obtain ⟨rank, hfall, hrank⟩ := h.ranksFall type
      exact ⟨rank, hfall.closing hclosing, hrank type (h.declared type (hsize ▸ hlt))⟩) hsecond
  have hlater : Later mid s' := (closeAll_run hmid hsecond).2.1.later
  refine ⟨hclosed, fun type hopen hnow => ?_⟩
  by_cases hbefore : mid.ClosedAt type
  · obtain ⟨entry, hcomplete⟩ := hfirstComplete type hopen hbefore
    exact ⟨entry, hcomplete.later hlater⟩
  · exact hsecondComplete type hbefore hnow

theorem closedAt_withDefaultBases (h : s.withDefaultBases.ClosedAt type) : s.ClosedAt type := by
  obtain ⟨entry, hentry, hclosed⟩ := h
  obtain ⟨old, hold, rfl⟩ := entry_withDefaultBases hentry
  exact ⟨old, hold, hclosed⟩

/-- Completing the declarations of a store that becomes closable makes all its types complete. -/
theorem Declaring.finish (hdeclaring : s.Declaring) (hs : s.Lawful)
    (hunfinished : s.finished = false) {u : Unit} (hrun : Store.finish.run s = .ok (u, s'))
    (hclosable : s'.Closable) : s'.Gathered := by
  obtain ⟨closed, last, hclose, hsecond, rfl⟩ := finish_run hrun
  obtain ⟨types, drained, hdrain, hfirst⟩ := run_bind_eq_ok.mp hclose
  have hbases := (hs.withDefaultBases hunfinished).draining
  obtain ⟨hdrained, -, hlater, -⟩ := drain_run hbases hdrain
  have hforms : ∀ {type form}, s.form type = some form → drained.form type = some form :=
    fun hform => hlater.extends.forms ((form_withDefaultBases _).trans hform)
  have hinterned : ∀ type ∈ types, drained.Interned type := by
    intro type htype
    rcases (hbases.mem_drain hdrain).mp htype with hpending | ⟨hge, hlt⟩
    · exact (hdeclaring.pending type hpending).mono hforms
    · exact DerivedFrom.interned
        ((robust_derivedFrom _).drain (derivedFrom_size _) _ _ _ hdrain) hge hlt
  obtain ⟨hclosed, hclosing, -⟩ := closeAll_run hdrained.wellFormed hfirst
  obtain ⟨-, hclosing', -⟩ := closeAll_run hclosed hsecond
  have hwalks : Closing [] drained last := hclosing.trans hclosing'
  have hpart : drained.Closable :=
    hclosable.of_links hdrained.wellFormed hwalks.size.ge (fun type _ => hwalks.links type)
      fun type htype => htype.mono hwalks.sameForms.extends.forms
  obtain ⟨hall, hcomplete⟩ := hpart.closeAll_gathers hdrained.wellFormed hinterned hfirst hsecond
  refine ⟨hall, fun type hlt hparam => ?_⟩
  have hopen : ¬ drained.ClosedAt type := fun hnow => hparam <|
    (hdeclaring.closed type (closedAt_withDefaultBases
      (hbases.closedAt_of_drain hdrain hnow))).mono fun hform =>
        hwalks.sameForms.extends.forms (hforms hform)
  obtain ⟨entry, hentry⟩ := hcomplete type hopen (hall type hlt)
  exact ⟨entry, hentry.found, hentry.closed, hentry.base, hentry.direct, hentry.interfaces⟩

end Completion

section Growing

/-- What is complete stays so where all types are retained. -/
theorem CompleteAt.retains (h : Retains s s') (hcomplete : s.CompleteAt type entry) :
    ∃ entry', s'.CompleteAt type entry' := by
  have hset : ∀ {super}, s.ClosedAt super → s'.interfaceSet super = s.interfaceSet super := by
    rintro super ⟨entry, hentry, -⟩
    obtain ⟨shape, hentry', -⟩ := h.entries hentry
    rw [interfaceSet_of_entry hentry, interfaceSet_of_entry hentry']
  obtain ⟨shape, hentry', -⟩ := h.entries hcomplete.found
  refine ⟨_, hentry', hcomplete.closed, fun super hbase => h.closedAt (hcomplete.base super hbase),
    fun super hdirect => h.closedAt (hcomplete.direct super hdirect), ?_⟩
  refine hcomplete.interfaces.trans
    (gather_congr (fun super hbase => ?_) fun super hdirect => ?_).symm
  · exact hset (hcomplete.base super hbase)
  · exact hset (hcomplete.direct super hdirect)

theorem Retains.links (h : Retains s s') (hlt : type < s.size) : s'.links type = s.links type := by
  obtain ⟨entry, hentry⟩ := entry_of_lt hlt
  obtain ⟨shape, hentry', -⟩ := h.entries hentry
  rw [links_of_entry hentry, links_of_entry hentry']

/-- What an operation does to a finished store: it interns a type and what this needs, or it retains
all types and adds type parameters at most. -/
theorem Lawful.growth (hs : s.Lawful) (hfinished : s.finished = true) {op : Operation}
    (hallowed : op.Allowed s) (hrun : op.run.run s = .ok ((), s')) :
    (∃ mid, Grown s mid ∧ mid.Coherent ∧ closeIfFinished.run mid = .ok ((), s') ∧
      s'.DerivedFrom s.size) ∨
    Retains s s' ∧ ∀ (type : Handle) entry, s.size ≤ type → s'.types[type]? = some entry →
      entry.closed = true ∧ ∃ info, entry.shape = .parameter info := by
  have hdeclares : op.isDeclaration = false := by
    by_contra htrue
    have := hallowed.2 (by simpa using htrue)
    rw [hfinished] at this
    cases this
  have hderived : op.interns = true → s'.DerivedFrom s.size := fun hop =>
    (robust_derivedFrom s.size).interning (derivedFrom_size s) hs hop hrun
  have hsame : s'.size = s.size → ∀ (type : Handle) entry, s.size ≤ type →
      s'.types[type]? = some entry → entry.closed = true ∧ ∃ info, entry.shape = .parameter info :=
    fun hsize type entry hge hentry => absurd
      (hsize ▸ lt_of_entry hentry) (Nat.not_lt.mpr hge)
  cases op with
  | instantiate definition args =>
      obtain ⟨mid, hgrown, hmid, hclose⟩ := hs.interning rfl hrun
      exact Or.inl ⟨mid, hgrown, hmid, hclose, hderived rfl⟩
  | arrayOf element rank =>
      obtain ⟨mid, hgrown, hmid, hclose⟩ := hs.interning rfl hrun
      exact Or.inl ⟨mid, hgrown, hmid, hclose, hderived rfl⟩
  | declareCallable name typeParams =>
      obtain ⟨_, hrun⟩ := run_discard_eq_ok hrun
      exact Or.inr (declareCallable_retains hrun)
  | addParameter id type mode => exact Or.inr ((modifySignature_retains hrun).imp_right hsame)
  | setReturnType id type => exact Or.inr ((modifySignature_retains hrun).imp_right hsame)
  | setDeclaringType id type => exact Or.inr ((modifySignature_retains hrun).imp_right hsame)
  | addConstraint param constraint =>
      exact Or.inr ((retains_addConstraint hrun).imp_right hsame)
  | _ => cases hdeclares

/-- Interning on a store whose types are complete. -/
theorem Gathered.intern (hs : s.Gathered) (hlawful : s.Lawful) (hfinished : s.finished = true)
    {mid : Store} {u : Unit} (hgrown : Grown s mid) (hmid : mid.Coherent)
    (hrun : closeIfFinished.run mid = .ok (u, s')) (hderived : s'.DerivedFrom s.size)
    (hclosable : s'.Closable) : s'.Gathered := by
  obtain ⟨-, hlater⟩ := hlawful.intern hgrown hmid hrun
  obtain ⟨rank, hranks⟩ := hclosable.ranks fun type hge hlt => hderived.interned hge hlt
  have hnew := fun {type} (hge : s.size ≤ type) (hlt : type < s'.size) =>
    hlawful.intern_complete hfinished hs.closed hgrown hmid hrun hranks (Nat.le_refl _) hge hlt
  refine ⟨(hlater.retains hs.closed).allClosed hs.closed fun type hge hlt => (hnew hge hlt).1,
    fun type hlt hparam => ?_⟩
  rcases Nat.lt_or_ge type s.size with hold | hge
  · obtain ⟨entry, hcomplete⟩ :=
      hs.complete type hold fun h => hparam (h.mono hlater.extends.forms)
    exact ⟨entry, hcomplete.later hlater⟩
  · exact (hnew hge hlt).2

theorem Gathered.retains (hs : s.Gathered) (hretains : Retains s s')
    (hnew : ∀ (type : Handle) entry, s.size ≤ type → s'.types[type]? = some entry →
      entry.closed = true ∧ ∃ info, entry.shape = .parameter info) : s'.Gathered := by
  refine ⟨hretains.allClosed hs.closed fun type hge hlt => ?_, fun type hlt hparam => ?_⟩
  · obtain ⟨entry, hentry⟩ := entry_of_lt hlt
    exact ⟨entry, hentry, (hnew type entry hge hentry).1⟩
  · rcases Nat.lt_or_ge type s.size with hold | hge
    · obtain ⟨entry, hcomplete⟩ :=
        hs.complete type hold fun h => hparam (h.mono hretains.names.form)
      exact hcomplete.retains hretains
    · obtain ⟨entry, hentry⟩ := entry_of_lt hlt
      obtain ⟨-, info, hshape⟩ := hnew type entry hge hentry
      exact absurd (isParameter_of_entry hentry hshape) hparam

/-- Growing keeps the types of a finished store complete as long as the store stays closable. -/
theorem Gathered.step (hs : s.Gathered) (hlawful : s.Lawful) (hfinished : s.finished = true)
    {op : Operation} (hallowed : op.Allowed s) (hrun : op.run.run s = .ok ((), s'))
    (hclosable : s'.Closable) : s'.Gathered := by
  rcases hlawful.growth hfinished hallowed hrun with
    ⟨mid, hgrown, hmid, hclose, hderived⟩ | ⟨hretains, hnew⟩
  · exact hs.intern hlawful hfinished hgrown hmid hclose hderived hclosable
  · exact hs.retains hretains hnew

/-- A finished store that is closable was closable before it grew. -/
theorem Closable.before (hclosable : s'.Closable) (hs : s.Lawful) (hfinished : s.finished = true)
    {op : Operation} (hallowed : op.Allowed s) (hrun : op.run.run s = .ok ((), s')) :
    s.Closable := by
  have hnames := hs.names hallowed hrun
  refine hclosable.of_links hs.wellFormed (Nat.le_of_not_lt fun hlt => ?_) (fun type hlt => ?_)
    fun type htype => htype.mono hnames.form
  · exact Nat.lt_irrefl _ (hnames.lt hlt)
  · rcases hs.growth hfinished hallowed hrun with ⟨mid, hgrown, hmid, hclose, -⟩ | ⟨hretains, -⟩
    · exact hs.intern_links hfinished hgrown hmid hclose hlt
    · exact hretains.links hlt

/-- In a reachable store the declarations of which are complete, and in which no closing walk gives
up, every type is closed and lists what it gathers from its direct supertypes. -/
theorem Reachable.gathered (hs : s.Reachable) (hfinished : s.finished = true)
    (hclosable : s.Closable) : s.Gathered := by
  suffices h : (s.finished = false → s.Declaring) ∧
      (s.finished = true → s.Closable → s.Gathered) from h.2 hfinished hclosable
  clear hfinished hclosable
  induction hs with
  | ofRoot name => exact ⟨fun _ => declaring_ofRoot name, fun h => by cases h⟩
  | @step s s' op hs hallowed hrun ih =>
      cases hfinished : s.finished with
      | true =>
          refine ⟨fun hunfinished => ?_, fun _ hclosable => ?_⟩
          · have hop : op ≠ .finish := by
              rintro rfl
              rw [hallowed.2 rfl] at hfinished
              cases hfinished
            rw [finished_of_run hs.lawful hop hrun, hfinished] at hunfinished
            cases hunfinished
          · have hbefore := hclosable.before hs.lawful hfinished hallowed hrun
            exact (ih.2 hfinished hbefore).step hs.lawful hfinished hallowed hrun hclosable
      | false =>
          by_cases hop : op = .finish
          · subst hop
            obtain ⟨_, last, -, -, hlast⟩ := finish_run hrun
            refine ⟨fun hunfinished => ?_, fun _ =>
              (ih.1 hfinished).finish hs.lawful hfinished hrun⟩
            rw [hlast] at hunfinished
            cases hunfinished
          · refine ⟨fun _ => (ih.1 hfinished).step hs.lawful hfinished hop hallowed hrun,
              fun hfinished' => ?_⟩
            rw [finished_of_run hs.lawful hop hrun, hfinished] at hfinished'
            cases hfinished'

end Growing

end NominalGenerics.Store
