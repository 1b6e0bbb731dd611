import Mathlib.Data.List.Nodup
import NominalGenerics.Proofs.Catalog.Building

/-!
# Flags of instantiations

An instantiation copies the flags that its definition has when it is interned. A declaration may
change the flags of its type after earlier declarations, or its own supertypes, have interned
instantiations of it, and these keep the flags of the kind. Where no text that is read before the
flags change applies the name, all instantiations have the flags of the definition, in the store of
the catalog and after all later requests.
-/

namespace NominalGenerics

namespace Store

variable {s s' : Store} {definition : Handle} {flags : Flags}

/-- The definition and all its instantiations have the given flags. -/
structure Carries (definition : Handle) (flags : Flags) (s : Store) : Prop where
  declared : ∃ entry, s.types[definition]? = some entry ∧ entry.flags = flags
  copied : ∀ (type : Handle) entry args, s.types[type]? = some entry →
    entry.shape = .instantiation definition args → entry.flags = flags

/-- Nothing instantiates the definition. -/
def Uninstantiated (definition : Handle) (s : Store) : Prop :=
  ∀ (type : Handle) entry args, s.types[type]? = some entry →
    entry.shape ≠ .instantiation definition args

/-- Definitions stand among the first types. -/
def DefinitionsBelow (bound : Nat) (s : Store) : Prop :=
  ∀ (type : Handle) entry params, s.types[type]? = some entry →
    entry.shape = .definition params → type < bound

theorem Uninstantiated.carries (h : Uninstantiated definition s) {entry : Entry}
    (hentry : s.types[definition]? = some entry) : Carries definition entry.flags s :=
  ⟨⟨entry, hentry, rfl⟩, fun type other args hother hshape => absurd hshape (h type other args hother)⟩

/-- A computed type is one that was there. -/
theorem Computes.source (h : Computes s s') (hsize : s'.size = s.size) {type : Handle}
    {entry' : Entry} (hentry' : s'.types[type]? = some entry') :
    ∃ entry, s.types[type]? = some entry ∧ entry.Computed entry' := by
  obtain ⟨entry, hentry⟩ := entry_of_lt (hsize ▸ lt_of_entry hentry')
  obtain ⟨found, hfound, hcomputed⟩ := h type entry hentry
  obtain rfl : found = entry' := Option.some.inj (hfound.symm.trans hentry')
  exact ⟨entry, hentry, hcomputed⟩

/-- New instantiations copy the flags. -/
theorem robust_carries (definition : Handle) (flags : Flags) :
    Robust (Carries definition flags) := by
  refine ⟨fun {s s' entry} hs _ hderived htypes => ?_, fun {s s'} hs hcomputes hsize => ?_⟩
  · obtain ⟨declared, hdeclared, hflags⟩ := hs.declared
    obtain ⟨_, hdeclared', hcomputed⟩ := computes_push htypes _ _ hdeclared
    refine ⟨⟨_, hdeclared', hcomputed.flags.trans hflags⟩, fun type other args hother hshape => ?_⟩
    rw [htypes, Array.getElem?_push] at hother
    split at hother
    · cases hother
      cases hderived with
      | instantiation hfound _ hcore _ =>
          obtain ⟨rfl, rfl⟩ := (Shape.instantiation.inj
            ((shape_of_core_instantiation hcore).symm.trans hshape))
          obtain rfl := Option.some.inj (hdeclared.symm.trans hfound)
          exact (congrArg Entry.flags hcore : entry.core.flags = _).trans hflags
      | array _ hcore _ =>
          rw [shape_of_core_array hcore] at hshape
          cases hshape
    · exact hs.copied type other args hother hshape
  · obtain ⟨declared, hdeclared, hflags⟩ := hs.declared
    obtain ⟨_, hdeclared', hcomputed⟩ := hcomputes _ _ hdeclared
    refine ⟨⟨_, hdeclared', hcomputed.flags.trans hflags⟩, fun type other args hother hshape => ?_⟩
    obtain ⟨entry, hentry, hcomputed'⟩ := hcomputes.source hsize hother
    exact hcomputed'.flags.trans
      (hs.copied type entry args hentry (hcomputed'.instantiation.mp hshape))

theorem Carries.appended (h : Carries definition flags s) {new : List Entry}
    {callables : Array Signature} (hnew : ∀ entry ∈ new, entry.isParameter = true) :
    Carries definition flags (s.appended new callables) := by
  obtain ⟨declared, hdeclared, hflags⟩ := h.declared
  have hlt := lt_of_entry hdeclared
  refine ⟨⟨declared, ?_, hflags⟩, fun type entry args hentry hshape => ?_⟩
  · rw [appended_getElem?, if_pos hlt, hdeclared]
  · rw [appended_getElem?] at hentry
    split at hentry
    · exact h.copied type entry args hentry hshape
    · have hparam := hnew entry (List.mem_of_getElem? hentry)
      rw [Entry.isParameter, hshape] at hparam
      cases hparam

theorem robust_definitionsBelow (bound : Nat) : Robust (DefinitionsBelow bound) := by
  refine ⟨fun {s s' entry} hs hfresh _ htypes => ?_, fun {s s'} hs hcomputes hsize => ?_⟩
  · intro type other params hother hshape
    rw [htypes, Array.getElem?_push] at hother
    split at hother
    · cases hother
      rcases hfresh.isInterned with ⟨_, _, h⟩ | ⟨_, _, h⟩
      · cases hshape.symm.trans h
      · cases hshape.symm.trans h
    · exact hs type other params hother hshape
  · intro type other params hother hshape
    obtain ⟨entry, hentry, hcomputed⟩ := hcomputes.source hsize hother
    refine hs type entry params hentry ?_
    rw [← Entry.form_shape_eq_definition, ← hcomputed.form, Entry.form_shape_eq_definition, hshape]

theorem DefinitionsBelow.appended {bound : Nat} (h : DefinitionsBelow bound s) {new : List Entry}
    {callables : Array Signature} (hnew : ∀ entry ∈ new, entry.isParameter = true) :
    DefinitionsBelow bound (s.appended new callables) := by
  intro type entry params hentry hshape
  rw [appended_getElem?] at hentry
  split at hentry
  · exact h type entry params hentry hshape
  · have hparam := hnew entry (List.mem_of_getElem? hentry)
    rw [Entry.isParameter, hshape] at hparam
    cases hparam

/-- An entry of a store in which one entry was changed. -/
theorem modify_source {type other : Handle} {change : Entry → Entry} {entry' : Entry}
    (h : { s with types := s.types.modify type change }.types[other]? = some entry') :
    ∃ entry, s.types[other]? = some entry ∧ entry' = if type = other then change entry else entry := by
  rw [Array.getElem?_modify] at h
  split at h
  · next heq =>
      obtain ⟨entry, hentry, rfl⟩ := Option.map_eq_some_iff.mp h
      exact ⟨entry, hentry, (if_pos heq).symm⟩
  · next hne => exact ⟨entry', h, (if_neg hne).symm⟩

theorem instantiation_of_form {entry entry' : Entry} {args : List Handle}
    (h : entry'.form = entry.form) (hshape : entry'.shape = .instantiation definition args) :
    entry.shape = .instantiation definition args := by
  rw [← Entry.form_shape_eq_instantiation, ← h, Entry.form_shape_eq_instantiation, hshape]

/-- A change that leaves the flags of the definition and of its instantiations alone. -/
theorem Carries.modified (h : Carries definition flags s) {type : Handle} {change : Entry → Entry}
    (hform : ∀ entry, (change entry).form = entry.form)
    (hflags : ∀ entry, s.types[type]? = some entry →
      type = definition ∨ (∃ args, entry.shape = .instantiation definition args) →
        (change entry).flags = entry.flags) :
    Carries definition flags { s with types := s.types.modify type change } := by
  obtain ⟨declared, hdeclared, hcarried⟩ := h.declared
  refine ⟨⟨if type = definition then change declared else declared, ?_, ?_⟩,
    fun other entry' args hentry' hshape => ?_⟩
  · rw [Array.getElem?_modify, hdeclared]
    split <;> rfl
  · split
    · next heq => exact (hflags declared (heq ▸ hdeclared) (Or.inl heq)).trans hcarried
    · exact hcarried
  · obtain ⟨entry, hentry, rfl⟩ := modify_source hentry'
    split at hshape
    · next heq =>
        have hshape' := instantiation_of_form (hform entry) hshape
        rw [if_pos heq, hflags entry (heq ▸ hentry) (Or.inr ⟨args, hshape'⟩)]
        exact h.copied other entry args hentry hshape'
    · next hne =>
        rw [if_neg hne]
        exact h.copied other entry args hentry hshape

theorem Uninstantiated.modified (h : Uninstantiated definition s) {type : Handle}
    {change : Entry → Entry} (hform : ∀ entry, (change entry).form = entry.form) :
    Uninstantiated definition { s with types := s.types.modify type change } := by
  intro other entry' args hentry' hshape
  obtain ⟨entry, hentry, rfl⟩ := modify_source hentry'
  split at hshape
  · exact h other entry args hentry (instantiation_of_form (hform entry) hshape)
  · exact h other entry args hentry hshape

theorem DefinitionsBelow.modified {bound : Nat} (h : DefinitionsBelow bound s) {type : Handle}
    {change : Entry → Entry} (hform : ∀ entry, (change entry).form = entry.form) :
    DefinitionsBelow bound { s with types := s.types.modify type change } := by
  intro other entry' params hentry' hshape
  obtain ⟨entry, hentry, rfl⟩ := modify_source hentry'
  refine h other entry params hentry ?_
  split at hshape
  · rw [← Entry.form_shape_eq_definition, ← hform, Entry.form_shape_eq_definition, hshape]
  · exact hshape

theorem closeIfFinished_unfinished (hunfinished : s.finished = false) {u : Unit}
    (hrun : closeIfFinished.run s = .ok (u, s')) : s' = s := by
  obtain ⟨_, _, hget, hrun⟩ := run_bind_eq_ok.mp hrun
  cases hget
  rw [if_neg (by simp [hunfinished])] at hrun
  exact (run_pure_eq_ok.mp hrun).2.symm

theorem Uninstantiated.interned (h : Uninstantiated definition s) {entry : Entry}
    {instances : List ((Handle × List Handle) × Handle)} {arrays : List ((Handle × Nat) × Handle)}
    (hentry : ∀ args, entry.shape ≠ .instantiation definition args) :
    Uninstantiated definition (s.interned entry instances arrays) := by
  intro type other args hother
  rw [Store.interned, Array.getElem?_push] at hother
  split at hother
  · cases hother
    exact hentry args
  · exact h type other args hother

/-- Before the declarations are complete, instantiating another type, or the definition at its own
parameters, makes no instantiation of the definition. -/
theorem Uninstantiated.instantiate (h : Uninstantiated definition s)
    (hunfinished : s.finished = false) {applied : Handle} {args : List Handle}
    (hother : applied = definition → ∀ params, s.Defines definition params →
      params.length = args.length → params = args)
    (hrun : (Operation.instantiate applied args).run.run s = .ok ((), s')) :
    Uninstantiated definition s' := by
  obtain ⟨_, hrun⟩ := run_discard_eq_ok hrun
  obtain ⟨mid, hintern, hclose⟩ := run_instantiate_eq_ok hrun
  rcases internInstance_cases hintern with
    ⟨rfl, -⟩ | ⟨params, hdefines, hlength, hne, ⟨rfl, -⟩ | ⟨-, -, declared, parts, -, rfl⟩⟩
  · exact closeIfFinished_unfinished hunfinished hclose ▸ h
  · exact closeIfFinished_unfinished hunfinished hclose ▸ h
  · rw [closeIfFinished_unfinished (by exact hunfinished) hclose]
    refine h.interned fun args' hshape => ?_
    obtain ⟨rfl, rfl⟩ := Shape.instantiation.inj hshape
    exact hne (hother rfl params hdefines hlength)

theorem Uninstantiated.arrayOf (h : Uninstantiated definition s)
    (hunfinished : s.finished = false) {element : Handle} {rank : Nat}
    (hrun : (Operation.arrayOf element rank).run.run s = .ok ((), s')) :
    Uninstantiated definition s' := by
  obtain ⟨_, hrun⟩ := run_discard_eq_ok hrun
  obtain ⟨mid, hintern, hclose⟩ := run_arrayOf_eq_ok hrun
  rcases internArray_cases hintern with ⟨rfl, -⟩ | ⟨-, -, -, part, -, rfl⟩
  · exact closeIfFinished_unfinished hunfinished hclose ▸ h
  · rw [closeIfFinished_unfinished (by exact hunfinished) hclose]
    exact h.interned fun args hshape => by cases hshape

end Store

/-- The name that an expression is. -/
def TypeExpr.name? : TypeExpr → Option String
  | .named name => some name
  | _ => none

namespace TypeExpr

variable {scope : Scope} {start s : Store}

/-- Names of a scope stand for its types. -/
theorem internAll_named {exprs : List TypeExpr} {types : List Handle}
    (h : List.Forall₂ (fun expr type => ∃ name, expr = named name ∧
      scope.lookup name = some type) exprs types) :
    (internAll scope exprs).run.run start = .ok (.ok types, start) := by
  induction h with
  | nil => rfl
  | cons hexpr _ ih =>
      obtain ⟨name, rfl, hlookup⟩ := hexpr
      rw [internAll, intern, resolve, hlookup]
      simp only [pure_bind, ExceptT.run_bind]
      rw [run_bind_eq_ok]
      exact ⟨_, _, ih, rfl⟩

end TypeExpr

theorem lookup_of_mem {scope : Scope} (hnodup : (scope.map Prod.fst).Nodup) {name : String}
    {type : Handle} (h : (name, type) ∈ scope) : scope.lookup name = some type := by
  obtain ⟨before, after, rfl⟩ := List.append_of_mem h
  refine List.lookup_eq_some_iff.mpr ⟨before, after, rfl, fun pair hpair => ?_⟩
  rw [List.map_append, List.map_cons, List.nodup_append] at hnodup
  exact bne_iff_ne.mpr (hnodup.2.2 _ (List.mem_map_of_mem hpair) _ List.mem_cons_self).symm

namespace Catalog

variable {s s' : Store} {definition : Handle} {flags : Flags}

/-- Whether the declaration gives its type other flags than its kind does. -/
def TypeDecl.changesFlags (decl : TypeDecl) : Bool :=
  (decl.isAbstract && !decl.kind.flags.abstract) ||
    decl.defaultConstructor == some (!decl.kind.flags.defaultConstructor)

/-- The applications in the supertypes of a declared type. -/
def TypeDecl.supertypeApplications (decl : TypeDecl) : List (String × List TypeExpr) :=
  decl.supertypeTexts.flatMap fun text => readApplications text.toList

/-- The applications in the constraints of a declared type. -/
def TypeDecl.constraintApplications (decl : TypeDecl) : List (String × List TypeExpr) :=
  decl.constraintTexts.flatMap fun text => readApplications (Text.trimBlank text.toList)

/-- Whether the expressions are the type parameters of the declaration, in order. -/
def TypeDecl.isOwnParams (decl : TypeDecl) (exprs : List TypeExpr) : Bool :=
  exprs.map TypeExpr.name? == decl.params.map (some ·.name) && (decl.params.map (·.name)).Nodup

/-- If the declaration changes flags, then no declaration before it applies its name, and its own
supertypes apply it to its own parameters only. -/
def FlagsSettled (types : List TypeDecl) (decl : TypeDecl) : Prop :=
  decl.changesFlags = true →
    (∀ earlier ∈ types.takeWhile (·.name != decl.name),
      ∀ pair ∈ earlier.supertypeApplications ++ earlier.constraintApplications,
        pair.1 ≠ decl.name) ∧
    ∀ pair ∈ decl.supertypeApplications, pair.1 = decl.name → decl.isOwnParams pair.2 = true

instance (types : List TypeDecl) (decl : TypeDecl) : Decidable (FlagsSettled types decl) :=
  inferInstanceAs (Decidable (_ → _))

/-- The own parameters of a declaration, as expressions, stand for the parameters of its type. -/
theorem isOwnParams_args {decl : TypeDecl} {exprs : List TypeExpr} {params args : List Handle}
    {start : Store} (hown : decl.isOwnParams exprs = true)
    (hargs : (TypeExpr.internAll (ownScope decl params) exprs).run.run start = .ok (.ok args, s))
    (hlength : params.length = args.length) : params = args := by
  rw [TypeDecl.isOwnParams, Bool.and_eq_true, beq_iff_eq, decide_eq_true_eq] at hown
  obtain ⟨hexprs, hnodup⟩ := hown
  have hcount : exprs.length = decl.params.length := by
    simpa using congrArg List.length hexprs
  have hsame : params.length = (decl.params.map (·.name)).length := by
    rw [hlength, TypeExpr.internAll_length hargs, hcount, List.length_map]
  have hkeys : (ownScope decl params).map Prod.fst = decl.params.map (·.name) :=
    List.map_fst_zip (Nat.le_of_eq hsame.symm)
  have hnamed : List.Forall₂ (fun expr type => ∃ name, expr = TypeExpr.named name ∧
      (ownScope decl params).lookup name = some type) exprs params := by
    refine List.forall₂_iff_get.mpr ⟨by rw [hcount, hsame, List.length_map], fun i hi hi' => ?_⟩
    have hdecl : i < decl.params.length := hcount ▸ hi
    have hname : (exprs.get ⟨i, hi⟩).name? = some decl.params[i].name := by
      have h := congrArg (·[i]?) hexprs
      simpa [List.getElem?_map, hi, hdecl] using h
    refine ⟨decl.params[i].name, ?_, lookup_of_mem (hkeys ▸ hnodup) ?_⟩
    · cases h : exprs.get ⟨i, hi⟩ <;> simp_all [TypeExpr.name?]
    · rw [ownScope, List.mem_iff_getElem?]
      exact ⟨i, List.getElem?_zip_eq_some.mpr ⟨by simp [hdecl], List.getElem?_eq_getElem hi'⟩⟩
  have hrun := (TypeExpr.internAll_named hnamed).symm.trans hargs
  cases hrun
  rfl

section Resolution

variable {decl : TypeDecl} {type : Handle} {scope : Scope} {start : Store} {op : Operation}

theorem carries_plain (hs : s.Carries definition flags) (hlawful : s.Lawful) (hop : Plain s op)
    (hrun : op.run.run s = .ok ((), s')) : s'.Carries definition flags :=
  (Store.robust_carries definition flags).plain (fun h => h.appended) hs hlawful hop hrun

/-- A declaration that changes no flags sets those that its type has. -/
theorem union_abstract (hsame : decl.changesFlags = false) (habstract : decl.isAbstract = true) :
    decl.kind.flags.union { abstract := true } = decl.kind.flags := by
  rw [TypeDecl.changesFlags, habstract] at hsame
  cases hkind : decl.kind <;> simp_all [Kind.flags, TypeKind.flags, Flags.union]

theorem union_constructor (hsame : decl.changesFlags = false)
    (hconstructor : decl.defaultConstructor = some true) :
    decl.kind.flags.union { defaultConstructor := true } = decl.kind.flags := by
  rw [TypeDecl.changesFlags, hconstructor] at hsame
  cases hkind : decl.kind <;> simp_all [Kind.flags, TypeKind.flags, Flags.union]

theorem diff_constructor (hsame : decl.changesFlags = false)
    (hconstructor : decl.defaultConstructor = some false) :
    decl.kind.flags.diff { defaultConstructor := true } = decl.kind.flags := by
  rw [TypeDecl.changesFlags, hconstructor] at hsame
  cases hkind : decl.kind <;> simp_all [Kind.flags, TypeKind.flags, Flags.diff]

/-- Resolving another type, or one whose flags are not changed, leaves the flags of the definition
and of its instantiations alone. -/
theorem Resolves.carries (hop : Resolves decl type scope start s op)
    (hs : s.Carries definition flags) (hlawful : s.Lawful)
    (hsame : type = definition → flags = decl.kind.flags ∧ decl.changesFlags = false)
    (hshape : ∀ entry args, s.types[type]? = some entry →
      entry.shape ≠ .instantiation definition args)
    (hrun : op.run.run s = .ok ((), s')) : s'.Carries definition flags := by
  have hlink : ∀ {change : Entry → Entry},
      (Store.modifyEntry type change).run s = .ok ((), s') →
      (∀ entry, (change entry).form = entry.form) →
      (∀ entry, (change entry).flags = entry.flags) → s'.Carries definition flags := by
    intro change hrun hform hflags
    obtain ⟨-, rfl⟩ := Store.modifyEntry_run hrun
    exact hs.modified hform fun entry _ _ => hflags entry
  have hflag : ∀ change : Flags → Flags,
      (decl.changesFlags = false → change decl.kind.flags = decl.kind.flags) →
      (Store.modifyEntry type fun entry => { entry with flags := change entry.flags }).run s =
        .ok ((), s') → s'.Carries definition flags := by
    intro change hchange hrun
    obtain ⟨-, rfl⟩ := Store.modifyEntry_run hrun
    refine hs.modified (fun _ => rfl) fun entry hentry hrole => ?_
    rcases hrole with htype | ⟨args, hinst⟩
    · obtain ⟨hkind, hunchanged⟩ := hsame htype
      obtain ⟨declared, hdeclared, hflags⟩ := hs.declared
      obtain rfl : entry = declared := Option.some.inj ((htype ▸ hentry).symm.trans hdeclared)
      dsimp only
      rw [hflags, hkind]
      exact hchange hunchanged
    · exact absurd hinst (hshape entry args hentry)
  cases hop with
  | early _ hop =>
      cases hop with
      | interns _ hop => exact carries_plain hs hlawful (plain_interns s _ hop) hrun
      | setBase base => exact hlink hrun (fun _ => rfl) fun _ => rfl
      | addInterface interface => exact hlink hrun (fun _ => rfl) fun _ => rfl
      | abstract h => exact hflag (·.union _) (fun hsame => union_abstract hsame h) hrun
      | constructor h => exact hflag (·.union _) (fun hsame => union_constructor hsame h) hrun
      | noConstructor h => exact hflag (·.diff _) (fun hsame => diff_constructor hsame h) hrun
  | interns _ hop => exact carries_plain hs hlawful (plain_interns s _ hop) hrun
  | addConstraint param constraint => 
      exact carries_plain hs hlawful (show Plain s (.addConstraint param constraint) from rfl) hrun

theorem definitionsBelow_plain {bound : Nat} (hs : s.DefinitionsBelow bound) (hlawful : s.Lawful)
    (hop : Plain s op) (hrun : op.run.run s = .ok ((), s')) : s'.DefinitionsBelow bound :=
  (Store.robust_definitionsBelow bound).plain (fun h => h.appended) hs hlawful hop hrun

/-- Resolving a type declares no definition. -/
theorem Resolves.definitionsBelow (hop : Resolves decl type scope start s op) {bound : Nat}
    (hs : s.DefinitionsBelow bound) (hlawful : s.Lawful)
    (hrun : op.run.run s = .ok ((), s')) : s'.DefinitionsBelow bound := by
  have hmodify : ∀ {change : Entry → Entry},
      (Store.modifyEntry type change).run s = .ok ((), s') →
      (∀ entry, (change entry).form = entry.form) → s'.DefinitionsBelow bound := by
    intro change hrun hform
    obtain ⟨-, rfl⟩ := Store.modifyEntry_run hrun
    exact hs.modified hform
  cases hop with
  | early _ hop =>
      cases hop with
      | interns _ hop => exact definitionsBelow_plain hs hlawful (plain_interns s _ hop) hrun
      | setBase base => exact hmodify hrun fun _ => rfl
      | addInterface interface => exact hmodify hrun fun _ => rfl
      | abstract h => exact hmodify hrun fun _ => rfl
      | constructor h => exact hmodify hrun fun _ => rfl
      | noConstructor h => exact hmodify hrun fun _ => rfl
  | interns _ hop => exact definitionsBelow_plain hs hlawful (plain_interns s _ hop) hrun
  | addConstraint param constraint =>
      exact definitionsBelow_plain hs hlawful
        (show Plain s (.addConstraint param constraint) from rfl) hrun

/-- Interning texts that apply the definition at most to its own parameters makes no instantiation
of it. -/
theorem interns_uninstantiated {applied : List (String × List TypeExpr)}
    (hop : TypeExpr.Interns scope applied s op) (hs : s.Uninstantiated definition)
    (hunfinished : s.finished = false)
    (hown : ∀ name exprs args start, (name, exprs) ∈ applied →
      scope.lookup name = some definition ∨ s.lookup? name = some definition →
      (TypeExpr.internAll scope exprs).run.run start = .ok (.ok args, s) →
      ∀ params, s.Defines definition params → params.length = args.length → params = args)
    (hrun : op.run.run s = .ok ((), s')) : s'.Uninstantiated definition := by
  cases hop with
  | array element rank => exact hs.arrayOf hunfinished hrun
  | instantiate happlied hname hargs =>
      refine hs.instantiate hunfinished (fun heq => ?_) hrun
      subst heq
      exact hown _ _ _ _ happlied hname hargs

/-- The operations that resolve supertypes and flags make no instantiation of the definition if the
texts do not. -/
theorem Early.uninstantiated (hop : Early decl type scope s op) (hs : s.Uninstantiated definition)
    (hunfinished : s.finished = false)
    (hown : ∀ name exprs args start, (name, exprs) ∈ decl.supertypeApplications →
      scope.lookup name = some definition ∨ s.lookup? name = some definition →
      (TypeExpr.internAll scope exprs).run.run start = .ok (.ok args, s) →
      ∀ params, s.Defines definition params → params.length = args.length → params = args)
    (hrun : op.run.run s = .ok ((), s')) : s'.Uninstantiated definition := by
  have hmodify : ∀ {change : Entry → Entry},
      (Store.modifyEntry type change).run s = .ok ((), s') →
      (∀ entry, (change entry).form = entry.form) → s'.Uninstantiated definition := by
    intro change hrun hform
    obtain ⟨-, rfl⟩ := Store.modifyEntry_run hrun
    exact hs.modified hform
  cases hop with
  | interns htext hop =>
      refine interns_uninstantiated hop hs hunfinished (fun name exprs args start hpair => ?_) hrun
      exact hown name exprs args start (List.mem_flatMap.mpr ⟨_, htext, hpair⟩)
  | setBase base => exact hmodify hrun fun _ => rfl
  | addInterface interface => exact hmodify hrun fun _ => rfl
  | abstract h => exact hmodify hrun fun _ => rfl
  | constructor h => exact hmodify hrun fun _ => rfl
  | noConstructor h => exact hmodify hrun fun _ => rfl

theorem Resolves.uninstantiated (hop : Resolves decl type scope start s op)
    (hs : s.Uninstantiated definition) (hunfinished : s.finished = false)
    (hnone : ∀ pair ∈ decl.supertypeApplications ++ decl.constraintApplications,
      ¬ (scope.lookup pair.1 = some definition ∨ s.lookup? pair.1 = some definition))
    (hrun : op.run.run s = .ok ((), s')) : s'.Uninstantiated definition := by
  cases hop with
  | early _ hop =>
      refine hop.uninstantiated hs hunfinished (fun name exprs args start hpair hname => ?_) hrun
      exact absurd hname (hnone _ (List.mem_append_left _ hpair))
  | interns htext hop =>
      refine interns_uninstantiated hop hs hunfinished (fun _ _ _ _ hpair hname => ?_) hrun
      exact absurd hname
        (hnone _ (List.mem_append_right _ (List.mem_flatMap.mpr ⟨_, htext, hpair⟩)))
  | addConstraint param constraint =>
      obtain ⟨-, rfl⟩ := Store.modifyEntry_run hrun
      refine hs.modified fun entry => ?_
      split
      · next info hshape => simp [Entry.form, hshape, Shape.bare]
      · rfl

/-- Where a store stands while declared types are resolved. -/
structure Underway (declared s : Store) : Prop where
  lawful : s.Lawful
  unfinished : s.finished = false
  names : declared.Names s

theorem Underway.step {declared : Store} (h : Underway declared s) (hallowed : op.Allowed s)
    (hop : op ≠ .finish) (hrun : op.run.run s = .ok ((), s')) : Underway declared s' :=
  ⟨h.lawful.step hallowed hrun, (Store.finished_of_run h.lawful hop hrun).trans h.unfinished,
    h.names.trans (h.lawful.names hallowed hrun)⟩

end Resolution

/-- A declared definition. -/
structure DeclaresGeneric (declared : Store) (definition : Handle) (entry : Entry)
    (params : List Handle) : Prop where
  found : declared.types[definition]? = some entry
  shape : entry.shape = .definition params

namespace DeclaresGeneric

variable {declared : Store} {entry : Entry} {params : List Handle}

theorem defines (h : DeclaresGeneric declared definition entry params) (hs : Underway declared s) :
    s.Defines definition params := by
  obtain ⟨entry', hentry', -, hform⟩ := hs.names definition entry h.found
  refine ⟨entry'.form, Store.form_of_entry hentry', ?_⟩
  rw [hform, Entry.form_shape_eq_definition, h.shape]

/-- The name that finds the definition is its own. -/
theorem name_of_lookup (h : DeclaresGeneric declared definition entry params)
    (hs : Underway declared s) {name : String} (hname : s.lookup? name = some definition) :
    name = entry.name := by
  obtain ⟨entry', hentry', hname', -⟩ := hs.names definition entry h.found
  obtain ⟨found, hfound, rfl, -⟩ := Store.lookup?_entry hname
  obtain rfl := Option.some.inj (hfound.symm.trans hentry')
  exact hname'

/-- The definition is no type parameter, so no name of a declaration's scope stands for it. -/
theorem not_in_ownScope (h : DeclaresGeneric declared definition entry params)
    (hs : Underway declared s) (decl : TypeDecl) {type : Handle} {own : List Handle}
    (hshape : ∀ entry d args, s.types[type]? = some entry → entry.shape ≠ .instantiation d args)
    (hown : s.arguments type = .ok own) (name : String) :
    (ownScope decl own).lookup name ≠ some definition := by
  intro hlookup
  have hmem := (List.of_mem_zip (mem_of_lookup hlookup)).2
  rcases Nat.lt_or_ge type s.size with hlt | hge
  · obtain ⟨typeEntry, htypeEntry⟩ := Store.entry_of_lt hlt
    have hform := Store.form_of_entry htypeEntry
    have hargs : typeEntry.arguments = own := by
      rw [← Entry.form_arguments]
      exact Except.ok.inj ((Store.arguments_of_form hform).symm.trans hown)
    rw [← hargs, Entry.arguments] at hmem
    split at hmem
    · next ps hps =>
        obtain ⟨_, form, _, hparam, hparam', -⟩ := hs.lawful.wellFormed.coherent.paramAt_of_mem
          ⟨_, hform, Entry.form_shape_eq_definition.mpr hps⟩ hmem
        obtain ⟨form', hdefines, hdefines'⟩ := h.defines hs
        obtain rfl := Option.some.inj (hparam.symm.trans hdefines)
        cases hparam'.symm.trans hdefines'
    · next d args hinst => exact hshape typeEntry d args htypeEntry hinst
    · cases hmem
  · rw [Store.arguments, Store.entry, Array.getElem?_eq_none hge] at hown
    cases hown

end DeclaresGeneric

section Declarations

variable {declared : Store} {decl : TypeDecl} {type : Handle} {own params : List Handle}
  {entry : Entry}

/-- Nothing is interned while types are only declared. -/
def OnlyDeclared (catalog : Catalog) (s : Store) : Prop :=
  ∀ (type : Handle) entry, s.types[type]? = some entry → entry.isParameter = true ∨
    entry.shape = .named ∨ ∃ decl ∈ catalog.types, DeclaredEntry decl entry

theorem declares_onlyDeclared {catalog : Catalog}
    (h : Performs (Declaring catalog) (.ofRoot catalog.roles.root) s) : OnlyDeclared catalog s := by
  refine h.keeps (fun type entry hentry => ?_) fun {t t' op} ht _ hop hrun => ?_
  · obtain ⟨hlt, rfl⟩ := Array.getElem?_eq_some_iff.mp hentry
    obtain rfl : type = 0 := Nat.lt_one_iff.mp hlt
    exact Or.inr (Or.inl rfl)
  · obtain ⟨decl, hdecl, -, hdeclares⟩ := hop
    obtain ⟨new, params, rfl, hnew, hparams⟩ := hdeclares.appends hrun
    intro type entry hentry
    rw [Store.appended_getElem?] at hentry
    split at hentry
    · exact ht type entry hentry
    · rcases List.mem_cons.mp (List.mem_of_getElem? hentry) with rfl | hmem
      · exact Or.inr (Or.inr ⟨decl, hdecl, hnew⟩)
      · exact Or.inl (hparams entry hmem)

theorem OnlyDeclared.not_instantiation {catalog : Catalog} (h : OnlyDeclared catalog s)
    {type : Handle} {entry : Entry} (hentry : s.types[type]? = some entry) (d : Handle)
    (args : List Handle) : entry.shape ≠ .instantiation d args := by
  intro hshape
  rcases h type entry hentry with hparam | hnamed | ⟨decl, -, hdeclared⟩
  · rw [Entry.isParameter, hshape] at hparam
    cases hparam
  · cases hnamed.symm.trans hshape
  · rcases hdeclared.shape with hnamed | ⟨_, hdefinition⟩
    · cases hnamed.symm.trans hshape
    · cases hdefinition.symm.trans hshape

theorem DeclaresGeneric.source {catalog : Catalog}
    (h : DeclaresGeneric declared definition entry params)
    (hdeclared : OnlyDeclared catalog declared) :
    ∃ decl ∈ catalog.types, DeclaredEntry decl entry := by
  rcases hdeclared definition entry h.found with hparam | hnamed | hsource
  · rw [Entry.isParameter, h.shape] at hparam
    cases hparam
  · cases hnamed.symm.trans h.shape
  · exact hsource

/-- A declared type stays what it was declared as. -/
theorem Underway.not_instantiation {catalog : Catalog} (hs : Underway declared s)
    (hdeclared : OnlyDeclared catalog declared) (hlt : type < declared.size) (entry : Entry)
    (d : Handle) (args : List Handle) (hentry : s.types[type]? = some entry) :
    entry.shape ≠ .instantiation d args := by
  obtain ⟨before, hbefore⟩ := Store.entry_of_lt hlt
  obtain ⟨found, hfound, -, hform⟩ := hs.names type before hbefore
  obtain rfl := Option.some.inj (hfound.symm.trans hentry)
  exact fun hshape => hdeclared.not_instantiation hbefore d args
    (Store.instantiation_of_form hform hshape)

/-- Resolving a type that is not the definition, or does not change its flags. -/
theorem resolve_carries {catalog : Catalog} (hdeclared : OnlyDeclared catalog declared)
    (hs : Underway declared s) (hlt : type < declared.size) {scope : Scope}
    (hperforms : Performs (Resolves decl type scope s) s s')
    (hcarries : s.Carries definition flags)
    (hsame : type = definition → flags = decl.kind.flags ∧ decl.changesFlags = false) :
    s'.Carries definition flags := by
  refine (hperforms.keeps (I := fun t => Underway declared t ∧ t.Carries definition flags)
    ⟨hs, hcarries⟩ fun {t t' op} ht hallowed hop hrun => ?_).2
  refine ⟨ht.1.step hallowed (resolves_ne_finish hop) hrun, hop.carries ht.2 ht.1.lawful hsame ?_ hrun⟩
  exact fun entry args hentry => ht.1.not_instantiation hdeclared hlt entry _ args hentry

/-- Resolving a declaration that does not apply the definition. -/
theorem resolve_uninstantiated {catalog : Catalog} (hdeclared : OnlyDeclared catalog declared)
    (hs : Underway declared s) (hlt : type < declared.size)
    (hgeneric : DeclaresGeneric declared definition entry params)
    (hown : s.arguments type = .ok own)
    (hperforms : Performs (Resolves decl type (ownScope decl own) s) s s')
    (hnone : ∀ pair ∈ decl.supertypeApplications ++ decl.constraintApplications,
      pair.1 ≠ entry.name)
    (huninstantiated : s.Uninstantiated definition) : s'.Uninstantiated definition := by
  have hscope := hgeneric.not_in_ownScope hs decl (fun e d args he =>
    hs.not_instantiation hdeclared hlt e d args he) hown
  refine (hperforms.keeps (I := fun t => Underway declared t ∧ t.Uninstantiated definition)
    ⟨hs, huninstantiated⟩ fun {t t' op} ht hallowed hop hrun => ?_).2
  refine ⟨ht.1.step hallowed (resolves_ne_finish hop) hrun,
    hop.uninstantiated ht.2 ht.1.unfinished (fun pair hpair hname => ?_) hrun⟩
  rcases hname with hname | hname
  · exact hscope pair.1 hname
  · exact hnone pair hpair (hgeneric.name_of_lookup ht.1 hname)

/-- Resolving the declaration of a definition that nothing instantiates yet: its flags change before
its constraints are read, and its supertypes apply it at most to its own parameters. -/
theorem resolve_own {catalog : Catalog} (hdeclared : OnlyDeclared catalog declared)
    (hs : Underway declared s) (hgeneric : DeclaresGeneric declared definition entry params)
    (hname : entry.name = decl.name) (hown : s.arguments definition = .ok own)
    (hperforms : Performs (Resolves decl definition (ownScope decl own) s) s s')
    (hself : ∀ pair ∈ decl.supertypeApplications, pair.1 = decl.name →
      decl.isOwnParams pair.2 = true)
    (huninstantiated : s.Uninstantiated definition) : ∃ flags, s'.Carries definition flags := by
  have hlt := Store.lt_of_entry hgeneric.found
  have hscope := hgeneric.not_in_ownScope hs decl (fun e d args he =>
    hs.not_instantiation hdeclared hlt e d args he) hown
  have hparams : own = params := by
    obtain ⟨form, hform, hshape⟩ := hgeneric.defines hs
    have hargs := (Store.arguments_of_form hform).symm.trans hown
    rw [Entry.arguments, hshape] at hargs
    exact (Except.ok.inj hargs).symm
  subst hparams
  -- Up to the flags, nothing instantiates the definition.
  have hearly : ∀ {t : Store}, Performs (Early decl definition (ownScope decl own)) s t →
      Underway declared t ∧ t.Uninstantiated definition := by
    intro t hbefore
    refine hbefore.keeps (I := fun t => Underway declared t ∧ t.Uninstantiated definition)
      ⟨hs, huninstantiated⟩ fun {t t' op} ht hallowed hop hrun => ?_
    refine ⟨ht.1.step hallowed (early_ne_finish hop) hrun,
      hop.uninstantiated ht.2 ht.1.unfinished (fun name exprs args start hpair hlookup hargs => ?_)
        hrun⟩
    intro params hdefines hlength
    obtain ⟨form, hform, hshape⟩ := hdefines
    obtain ⟨form', hform', hshape'⟩ := hgeneric.defines ht.1
    obtain rfl := Option.some.inj (hform.symm.trans hform')
    obtain rfl := Shape.definition.inj (hshape.symm.trans hshape')
    rcases hlookup with hlookup | hlookup
    · exact absurd hlookup (hscope name)
    · have hpair' := hself _ hpair ((hgeneric.name_of_lookup ht.1 hlookup).trans hname)
      exact isOwnParams_args hpair' hargs hlength
  have hcarries : ∀ {t : Store}, Underway declared t → t.Uninstantiated definition →
      ∃ flags, t.Carries definition flags := by
    intro t ht hnone
    obtain ⟨found, hfound, -⟩ := ht.names definition entry hgeneric.found
    exact ⟨found.flags, hnone.carries hfound⟩
  refine (hperforms.keeps (I := fun t => Underway declared t ∧ ∃ flags, t.Carries definition flags)
    ⟨hs, hcarries hs huninstantiated⟩ fun {t t' op} ht hallowed hop hrun => ?_).2
  have ht' := ht.1.step hallowed (resolves_ne_finish hop) hrun
  refine ⟨ht', ?_⟩
  obtain ⟨flags, hflags⟩ := ht.2
  cases hop with
  | early hbefore hop =>
      have hnow := hearly (hbefore.trans (.single hallowed hop hrun))
      exact hcarries hnow.1 hnow.2
  | interns _ hop =>
      exact ⟨flags, carries_plain hflags ht.1.lawful (plain_interns t _ hop) hrun⟩
  | addConstraint param constraint =>
      exact ⟨flags, carries_plain hflags ht.1.lawful
        (show Plain t (.addConstraint param constraint) from rfl) hrun⟩

/-- Resolving declarations in turn. The one of the definition, if it is still to come, finds the
flags of its kind, and no instantiation if it changes them. -/
theorem resolvesAll_carries {catalog : Catalog} (hdeclared : OnlyDeclared catalog declared)
    (hgeneric : DeclaresGeneric declared definition entry params) {types : List TypeDecl}
    (h : ResolvesAll types s s') (hs : Underway declared s)
    (hnames : (types.map (·.name)).Nodup)
    (hfound : ∀ decl ∈ types, (declared.lookup? decl.name).isSome)
    (hcarries : s.Carries definition flags)
    (hahead : ∀ decl ∈ types, declared.lookup? decl.name = some definition →
      flags = decl.kind.flags ∧ FlagsSettled types decl ∧
        (decl.changesFlags = true → s.Uninstantiated definition)) :
    ∃ flags, s'.Carries definition flags := by
  induction h generalizing flags with
  | nil => exact ⟨flags, hcarries⟩
  | @cons decl rest s mid s' type own htype hown hperforms hrest ih =>
      rw [List.map_cons, List.nodup_cons] at hnames
      obtain ⟨hhead, hrestFound⟩ := List.forall_mem_cons.mp hfound
      obtain ⟨type', htype'⟩ := Option.isSome_iff_exists.mp hhead
      obtain rfl : type' = type := Option.some.inj ((hs.names.lookup? htype').symm.trans htype)
      have hlt := Store.lookup?_lt htype'
      have hmid : Underway declared mid :=
        hperforms.keeps hs fun ht hallowed hop hrun =>
          ht.step hallowed (resolves_ne_finish hop) hrun
      have hentry : ∀ {name : String}, declared.lookup? name = some definition →
          name = entry.name := fun hname => hgeneric.name_of_lookup hs (hs.names.lookup? hname)
      by_cases heq : type' = definition
      · -- The definition itself is resolved, and no later declaration has its name.
        subst heq
        have hlater : ∀ other ∈ rest, declared.lookup? other.name ≠ some type' := by
          intro other hother hlookup
          refine hnames.1 (List.mem_map.mpr ⟨other, hother, ?_⟩)
          exact (hentry hlookup).trans (hentry htype').symm
        obtain ⟨hflags, hsettled, hnone⟩ := hahead decl List.mem_cons_self htype'
        have hnext : ∃ flags, mid.Carries type' flags := by
          cases hchanges : decl.changesFlags with
          | false =>
              exact ⟨flags, resolve_carries hdeclared hs hlt hperforms hcarries
                fun _ => ⟨hflags, hchanges⟩⟩
          | true =>
              exact resolve_own hdeclared hs hgeneric (hentry htype').symm hown hperforms
                (hsettled hchanges).2 (hnone hchanges)
        obtain ⟨flags', hflags'⟩ := hnext
        exact ih hmid hnames.2 hrestFound hflags' fun other hother hlookup =>
          absurd hlookup (hlater other hother)
      · refine ih hmid hnames.2 hrestFound
          (resolve_carries hdeclared hs hlt hperforms hcarries fun h => absurd h heq)
          fun other hother hlookup => ?_
        obtain ⟨hflags, hsettled, hnone⟩ :=
          hahead other (List.mem_cons_of_mem decl hother) hlookup
        have hne : decl.name != other.name := by
          rw [bne_iff_ne]
          exact fun hname => hnames.1 (List.mem_map.mpr ⟨other, hother, hname.symm⟩)
        rw [FlagsSettled, List.takeWhile_cons, if_pos hne] at hsettled
        refine ⟨hflags, fun hchanges => ⟨fun earlier hearlier => ?_, (hsettled hchanges).2⟩,
          fun hchanges => ?_⟩
        · exact (hsettled hchanges).1 earlier (List.mem_cons_of_mem decl hearlier)
        · refine resolve_uninstantiated hdeclared hs hlt hgeneric hown hperforms
            (fun pair hpair => ?_) (hnone hchanges)
          rw [← hentry hlookup]
          exact (hsettled hchanges).1 decl List.mem_cons_self pair hpair

end Declarations

/-- Plain operations keep what they keep one by one, and the store lawful. -/
theorem keeps_plain {I : Store → Prop} (h : Performs Plain s s') (hs : I s) (hlawful : s.Lawful)
    (hstep : ∀ {t t' : Store} {op : Operation}, I t → t.Lawful → Plain t op →
      op.run.run t = .ok ((), t') → I t') : I s' :=
  (h.keeps (I := fun t => t.Lawful ∧ I t) ⟨hlawful, hs⟩ fun ht hallowed hop hrun =>
    ⟨ht.1.step hallowed hrun, hstep ht.2 ht.1 hop hrun⟩).2

/-- What the operations of each declaration keep is kept by all. -/
theorem ResolvesAll.keeps {I : Store → Prop} {types : List TypeDecl} (h : ResolvesAll types s s')
    (hs : I s) (hlawful : s.Lawful)
    (hstep : ∀ {decl : TypeDecl} {type : Handle} {scope : Scope} {start t t' : Store}
      {op : Operation}, I t → t.Lawful → Resolves decl type scope start t op →
        op.run.run t = .ok ((), t') → I t') : I s' := by
  induction h with
  | nil => exact hs
  | cons _ _ hperforms _ ih =>
      have hmid := hperforms.keeps (I := fun t => t.Lawful ∧ I t) ⟨hlawful, hs⟩
        fun ht hallowed hop hrun => ⟨ht.1.step hallowed hrun, hstep ht.2 ht.1 hop hrun⟩
      exact ih hmid.2 hmid.1

namespace Stages

variable {catalog : Catalog} {declared resolved ready closed : Store}

/-- What plain operations keep and completing the declarations keeps holds in the end. -/
theorem keeps {I : Store → Prop} (h : Stages catalog declared resolved ready closed s)
    (hresolved : I resolved) (hrobust : Store.Robust I)
    (hplain : ∀ {t t' : Store} {op : Operation}, I t → t.Lawful → Plain t op →
      op.run.run t = .ok ((), t') → I t') : I s := by
  have hready : I ready := keeps_plain h.assigns hresolved h.lawful_resolved hplain
  have hclosed := hrobust.finish hready h.lawful_ready h.unfinished _ _ h.completes
  exact keeps_plain h.enlarges hclosed (h.finishes.lawful h.lawful_ready) hplain

theorem definitionsBelow (h : Stages catalog declared resolved ready closed s) :
    s.DefinitionsBelow declared.size := by
  refine h.keeps ?_ (Store.robust_definitionsBelow _) definitionsBelow_plain
  have hstart : declared.DefinitionsBelow declared.size := fun type entry params hentry _ =>
    Store.lt_of_entry hentry
  exact h.resolves.keeps hstart h.lawful_declared fun ht hlawful hop hrun =>
    hop.definitionsBelow ht hlawful hrun

/-- In the store of a catalog a definition and its instantiations have the same flags, if the
declaration of the definition changes no flags or no text read before applies it. -/
theorem carries (h : Stages catalog declared resolved ready closed s) {entry : Entry}
    {params : List Handle} (hgeneric : DeclaresGeneric declared definition entry params)
    (hsettled : ∀ decl ∈ catalog.types, s.lookup? decl.name = some definition →
      FlagsSettled catalog.types decl) :
    ∃ flags, s.Carries definition flags := by
  have hdeclared := declares_onlyDeclared h.declares
  have hunderway : Underway declared declared :=
    ⟨h.lawful_declared, h.unfinished_declared, .refl declared⟩
  have hnone : declared.Uninstantiated definition := fun type entry args hentry =>
    hdeclared.not_instantiation hentry definition args
  have hahead : ∀ decl ∈ catalog.types, declared.lookup? decl.name = some definition →
      entry.flags = decl.kind.flags ∧ FlagsSettled catalog.types decl ∧
        (decl.changesFlags = true → declared.Uninstantiated definition) := by
    intro decl hdecl hlookup
    obtain ⟨other, hother, hentry⟩ := hgeneric.source hdeclared
    have hname := (hgeneric.name_of_lookup hunderway hlookup).trans hentry.name
    obtain rfl := List.inj_on_of_nodup_map h.names hdecl hother hname
    have hnames := h.completing.names h.lawful_declared
    exact ⟨hentry.flags, hsettled decl hdecl (hnames.lookup? hlookup), fun _ => hnone⟩
  obtain ⟨flags, hresolved⟩ := resolvesAll_carries hdeclared hgeneric h.resolves hunderway h.names
    h.found (hnone.carries hgeneric.found) hahead
  exact ⟨flags, h.keeps hresolved (Store.robust_carries definition flags) carries_plain⟩

end Stages

/-- A type that has a definition is the definition or an instantiation of it. -/
theorem defines_of_definition? (hs : s.Lawful) {type : Handle}
    (h : s.definition? type = .ok (some definition)) :
    ∃ entry, s.types[type]? = some entry ∧ (∃ params, s.Defines definition params) ∧
      (type = definition ∨ ∃ args, entry.shape = .instantiation definition args) := by
  obtain ⟨entry, hentry, hdefinition⟩ := Query.bind_eq_ok.mp h
  have hentry := Store.entry_eq_ok.mp hentry
  have hform := Store.form_of_entry hentry
  refine ⟨entry, hentry, ?_⟩
  have hdefinition : entry.definition? type = some definition := Except.ok.inj hdefinition
  rw [Entry.definition?] at hdefinition
  split at hdefinition
  · next params hshape =>
      cases hdefinition
      exact ⟨⟨params, entry.form, hform, Entry.form_shape_eq_definition.mpr hshape⟩, Or.inl rfl⟩
  · next d args hshape =>
      cases hdefinition
      obtain ⟨⟨params, hdefines, -⟩, -⟩ := hs.wellFormed.coherent.instantiation hform
        (Entry.form_shape_eq_instantiation.mpr hshape)
      exact ⟨⟨params, hdefines⟩, Or.inr ⟨args, hshape⟩⟩
  · cases hdefinition

section Constraints

variable {type other : Handle}

/-- The queries behind constraints that ask for no supertype see flags and definitions only. -/
theorem satisfies_alike {entry entry' : Entry} {args args' : List Handle}
    (hentry : s.types[type]? = some entry) (hshape : entry.shape = .instantiation definition args)
    (htype : type ≠ definition) (hentry' : s.types[other]? = some entry')
    (hshape' : entry'.shape = .instantiation definition args') (hother : other ≠ definition)
    (hflags : entry.flags = entry'.flags) (sub : Substitution) {constraint : Constraint}
    (hconstraint : ∀ target, constraint ≠ .base target) :
    ConstraintCheck.satisfies s sub type constraint =
      ConstraintCheck.satisfies s sub other constraint := by
  have hflags' : s.flags type = s.flags other := by
    rw [Store.flags, Store.flags, Store.entry_eq_ok.mpr hentry, Store.entry_eq_ok.mpr hentry']
    exact congrArg Except.ok hflags
  have hreference : s.isReferenceType type = s.isReferenceType other := by
    rw [Store.isReferenceType, Store.isReferenceType, Store.entry_eq_ok.mpr hentry,
      Store.entry_eq_ok.mpr hentry', Query.ok_bind, Query.ok_bind, hflags, Entry.isParameter, hshape,
      Entry.isParameter, hshape']
  have hdefinition : s.definition? type = .ok (some definition) := by
    rw [Store.definition?, Store.entry_eq_ok.mpr hentry, Query.ok_bind, Entry.definition?, hshape]
    rfl
  have hdefinition' : s.definition? other = .ok (some definition) := by
    rw [Store.definition?, Store.entry_eq_ok.mpr hentry', Query.ok_bind, Entry.definition?, hshape']
    rfl
  have hwrapper : s.isOptionalWrapper type = s.isOptionalWrapper other := by
    rw [Store.isOptionalWrapper, Store.isOptionalWrapper, hdefinition, hdefinition']
    cases s.optionalWrapper with
    | none => rfl
    | some wrapper =>
        rcases eq_or_ne wrapper definition with rfl | hne
        · simp [bne_iff_ne.mpr htype.symm, bne_iff_ne.mpr hother.symm]
        · simp [beq_false_of_ne hne]
  cases constraint with
  | valueType =>
      simp only [ConstraintCheck.satisfies, Store.isValueType, hflags', hwrapper]
  | referenceType => rw [ConstraintCheck.satisfies, ConstraintCheck.satisfies, hreference]
  | defaultConstructible =>
      simp only [ConstraintCheck.satisfies, ConstraintCheck.isDefaultConstructible, hflags']
  | base target => exact absurd rfl (hconstraint target)

end Constraints

/-- Every instantiation of a definition has exactly its flags, in the store of a catalog and after
any requests, so constraints that ask for no supertype treat all instantiations alike. The
declaration of the definition must change no flags, or no text that is read before may apply it:
neither one of an earlier declaration, nor its own supertypes but to its own parameters. -/
theorem build_flags {catalog : Catalog} {requests : List Request}
    {outcomes : List (Except CommandError Report)} (hbuild : catalog.build = .ok (.ok s))
    (hsettled : ∀ decl ∈ catalog.types, s.lookup? decl.name = some definition →
      FlagsSettled catalog.types decl)
    (hrun : (Request.answerAll catalog.options requests).run s = .ok (outcomes, s')) :
    (∀ type, s'.definition? type = .ok (some definition) →
      s'.flags type = s'.flags definition) ∧
    ∀ type other, s'.definition? type = .ok (some definition) → type ≠ definition →
      s'.definition? other = .ok (some definition) → other ≠ definition →
      ∀ sub constraint, (∀ target, constraint ≠ .base target) →
        ConstraintCheck.satisfies s' sub type constraint =
          ConstraintCheck.satisfies s' sub other constraint := by
  obtain ⟨declared, resolved, ready, closed, hstages⟩ := build_stages hbuild
  have hlawful : s.Lawful := (build_reachable hbuild).lawful
  have hlater := (Request.answerAll_performs hlawful hrun).mono Request.plain_interning
  have hlawful' := hlater.lawful hlawful
  have hbelow := keeps_plain hlater hstages.definitionsBelow hlawful definitionsBelow_plain
  have hnames := (hstages.completing.names hstages.lawful_declared).trans (hlater.names hlawful)
  have hcarries : ∀ {params}, s'.Defines definition params →
      ∃ flags, s'.Carries definition flags := by
    intro params hdefines
    obtain ⟨form, hform, hshape⟩ := hdefines
    obtain ⟨entry', hentry', rfl⟩ := Store.form_eq_some.mp hform
    obtain ⟨entry, hentry⟩ := Store.entry_of_lt
      (hbelow definition entry' params hentry' (Entry.form_shape_eq_definition.mp hshape))
    obtain ⟨found, hfound, -, hsame⟩ := hnames definition entry hentry
    obtain rfl := Option.some.inj (hfound.symm.trans hentry')
    have hgeneric : DeclaresGeneric declared definition entry params :=
      ⟨hentry, Entry.form_shape_eq_definition.mp (hsame ▸ hshape)⟩
    obtain ⟨flags, hflags⟩ := hstages.carries hgeneric hsettled
    exact ⟨flags, keeps_plain hlater hflags hlawful carries_plain⟩
  refine ⟨fun type htype => ?_, fun type other htype hne hother hne' sub constraint => ?_⟩
  · obtain ⟨entry, hentry, ⟨params, hdefines⟩, hrole⟩ := defines_of_definition? hlawful' htype
    obtain ⟨flags, hflags⟩ := hcarries hdefines
    obtain ⟨declared, hdeclared, rfl⟩ := hflags.declared
    rcases hrole with rfl | ⟨args, hshape⟩
    · rfl
    · rw [Store.flags, Store.flags, Store.entry_eq_ok.mpr hentry, Store.entry_eq_ok.mpr hdeclared]
      exact congrArg Except.ok (hflags.copied type entry args hentry hshape)
  · obtain ⟨entry, hentry, ⟨params, hdefines⟩, hrole⟩ := defines_of_definition? hlawful' htype
    obtain ⟨entry', hentry', -, hrole'⟩ := defines_of_definition? hlawful' hother
    obtain ⟨args, hshape⟩ := hrole.resolve_left hne
    obtain ⟨args', hshape'⟩ := hrole'.resolve_left hne'
    obtain ⟨flags, hflags⟩ := hcarries hdefines
    refine satisfies_alike hentry hshape hne hentry' hshape' hne' ?_ sub
    exact (hflags.copied type entry args hentry hshape).trans
      (hflags.copied other entry' args' hentry' hshape').symm

/-- An abstract generic class, a class that extends an instantiation of it, and a callable whose
argument must be made without arguments. -/
def abstractFirst : Catalog where
  types := [
    { name := "D", kind := .classType, params := [{ name := "T" }], isAbstract := true },
    { name := "string", kind := .classType },
    { name := "A", kind := .classType, base := some "D<string>" }]
  callables := [{ name := "Make", typeParams := [{ name := "T", constraints := ["new()"] }] }]

/-- Requests that intern another instantiation of the abstract class. -/
def abstractRequests : List Request := [.check "Make" ["D<A>"], .check "Make" ["D<string>"]]

/-- The abstract class `1`, which is declared first, and its instantiations `5` and `7`, one of which
a request has interned, have the same flags, and none can be made without arguments. -/
theorem build_flags_abstractFirst :
    (storeAfter abstractFirst abstractRequests).flags 7 =
        (storeAfter abstractFirst abstractRequests).flags 1 ∧
      ConstraintCheck.satisfies (storeAfter abstractFirst abstractRequests) .empty 5
          .defaultConstructible =
        ConstraintCheck.satisfies (storeAfter abstractFirst abstractRequests) .empty 7
          .defaultConstructible := by
  have hbuild : abstractFirst.build = .ok (.ok (builtStore abstractFirst)) := by decide +kernel
  obtain ⟨outcomes, hrun⟩ : ∃ outcomes, (Request.answerAll abstractFirst.options
      abstractRequests).run (builtStore abstractFirst) =
        .ok (outcomes, storeAfter abstractFirst abstractRequests) :=
    ⟨[.ok { lines := ["Make<D<A>>"], status := .violated },
      .ok { lines := ["Make<D<string>>"], status := .violated }], by decide +kernel⟩
  have hsettled : ∀ decl ∈ abstractFirst.types, FlagsSettled abstractFirst.types decl := by
    decide +kernel
  obtain ⟨hflags, halike⟩ := build_flags hbuild (fun decl hdecl _ => hsettled decl hdecl) hrun
  exact ⟨hflags 7 (by decide +kernel), halike 5 7 (by decide +kernel) (by decide)
    (by decide +kernel) (by decide) .empty .defaultConstructible (by simp)⟩

-- If the class that extends `D<string>` is declared first, `D<string>` misses that `D` is abstract.
example : ∃ s, (Request.answerAll {} abstractRequests).run
    (builtStore { abstractFirst with types := abstractFirst.types.reverse }) =
      .ok ([.ok { lines := ["Make<D<A>>"], status := .violated },
        .ok { lines := ["Make<D<string>>"], status := .satisfied }], s) :=
  ⟨storeAfter { abstractFirst with types := abstractFirst.types.reverse } abstractRequests,
    by decide +kernel⟩

end Catalog

end NominalGenerics
