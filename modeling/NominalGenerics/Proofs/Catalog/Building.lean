import NominalGenerics.Catalog.Build
import NominalGenerics.Command
import NominalGenerics.Proofs.Catalog.Operations

/-!
# Building a catalog, step by step

The store of a catalog comes about by operations: the types are declared, each declaration is
resolved in turn, the roles are assigned, the declarations are completed and the callables are
declared. So it is reachable. Each declaration performs the operations that its texts and flags say.
Commands perform operations that intern types and nothing else.
-/

namespace NominalGenerics

namespace Catalog

variable {s : Store} {P : Store → Operation → Prop}

theorem typeOf_steps {scope : Scope} (hs : s.Lawful) (hscope : InScope s scope) (text : String) :
    Steps (TypeExpr.Interns scope (readApplications text.toList)) (typeOf scope text) s
      fun type s' => type < s'.size :=
  (parseType_steps hs hscope text).adapt _

theorem lookup_steps (name : String) :
    Steps P (lookup name) s fun type s' => s' = s ∧ s.lookup? name = some type := by
  refine .get_bind ?_
  split
  · next type htype => exact .pure ⟨rfl, htype⟩
  · exact .throw _

theorem singleParameterDefinition_steps (name : String) :
    Steps P (singleParameterDefinition name) s fun type s' =>
      s' = s ∧ s.lookup? name = some type := by
  refine (lookup_steps name).bind ?_
  rintro type _ - ⟨rfl, htype⟩
  refine .get_bind (.query_bind fun _ _ => .query_bind fun _ _ => ?_)
  split
  · exact .pure ⟨rfl, htype⟩
  · exact .throw _

/-- The scope in which the texts of a declared type are read. -/
def ownScope (decl : TypeDecl) (params : List Handle) : Scope :=
  (decl.params.map (·.name)).zip params

/-- The texts of the supertypes of a declared type. -/
def TypeDecl.supertypeTexts (decl : TypeDecl) : List String := decl.base.toList ++ decl.interfaces

/-- The texts of the constraints of a declared type. -/
def TypeDecl.constraintTexts (decl : TypeDecl) : List String :=
  decl.params.flatMap (·.constraints)

/-- What resolving a declared type does before its constraints are read: its supertypes are interned
and recorded, and its flags are changed. -/
inductive Early (decl : TypeDecl) (type : Handle) (scope : Scope) (s : Store) : Operation → Prop
  | interns {text : String} {op : Operation} (htext : text ∈ decl.supertypeTexts)
      (hop : TypeExpr.Interns scope (readApplications text.toList) s op) :
      Early decl type scope s op
  | setBase (base : Handle) : Early decl type scope s (.setBase type base)
  | addInterface (interface : Handle) : Early decl type scope s (.addInterface type interface)
  | abstract (h : decl.isAbstract = true) :
      Early decl type scope s (.addFlags type { abstract := true })
  | constructor (h : decl.defaultConstructor = some true) :
      Early decl type scope s (.addFlags type { defaultConstructor := true })
  | noConstructor (h : decl.defaultConstructor = some false) :
      Early decl type scope s (.removeFlags type { defaultConstructor := true })

/-- What resolving a declared type does, from the store `start` on. -/
inductive Resolves (decl : TypeDecl) (type : Handle) (scope : Scope) (start s : Store) :
    Operation → Prop
  | early {op : Operation} (hbefore : Performs (Early decl type scope) start s)
      (hop : Early decl type scope s op) : Resolves decl type scope start s op
  | interns {text : String} {op : Operation} (htext : text ∈ decl.constraintTexts)
      (hop : TypeExpr.Interns scope (readApplications (Text.trimBlank text.toList)) s op) :
      Resolves decl type scope start s op
  | addConstraint (param : Handle) (constraint : Constraint) :
      Resolves decl type scope start s (.addConstraint param constraint)

/-- A lifted operation is performed if it is allowed and of the kind. -/
theorem lift_steps {ε : Type} (op : Operation) {x : StoreM Unit} (hop : op.run = x)
    (hhandles : ∀ type ∈ op.handles, type < s.size)
    (htime : op.isDeclaration = true → s.finished = false) (hP : P s op) :
    Steps P (liftM x : ExceptT ε StoreM Unit) s fun _ s' => op.run.run s = .ok ((), s') :=
  .lift fun _ s' hrun => by
    subst hop
    exact ⟨.single ⟨hhandles, htime⟩ hP hrun, hrun⟩

theorem inScope_zip (names : List String) {params : List Handle}
    (h : ∀ param ∈ params, param < s.size) : InScope s (names.zip params) := by
  intro name type hlookup
  exact h type (List.of_mem_zip (mem_of_lookup hlookup)).2

theorem inScope_ownScope {decl : TypeDecl} {params : List Handle}
    (h : ∀ param ∈ params, param < s.size) : InScope s (ownScope decl params) :=
  inScope_zip _ h

theorem inScope_append {inner outer : Scope} (hinner : InScope s inner) (houter : InScope s outer) :
    InScope s (inner ++ outer) := by
  intro name type hlookup
  rw [List.lookup_append] at hlookup
  rcases Option.or_eq_some_iff.mp hlookup with h | ⟨-, h⟩
  · exact hinner name type h
  · exact houter name type h

theorem parseConstraint_steps {scope : Scope} (hs : s.Lawful) (hscope : InScope s scope)
    (text : String) :
    Steps (TypeExpr.Interns scope (readApplications (Text.trimBlank text.toList)))
      (parseConstraint scope text) s fun constraint s' =>
        ∀ target, constraint = .base target → target < s'.size := by
  unfold parseConstraint
  dsimp only
  split
  · exact .pure (by rintro _ ⟨⟩)
  · split
    · exact .pure (by rintro _ ⟨⟩)
    · split
      · exact .pure (by rintro _ ⟨⟩)
      · have hparse := parseType_steps hs hscope (String.ofList (Text.trimBlank text.toList))
        rw [String.toList_ofList] at hparse
        refine hparse.bind fun type mid _ hlt => .pure ?_
        rintro _ ⟨⟩
        exact hlt

/-- Adding declared constraints reads their texts and adds what they say. -/
theorem addConstraints_steps {scope : Scope} (hs : s.Lawful) (hscope : InScope s scope)
    {decls : List TypeParamDecl} {params : List Handle} (hparams : ∀ p ∈ params, p < s.size)
    (hinterns : ∀ decl ∈ decls, ∀ text ∈ decl.constraints, ∀ t op,
      TypeExpr.Interns scope (readApplications (Text.trimBlank text.toList)) t op → P t op)
    (hadd : ∀ t param constraint, P t (.addConstraint param constraint)) :
    Steps P (addConstraints scope decls params) s fun _ s' => s'.Lawful ∧ s.Names s' := by
  refine .forM ⟨hs, .refl s⟩ ?_
  rintro ⟨decl, param⟩ hmem t ht
  obtain ⟨hdecl, hparam⟩ := List.of_mem_zip hmem
  refine .forM ht ?_
  rintro text htext t ⟨ht, hnames⟩
  refine (((parseConstraint_steps ht (hscope.mono hnames) text).mono
    (hinterns decl hdecl text htext)).adapt _).bind fun constraint mid hperforms hlt => ?_
  have hmid := hnames.trans (hperforms.names ht)
  have hlawful := hperforms.lawful ht
  refine (lift_steps (.addConstraint param constraint) rfl ?_ (by rintro ⟨⟩)
    (hadd mid param constraint)).imp fun _ last hlast hrun =>
      ⟨hlast.lawful hlawful, hmid.trans (hlast.names hlawful)⟩
  have hparam' : param < mid.size := hmid.lt (hparams param hparam)
  intro handle hhandle
  cases constraint with
  | base target =>
      rcases List.mem_cons.mp hhandle with rfl | hhandle
      · exact hparam'
      · rw [List.mem_singleton.mp hhandle]
        exact hlt target rfl
  | valueType => rw [List.mem_singleton.mp hhandle]; exact hparam'
  | referenceType => rw [List.mem_singleton.mp hhandle]; exact hparam'
  | defaultConstructible => rw [List.mem_singleton.mp hhandle]; exact hparam'

section Resolution

variable {decl : TypeDecl} {type : Handle} {scope : Scope} {start : Store}

theorem early_ne_finish {op : Operation} (h : Early decl type scope s op) : op ≠ .finish := by
  rintro rfl
  cases h with
  | interns _ hop => cases hop

theorem resolves_ne_finish {op : Operation} (h : Resolves decl type scope start s op) :
    op ≠ .finish := by
  rintro rfl
  cases h with
  | early _ hop => exact early_ne_finish hop rfl
  | interns _ hop => cases hop

/-- Where a store stands while the supertypes and flags of a declared type are resolved. -/
structure Midway (decl : TypeDecl) (type : Handle) (scope : Scope) (start s : Store) : Prop where
  lawful : s.Lawful
  unfinished : s.finished = false
  names : start.Names s
  early : Performs (Early decl type scope) start s

theorem Midway.step (h : Midway decl type scope start s) {s' : Store}
    (hperforms : Performs (Early decl type scope) s s') : Midway decl type scope start s' :=
  ⟨hperforms.lawful h.lawful,
    (hperforms.finished h.lawful fun _ _ => early_ne_finish).trans h.unfinished,
    h.names.trans (hperforms.names h.lawful), h.early.trans hperforms⟩

/-- Steps before the constraints are steps of resolving the type. -/
theorem Midway.steps (h : Midway decl type scope start s) {α : Type} {x : BuildM α}
    {post : α → Store → Prop} (hx : Steps (Early decl type scope) x s post) :
    Steps (Resolves decl type scope start) x s fun a s' =>
      Midway decl type scope start s' ∧ post a s' := by
  intro outcome s' hrun
  obtain ⟨hperforms, hpost⟩ := hx outcome s' hrun
  exact ⟨(h.early.history hperforms).mono fun _ _ hop => .early hop.1 hop.2,
    fun a ha => ⟨h.step hperforms, hpost a ha⟩⟩

/-- Reading a supertype. -/
theorem Midway.read (h : Midway decl type scope start s) (hscope : InScope start scope)
    {text : String} (htext : text ∈ decl.supertypeTexts) :
    Steps (Resolves decl type scope start) (typeOf scope text) s fun super s' =>
      Midway decl type scope start s' ∧ super < s'.size :=
  h.steps ((typeOf_steps h.lawful (hscope.mono h.names) text).mono
    fun t op hop => (.interns htext hop : Early decl type scope t op))

/-- Recording a supertype or changing a flag. -/
theorem Midway.record (h : Midway decl type scope start s) {op : Operation} {x : StoreM Unit}
    (hx : op.run = x) (hhandles : ∀ handle ∈ op.handles, handle < s.size)
    (hop : Early decl type scope s op) :
    Steps (Resolves decl type scope start) (liftM x : BuildM Unit) s
      fun _ s' => Midway decl type scope start s' :=
  (h.steps (lift_steps op hx hhandles (fun _ => h.unfinished) hop)).imp fun _ _ _ h => h.1

end Resolution

theorem arguments_lt (hs : s.Lawful) {type : Handle} {params : List Handle}
    (hparams : s.arguments type = .ok params) : ∀ param ∈ params, param < s.size := by
  intro param hparam
  rcases Nat.lt_or_ge type s.size with hlt | hge
  · obtain ⟨form, hform⟩ := Store.form_isSome hlt
    have hread := (Store.arguments_of_form hform).symm.trans hparams
    obtain ⟨part, hpart, -⟩ := hs.wellFormed.coherent.argument hform (Except.ok.inj hread ▸ hparam)
    exact Store.form_lt hpart
  · have hnone : s.types[type]? = none := Array.getElem?_eq_none hge
    rw [Store.arguments, Store.entry, hnone] at hparams
    cases hparams

/-- Resolving a declared type performs the operations that its declaration says. -/
theorem resolveType_steps (decl : TypeDecl) (hs : s.Lawful) (hunfinished : s.finished = false) :
    Steps (fun _ _ => True) (resolveType decl) s fun _ s' => (s'.Lawful ∧ s'.finished = false) ∧
      ∃ type params, s.lookup? decl.name = some type ∧ s.arguments type = .ok params ∧
        Performs (Resolves decl type (ownScope decl params) s) s s' := by
  refine (lookup_steps decl.name).bind ?_
  rintro type _ - ⟨rfl, htype⟩
  rename_i s
  refine .get_bind (.query_bind fun params hparams => ?_)
  refine Steps.mono (Steps.imp ?_ fun _ s' hperforms h =>
    ⟨h, type, params, htype, hparams, hperforms⟩) fun _ _ _ => trivial
  have hlt := Store.lookup?_lt htype
  have harguments := arguments_lt hs hparams
  have hscope : InScope s (ownScope decl params) := inScope_ownScope harguments
  have hstart : Midway decl type (ownScope decl params) s s := ⟨hs, hunfinished, .refl s, .refl s⟩
  -- The last step: constraints are read once supertypes and flags are recorded.
  have hconstraints : ∀ t, Midway decl type (ownScope decl params) s t →
      Steps (Resolves decl type (ownScope decl params) s)
        (addConstraints (ownScope decl params) decl.params params) t
        fun _ s' => s'.Lawful ∧ s'.finished = false := by
    intro t ht
    refine (addConstraints_steps ht.lawful (hscope.mono ht.names)
      (fun p hp => ht.names.lt (harguments p hp)) (fun param hparam text htext t op hop => ?_)
      fun t param constraint => .addConstraint param constraint).imp fun _ s' hperforms hs' => ?_
    · exact .interns (List.mem_flatMap.mpr ⟨param, hparam, htext⟩) hop
    · exact ⟨hs'.1, (hperforms.finished ht.lawful fun _ _ => resolves_ne_finish).trans ht.unfinished⟩
  have hflag : ∀ {t : Store} {op : Operation}, Midway decl type (ownScope decl params) s t →
      op.handles = [type] → ∀ handle ∈ op.handles, handle < t.size := by
    intro t op ht hhandles handle hhandle
    rw [hhandles, List.mem_singleton] at hhandle
    exact hhandle ▸ ht.names.lt hlt
  have hsuper : ∀ {t : Store} {op : Operation} {super : Handle},
      Midway decl type (ownScope decl params) s t → super < t.size →
      op.handles = [type, super] → ∀ handle ∈ op.handles, handle < t.size := by
    intro t op super ht hsuper hhandles handle hhandle
    rw [hhandles] at hhandle
    rcases List.mem_cons.mp hhandle with rfl | hhandle
    · exact ht.names.lt hlt
    · exact List.mem_singleton.mp hhandle ▸ hsuper
  dsimp only
  split
  case' h_1 base hbase =>
    refine (hstart.read hscope (by simp [TypeDecl.supertypeTexts, hbase])).bind fun super mid _ hmid => ?_
    refine (hmid.1.record rfl (hsuper hmid.1 hmid.2 rfl) (.setBase super)).bind fun _ t _ ht => ?_
  case' h_2 => have ht := hstart
  all_goals
    refine (Steps.forM ht fun interface hinterface t ht => ?_).bind fun _ t _ ht => ?_
    · refine (ht.read hscope (List.mem_append_right _ hinterface)).bind fun super mid _ hmid => ?_
      exact hmid.1.record rfl (hsuper hmid.1 hmid.2 rfl) (.addInterface super)
    split
    case' isTrue habstract =>
      refine (ht.record rfl (hflag ht rfl) (.abstract habstract)).bind fun _ t _ ht => ?_
    all_goals
      split
      · next h =>
          exact (ht.record rfl (hflag ht rfl) (.constructor h)).bind fun _ t _ ht => hconstraints t ht
      · next h =>
          exact (ht.record rfl (hflag ht rfl) (.noConstructor h)).bind fun _ t _ ht =>
            hconstraints t ht
      · exact hconstraints _ ht

/-- The flags with which a type of a kind is declared. -/
def Kind.flags : Kind → Flags
  | .classType => TypeKind.classType.flags
  | .interfaceType => TypeKind.interfaceType.flags
  | .structType | .primitive => TypeKind.structType.flags
  | .delegateType => TypeKind.delegateType.flags
  | .enum => { TypeKind.structType.flags with enum := true }
  | .pointer => { pointer := true, valueType := true }

theorem Kind.flags_typeKind {kind : Kind} {typeKind : TypeKind}
    (h : kind.typeKind? = some typeKind) : kind.flags = typeKind.flags := by
  cases kind <;> cases h <;> rfl

/-- The operations that declare the name of a type. -/
inductive Declares (decl : TypeDecl) : Operation → Prop
  | named {kind : TypeKind} (hkind : decl.kind.typeKind? = some kind) :
      Declares decl (.declare kind decl.name)
  | generic {kind : TypeKind} (hkind : decl.kind.typeKind? = some kind)
      (params : List (String × Variance)) : Declares decl (.declareGeneric kind decl.name params)
  | primitive (hkind : decl.kind = .primitive) (kind : Primitive) :
      Declares decl (.declarePrimitive decl.name kind)
  | enum (hkind : decl.kind = .enum) (underlying : Handle) :
      Declares decl (.declareEnum decl.name underlying)
  | pointer (hkind : decl.kind = .pointer) : Declares decl (.declarePointer decl.name)

/-- The entry of a type as it is declared. -/
structure DeclaredEntry (decl : TypeDecl) (entry : Entry) : Prop where
  name : entry.name = decl.name
  flags : entry.flags = decl.kind.flags
  shape : entry.shape = .named ∨ ∃ params, entry.shape = .definition params

/-- Declaring a type appends its entry, followed by those of its type parameters. -/
theorem Declares.appends {decl : TypeDecl} {op : Operation} (h : Declares decl op) {s' : Store}
    (hrun : op.run.run s = .ok ((), s')) :
    ∃ entry params, s' = s.appended (entry :: params) s.callables ∧ DeclaredEntry decl entry ∧
      ∀ param ∈ params, param.isParameter = true := by
  have hpush : ∀ {entry : Entry}, (discard (Store.push entry)).run s = .ok ((), s') →
      DeclaredEntry decl entry →
      ∃ entry params, s' = s.appended (entry :: params) s.callables ∧ DeclaredEntry decl entry ∧
        ∀ param ∈ params, param.isParameter = true := by
    intro entry hrun hentry
    obtain ⟨_, hrun⟩ := Store.run_discard_eq_ok hrun
    cases (Store.push_run _).symm.trans hrun
    exact ⟨entry, [], rfl, hentry, by simp⟩
  cases h with
  | named hkind => exact hpush hrun ⟨rfl, (Kind.flags_typeKind hkind).symm, Or.inl rfl⟩
  | generic hkind params =>
      obtain ⟨_, hrun⟩ := Store.run_discard_eq_ok hrun
      refine ⟨_, _, Store.declareGeneric_run hrun,
        ⟨rfl, (Kind.flags_typeKind hkind).symm, Or.inr ⟨_, rfl⟩⟩, fun param hparam => ?_⟩
      obtain ⟨_, -, rfl⟩ := List.mem_map.mp hparam
      rfl
  | primitive hkind => exact hpush hrun ⟨rfl, by rw [hkind]; rfl, Or.inl rfl⟩
  | enum hkind => exact hpush hrun ⟨rfl, by rw [hkind]; rfl, Or.inl rfl⟩
  | pointer hkind => exact hpush hrun ⟨rfl, by rw [hkind]; rfl, Or.inl rfl⟩

theorem DeclaredEntry.isParameter {decl : TypeDecl} {entry : Entry} (h : DeclaredEntry decl entry) :
    entry.isParameter = false := by
  rcases h.shape with h | ⟨_, h⟩ <;> rw [Entry.isParameter, h]

/-- A declared name is found. -/
theorem Declares.found {decl : TypeDecl} {op : Operation} (h : Declares decl op) {s' : Store}
    (hrun : op.run.run s = .ok ((), s')) : (s'.lookup? decl.name).isSome := by
  obtain ⟨entry, params, rfl, hentry, -⟩ := h.appends hrun
  have hnew : (s.appended (entry :: params) s.callables).types[s.size]? = some entry := by
    rw [Store.appended_getElem?, if_neg (Nat.lt_irrefl _), Nat.sub_self]
    rfl
  exact Store.lookup?_isSome hnew hentry.name hentry.isParameter

/-- A lifted operation that returns a handle, which is thrown away. -/
theorem discard_steps {ε : Type} (op : Operation) {x : StoreM Handle} (hop : op.run = discard x)
    (hhandles : ∀ type ∈ op.handles, type < s.size) (hunfinished : s.finished = false)
    (hP : P s op) : Steps P (discard (liftM x) : ExceptT ε StoreM Unit) s
      fun _ s' => op.run.run s = .ok ((), s') := by
  have hlift : Steps P (liftM x : ExceptT ε StoreM Handle) s
      fun _ s' => op.run.run s = .ok ((), s') :=
    .lift fun type s' hrun =>
      have hrun' : op.run.run s = .ok ((), s') := hop ▸ Store.discard_run hrun
      ⟨.single ⟨hhandles, fun _ => hunfinished⟩ hP hrun', hrun'⟩
  exact hlift.bind fun _ _ _ h => .pure h

/-- Declaring a type by one of its operations. -/
theorem Declares.steps {decl : TypeDecl} {op : Operation} (h : Declares decl op)
    {x : StoreM Handle} (hop : op.run = discard x) (hhandles : ∀ type ∈ op.handles, type < s.size)
    (hunfinished : s.finished = false) :
    Steps (fun _ op => Declares decl op) (discard (liftM x) : BuildM Unit) s
      fun _ s' => (s'.lookup? decl.name).isSome :=
  (discard_steps op hop hhandles hunfinished h).imp fun _ _ _ hrun => h.found hrun

theorem declareValue_steps {decl : TypeDecl} (hunfinished : s.finished = false)
    (hkind : decl.kind.typeKind? = none) :
    Steps (fun _ op => Declares decl op) (declareValue decl) s
      fun _ s' => (s'.lookup? decl.name).isSome := by
  unfold declareValue
  split
  · next hprimitive =>
      split
      · next kind _ =>
          exact (Declares.primitive hprimitive kind).steps rfl (by simp [Operation.handles])
            hunfinished
      · exact .throw _
  · next henum =>
      split
      · refine (lookup_steps _).bind ?_
        rintro underlying _ - ⟨rfl, hfound⟩
        refine .get_bind (.query_bind fun _ _ => ?_)
        split
        · refine (Declares.enum henum underlying).steps rfl ?_ hunfinished
          rintro handle (_ | ⟨_, ⟨⟩⟩)
          exact Store.lookup?_lt hfound
        · exact .throw _
      · exact .throw _
  · next hprimitive henum =>
      have hpointer : decl.kind = .pointer := by
        cases h : decl.kind <;> simp_all [Kind.typeKind?]
      exact (Declares.pointer hpointer).steps rfl (by simp [Operation.handles]) hunfinished

theorem declareType_steps (decl : TypeDecl) (hunfinished : s.finished = false) :
    Steps (fun _ op => Declares decl op) (declareType decl) s
      fun _ s' => (s'.lookup? decl.name).isSome := by
  unfold declareType
  split
  · next kind hkind =>
      split
      · exact (Declares.named hkind).steps rfl (by simp [Operation.handles]) hunfinished
      · exact (Declares.generic hkind _).steps rfl (by simp [Operation.handles]) hunfinished
  · next hkind =>
      split
      · exact declareValue_steps hunfinished hkind
      · exact .throw _

theorem declares_ne_finish {decl : TypeDecl} {op : Operation} (h : Declares decl op) :
    op ≠ .finish := by
  rintro rfl
  cases h

theorem nodup_of_repeatedName? {seen : List String} {types : List TypeDecl}
    (h : repeatedName? seen types = none) :
    (∀ decl ∈ types, decl.name ∉ seen) ∧ (types.map (·.name)).Nodup := by
  induction types generalizing seen with
  | nil => simp
  | cons decl rest ih =>
      rw [repeatedName?] at h
      split at h
      · cases h
      · next hnew =>
          obtain ⟨hseen, hrest⟩ := ih h
          refine ⟨List.forall_mem_cons.mpr ⟨hnew, fun other hother hmem =>
            hseen other hother (List.mem_cons_of_mem _ hmem)⟩, ?_⟩
          rw [List.map_cons, List.nodup_cons]
          refine ⟨fun hmem => ?_, hrest⟩
          obtain ⟨other, hother, hname⟩ := List.mem_map.mp hmem
          exact hseen other hother (hname ▸ List.mem_cons_self)

/-- The operations that declare the types of a catalog: one for each declaration but that of the
root. -/
def Declaring (catalog : Catalog) (_ : Store) (op : Operation) : Prop :=
  ∃ decl ∈ catalog.types, decl.name ≠ catalog.roles.root ∧ Declares decl op

/-- Declaring the types of a catalog performs declarations. Then every declared name is found, and
no name is declared twice. -/
theorem declareTypes_steps (catalog : Catalog) (hs : s.Lawful) (hunfinished : s.finished = false)
    (hroot : (s.lookup? catalog.roles.root).isSome) :
    Steps (Declaring catalog) (declareTypes catalog) s fun _ s' =>
      (s'.Lawful ∧ s'.finished = false) ∧ (catalog.types.map (·.name)).Nodup ∧
        ∀ decl ∈ catalog.types, (s'.lookup? decl.name).isSome := by
  unfold declareTypes
  split
  · exact .throw _
  next hnames =>
  dsimp only
  have hmem : ∀ decl, decl ∈ (catalog.types.partition (·.kind == .enum)).2 ++
      (catalog.types.partition (·.kind == .enum)).1 ↔ decl ∈ catalog.types := by
    intro decl
    rw [List.partition_eq_filter_filter, List.mem_append, List.mem_filter, List.mem_filter,
      ← and_or_left]
    simp [em']
  have hfound : ∀ {t t' : Store} {name : String}, t.Lawful → Performs (Declaring catalog) t t' →
      (t.lookup? name).isSome → (t'.lookup? name).isSome := by
    intro t t' name ht hperforms h
    obtain ⟨type, htype⟩ := Option.isSome_iff_exists.mp h
    exact Option.isSome_iff_exists.mpr ⟨type, (hperforms.names ht).lookup? htype⟩
  refine (Steps.forM_each (I := fun t => (t.Lawful ∧ t.finished = false) ∧
      (t.lookup? catalog.roles.root).isSome) (Q := fun decl t => (t.lookup? decl.name).isSome)
    ⟨⟨hs, hunfinished⟩, hroot⟩ (fun decl t t' ht => hfound ht.1.1) ?_).imp
    fun _ _ _ h => ⟨h.1.1, (nodup_of_repeatedName? hnames).2, fun decl hdecl =>
      h.2 decl ((hmem decl).mpr hdecl)⟩
  intro decl hdecl t ht
  split
  · next hname =>
      have hdeclare := ((declareType_steps decl ht.1.2).adapt (BuildError.inType decl.name)).mono
        fun t op hop => (⟨decl, (hmem decl).mp hdecl, hname, hop⟩ : Declaring catalog t op)
      refine hdeclare.imp fun _ t' hperforms hfound' => ⟨⟨⟨hperforms.lawful ht.1.1, ?_⟩,
        hfound ht.1.1 hperforms ht.2⟩, hfound'⟩
      refine (hperforms.finished ht.1.1 fun _ _ hop => ?_).trans ht.1.2
      exact declares_ne_finish hop.choose_spec.2.2
  · next hname => exact .pure ⟨ht, (not_not.mp hname) ▸ ht.2⟩

theorem plain_interns {scope : Scope} {applied : List (String × List TypeExpr)} (t : Store)
    (op : Operation) (h : TypeExpr.Interns scope applied t op) : Plain t op := by
  cases h with
  | array => rfl
  | instantiate => rfl

/-- A plain operation keeps the store lawful and leaves it finished or unfinished. -/
theorem plain_steps {ε : Type} (op : Operation) {x : StoreM Unit} (hs : s.Lawful)
    (hop : op.run = x) (hallowed : op.Allowed s) (hplain : Plain s op) :
    Steps Plain (liftM x : ExceptT ε StoreM Unit) s
      fun _ s' => s'.Lawful ∧ s'.finished = s.finished ∧ s.Names s' :=
  (lift_steps op hop hallowed.1 hallowed.2 hplain).imp fun _ _ hperforms _ =>
    ⟨hperforms.lawful hs, hperforms.finished hs plain_ne_finish, hperforms.names hs⟩

/-- Giving a role to a type found by its name. -/
theorem assignRole_steps {ε : Type} (op : Operation) {x : StoreM Unit} {type : Handle}
    {name : String} (hs : s.Lawful ∧ s.finished = false) (hfound : s.lookup? name = some type)
    (hop : op.run = x) (hhandles : op.handles = [type]) (hplain : Plain s op) :
    Steps Plain (liftM x : ExceptT ε StoreM Unit) s
      fun _ s' => s'.Lawful ∧ s'.finished = false := by
  refine (plain_steps op hs.1 hop ⟨fun handle hhandle => ?_, fun _ => hs.2⟩ hplain).imp
    fun _ s' _ h => ⟨h.1, h.2.1.trans hs.2⟩
  rw [hhandles, List.mem_singleton] at hhandle
  exact hhandle ▸ Store.lookup?_lt hfound

theorem assignRoles_steps (roles : Roles) (hs : s.Lawful ∧ s.finished = false) :
    Steps Plain (assignRoles roles) s fun _ s' => s'.Lawful ∧ s'.finished = false := by
  unfold assignRoles
  dsimp only
  have ht := hs
  split
  case' h_1 name _ =>
    refine (lookup_steps name).bind ?_
    rintro type mid - ⟨rfl, hfound⟩
    refine (assignRole_steps (.setValueTypeRoot type) ht hfound rfl rfl rfl).bind
      fun _ t _ ht => ?_
  all_goals
    split
    case' h_1 name _ =>
      refine (lookup_steps name).bind ?_
      rintro type mid - ⟨rfl, hfound⟩
      refine (assignRole_steps (.setArrayRoot type) ht hfound rfl rfl rfl).bind
        fun _ t _ ht => ?_
    all_goals
      split
      case' h_1 name _ =>
        refine ((singleParameterDefinition_steps name).adapt _).bind ?_
        rintro type mid - ⟨rfl, hfound⟩
        refine (assignRole_steps (.setOptionalWrapper type) ht hfound rfl rfl rfl).bind
          fun _ t _ ht => ?_
      all_goals
        refine .forM ht fun name _ t ht => ?_
        refine ((singleParameterDefinition_steps name).adapt _).bind ?_
        rintro type mid - ⟨rfl, hfound⟩
        exact assignRole_steps (.addSequenceInterface type) ht hfound rfl rfl rfl

section Callables

/-- Where a store stands while a callable is declared. -/
structure Onward (start s : Store) : Prop where
  lawful : s.Lawful
  finished : s.finished = start.finished
  names : start.Names s
  performs : Performs Nonfinal start s

theorem Onward.refl (hs : s.Lawful) : Onward s s := ⟨hs, rfl, .refl s, .refl s⟩

theorem Onward.step {start s' : Store} (h : Onward start s) (hperforms : Performs Plain s s') :
    Onward start s' :=
  ⟨hperforms.lawful h.lawful,
    (hperforms.finished h.lawful plain_ne_finish).trans h.finished,
    h.names.trans (hperforms.names h.lawful),
    h.performs.trans (hperforms.mono plain_ne_finish)⟩

theorem Onward.trans {start mid : Store} (h : Onward start mid) (h' : Onward mid s) :
    Onward start s :=
  ⟨h'.lawful, h'.finished.trans h.finished, h.names.trans h'.names, h.performs.trans h'.performs⟩

/-- Plain steps from where a store stands. -/
theorem Onward.steps {start : Store} (h : Onward start s) {ε α : Type} {x : ExceptT ε StoreM α}
    {post : α → Store → Prop} (hx : Steps Plain x s post) :
    Steps Plain x s fun a s' => Onward start s' ∧ post a s' :=
  hx.imp fun _ _ hperforms hpost => ⟨h.step hperforms, hpost⟩

theorem Onward.read {start : Store} (h : Onward start s) {scope : Scope}
    (hscope : InScope start scope) (text : String) :
    Steps Plain (typeOf scope text) s fun type s' => Onward start s' ∧ type < s'.size :=
  h.steps ((typeOf_steps h.lawful (hscope.mono h.names) text).mono plain_interns)

theorem enclosingScope_steps (hs : s.Lawful) (declaring : Handle) :
    Steps P (enclosingScope declaring) s fun scope s' => s' = s ∧ InScope s scope := by
  refine .get_bind (.query_bind fun definition _ => ?_)
  split
  · next definition _ =>
      refine .query_bind fun params hparams => ?_
      have hread : ∀ param ∈ params, Steps P (do
          return (← liftM (s.typeName param), param) : BuildM (String × Handle)) s
          fun pair s' => s' = s ∧ pair.2 = param :=
        fun param _ => .query_bind fun _ _ => .pure ⟨rfl, rfl⟩
      refine (Steps.mapM_read hread).imp fun scope s' _ h => ⟨h.1, fun name type hlookup => ?_⟩
      obtain ⟨_, hparam, rfl⟩ := mem_of_forall₂ h.2.flip (mem_of_lookup hlookup)
      exact arguments_lt hs hparams type hparam
  · exact .query_bind fun _ _ => .throw _

theorem typeParams_lt (hs : s.Lawful) (id : CallableId) :
    ∀ param ∈ ((s.callable? id).map (·.typeParams)).getD [], param < s.size := by
  intro param hparam
  unfold Store.callable? at hparam
  cases hsignature : s.callables[id]? with
  | none => simp [hsignature] at hparam
  | some signature =>
      rw [hsignature] at hparam
      obtain ⟨i, hi⟩ := List.getElem?_of_mem hparam
      obtain ⟨form, _, hform, -⟩ := (hs.wellFormed.coherent.callables hsignature).2 i param hi
      exact Store.form_lt hform

theorem performs_declareCallable {name : String} {typeParams : List String} {id : CallableId}
    {s' : Store} (hrun : (Store.declareCallable name typeParams).run s = .ok (id, s')) :
    Performs Plain s s' := by
  have hallowed : (Operation.declareCallable name typeParams).Allowed s :=
    ⟨by simp [Operation.handles], by simp [Operation.isDeclaration]⟩
  exact .single hallowed rfl (Store.discard_run hrun)

/-- Declaring a callable performs plain operations. -/
theorem declareCallable_steps (decl : CallableDecl) (hs : s.Lawful) :
    Steps Plain (declareCallable decl) s fun _ s' => s'.Lawful ∧ s'.finished = s.finished := by
  refine .get_bind ?_
  split
  · exact .throw _
  have hdeclaring : Steps Plain (decl.declaringType.mapM (typeOf [])) s fun declaring s' =>
      Onward s s' ∧ ∀ type, declaring = some type → type < s'.size := by
    cases decl.declaringType with
    | none => exact .pure ⟨.refl hs, by rintro _ ⟨⟩⟩
    | some text =>
        rw [Option.mapM_some, map_eq_pure_bind]
        refine ((Onward.refl hs).read (inScope_nil s) text).bind fun type mid _ h => ?_
        exact .pure ⟨h.1, by rintro _ ⟨⟩; exact h.2⟩
  refine hdeclaring.bind fun declaring mid _ hmid => ?_
  have hcallable : Steps Plain
      (liftM (Store.declareCallable decl.name (decl.typeParams.map (·.name))) : BuildM CallableId)
      mid fun _ s' => Onward s s' :=
    .lift fun id s' hrun =>
      ⟨performs_declareCallable hrun, hmid.1.step (performs_declareCallable hrun)⟩
  refine hcallable.bind fun id t hperforms ht => .get_bind ?_
  have hown := typeParams_lt ht.lawful id
  have hscope : ∀ {u : Store} {enclosing : Scope}, t.Names u → InScope u enclosing →
      InScope u ((decl.typeParams.map (·.name)).zip
        (((t.callable? id).map (·.typeParams)).getD []) ++ enclosing) :=
    fun hnames => inScope_append ((inScope_zip _ hown).mono hnames)
  dsimp only
  split
  case' h_1 _ type =>
    refine (enclosingScope_steps ht.lawful type).bind ?_
    rintro scope _ - ⟨rfl, henclosing⟩
    have htype : type < _ := (hperforms.names hmid.1.lawful).lt (hmid.2 type rfl)
    refine (plain_steps (.setDeclaringType id type) ht.lawful rfl
      ⟨by simpa [Operation.handles] using htype, by simp [Operation.isDeclaration]⟩ rfl).bind
      fun _ u hperforms' hu => ?_
    have hnow := ht.step hperforms'
    have hscope' := hscope hu.2.2 (henclosing.mono hu.2.2)
    have hown' := fun param hparam => hu.2.2.lt (hown param hparam)
  case' h_2 =>
    have hnow := ht
    have hscope' := hscope (.refl _) (inScope_nil _)
    have hown' := hown
  all_goals
    rw [pure_bind]
    have hhere := Onward.refl hnow.lawful
    refine (addConstraints_steps hnow.lawful hscope' hown'
      (fun _ _ text _ t op hop => plain_interns t op hop) fun _ _ _ => rfl).bind
      fun _ t hperforms _ => ?_
    refine (Steps.forM (hhere.step hperforms) fun param _ t ht => ?_).bind fun _ t _ ht => ?_
    · refine (ht.read hscope' param.type).bind fun type mid _ hmid => ?_
      refine (hmid.1.steps (plain_steps (.addParameter id type param.mode) hmid.1.lawful rfl
        ⟨by simpa [Operation.handles] using hmid.2, by simp [Operation.isDeclaration]⟩ rfl)).imp
        fun _ _ _ h => h.1
    split
    · refine (ht.read hscope' _).bind fun type mid _ hmid => ?_
      refine (plain_steps (.setReturnType id type) hmid.1.lawful rfl
        ⟨by simpa [Operation.handles] using hmid.2, by simp [Operation.isDeclaration]⟩ rfl).imp
        fun _ _ _ h => ⟨h.1, ?_⟩
      exact h.2.1.trans (hmid.1.finished.trans hnow.finished)
    · exact .pure ⟨ht.lawful, ht.finished.trans hnow.finished⟩

end Callables

/-- Declarations are resolved one after the other, each by its own operations. -/
inductive ResolvesAll : List TypeDecl → Store → Store → Prop
  | nil (s : Store) : ResolvesAll [] s s
  | cons {decl : TypeDecl} {rest : List TypeDecl} {s mid s' : Store} {type : Handle}
      {params : List Handle} (htype : s.lookup? decl.name = some type)
      (hparams : s.arguments type = .ok params)
      (hperforms : Performs (Resolves decl type (ownScope decl params) s) s mid)
      (hrest : ResolvesAll rest mid s') : ResolvesAll (decl :: rest) s s'

theorem ResolvesAll.performs {types : List TypeDecl} {s' : Store} (h : ResolvesAll types s s') :
    Performs (fun _ _ => True) s s' := by
  induction h with
  | nil s => exact .refl s
  | cons _ _ hperforms _ ih => exact (hperforms.mono fun _ _ _ => trivial).trans ih

/-- Resolving declared types, one after the other. -/
theorem resolveTypes_steps (types : List TypeDecl) (hs : s.Lawful ∧ s.finished = false) :
    Steps (fun _ _ => True)
      (types.forM fun decl => within (.inType decl.name) (resolveType decl)) s fun _ s' =>
        ResolvesAll types s s' ∧ s'.Lawful ∧ s'.finished = false := by
  induction types generalizing s with
  | nil => exact .pure ⟨.nil s, hs⟩
  | cons decl rest ih =>
      refine ((resolveType_steps decl hs.1 hs.2).adapt _).bind
        fun _ mid _ hmid => ?_
      obtain ⟨hmid, type, params, htype, hparams, hperforms⟩ := hmid
      exact (ih hmid).imp fun _ s' _ h => ⟨.cons htype hparams hperforms h.1, h.2⟩

/-- The stages in which the store of a catalog comes about. -/
structure Stages (catalog : Catalog) (declared resolved ready closed s : Store) : Prop where
  declares : Performs (Declaring catalog) (.ofRoot catalog.roles.root) declared
  names : (catalog.types.map (·.name)).Nodup
  found : ∀ decl ∈ catalog.types, (declared.lookup? decl.name).isSome
  resolves : ResolvesAll catalog.types declared resolved
  assigns : Performs Plain resolved ready
  unfinished : ready.finished = false
  completes : Store.finish.run ready = .ok ((), closed)
  enlarges : Performs Plain closed s

theorem lookup?_ofRoot (name : String) : ((Store.ofRoot name).lookup? name).isSome :=
  Store.lookup?_isSome (show (Store.ofRoot name).types[0]? = some _ from rfl) rfl rfl

theorem buildSteps_steps (catalog : Catalog) :
    Steps (fun _ _ => True) (buildSteps catalog) (.ofRoot catalog.roles.root) fun _ s =>
      ∃ declared resolved ready closed, Stages catalog declared resolved ready closed s := by
  have hroot := lookup?_ofRoot catalog.roles.root
  refine ((declareTypes_steps catalog (.ofRoot _) rfl hroot).imp
    fun _ _ hperforms h => And.intro hperforms h).mono (fun _ _ _ => trivial) |>.bind ?_
  rintro _ declared - ⟨hdeclares, hlawful, hnames, hfound⟩
  refine (resolveTypes_steps catalog.types hlawful).bind ?_
  rintro _ resolved - ⟨hresolves, hlawful⟩
  refine ((assignRoles_steps catalog.roles hlawful).imp
    fun _ _ hperforms h => And.intro hperforms h).mono (fun _ _ _ => trivial) |>.bind ?_
  rintro _ ready - ⟨hassigns, hlawful⟩
  refine (lift_steps .finish rfl (by simp [Operation.handles]) (fun _ => hlawful.2) trivial).bind
    fun _ closed hperforms hcompletes => ?_
  have hcallables : Steps Plain (catalog.callables.forM fun decl =>
      within (.inCallable decl.name) (declareCallable decl)) closed fun _ s => s.Lawful :=
    .forM (hperforms.lawful hlawful.1) fun decl _ t ht =>
      ((declareCallable_steps decl ht).adapt _).imp fun _ _ _ h => h.1
  refine (hcallables.imp fun _ s henlarges _ => ?_).mono fun _ _ _ => trivial
  exact ⟨declared, resolved, ready, closed, hdeclares, hnames, hfound, hresolves, hassigns,
    hlawful.2, hcompletes, henlarges⟩

/-- A catalog is built in stages. -/
theorem build_stages {catalog : Catalog} (hbuild : catalog.build = .ok (.ok s)) :
    ∃ declared resolved ready closed, Stages catalog declared resolved ready closed s := by
  obtain ⟨⟨outcome, last⟩, hrun, houtcome⟩ := Query.bind_eq_ok.mp hbuild
  cases outcome with
  | ok u =>
      cases houtcome
      exact (buildSteps_steps catalog _ _ hrun).2 u rfl
  | error cause => cases houtcome

namespace Stages

variable {catalog : Catalog} {declared resolved ready closed : Store}

theorem lawful_declared (h : Stages catalog declared resolved ready closed s) : declared.Lawful :=
  h.declares.lawful (.ofRoot _)

theorem lawful_resolved (h : Stages catalog declared resolved ready closed s) : resolved.Lawful :=
  h.resolves.performs.lawful h.lawful_declared

theorem lawful_ready (h : Stages catalog declared resolved ready closed s) : ready.Lawful :=
  h.assigns.lawful h.lawful_resolved

theorem finishes (h : Stages catalog declared resolved ready closed s) :
    Performs (fun _ _ => True) ready closed := by
  have hallowed : Operation.finish.Allowed ready :=
    ⟨by simp [Operation.handles], fun _ => h.unfinished⟩
  exact .single hallowed trivial h.completes

theorem unfinished_declared (h : Stages catalog declared resolved ready closed s) :
    declared.finished = false :=
  h.declares.finished (.ofRoot _) fun _ _ hop => declares_ne_finish hop.choose_spec.2.2

/-- The operations after the types are declared. -/
theorem completing (h : Stages catalog declared resolved ready closed s) :
    Performs (fun _ _ => True) declared s :=
  h.resolves.performs.trans <| (h.assigns.mono fun _ _ _ => trivial).trans <|
    h.finishes.trans <| h.enlarges.mono fun _ _ _ => trivial

end Stages

/-- The store of a catalog is reachable. -/
theorem build_reachable {catalog : Catalog} (hbuild : catalog.build = .ok (.ok s)) :
    s.Reachable := by
  obtain ⟨declared, resolved, ready, closed, hstages⟩ := build_stages hbuild
  exact hstages.completing.reachable (hstages.declares.reachable (.ofRoot _))

/-- The declarations of the store of a catalog are complete. -/
theorem build_finished {catalog : Catalog} (hbuild : catalog.build = .ok (.ok s)) :
    s.finished = true := by
  obtain ⟨declared, resolved, ready, closed, hstages⟩ := build_stages hbuild
  have hclosed : closed.finished = true := by
    obtain ⟨_, _, -, hrun⟩ := run_bind_eq_ok.mp hstages.completes
    obtain ⟨_, _, -, hrun⟩ := run_bind_eq_ok.mp hrun
    obtain ⟨_, _, -, hrun⟩ := run_bind_eq_ok.mp hrun
    obtain ⟨_, _, -, hrun⟩ := run_bind_eq_ok.mp hrun
    cases hrun
    rfl
  have hlawful := hstages.finishes.lawful hstages.lawful_ready
  exact (hstages.enlarges.finished hlawful plain_ne_finish).trans hclosed

end Catalog

/-- A command on the store of a catalog. -/
inductive Request where
  | infer (request : Command.InferRequest)
  | check (declaration : String) (types : List String)
  deriving DecidableEq, Repr

namespace Request

/-- Runs a request. The options of the catalog are `defaults`. -/
def command (defaults : InferenceOptions) : Request → CommandM Report
  | infer request => Command.infer defaults request
  | check declaration types => Command.check declaration types

/-- Answers requests in order. Each finds the store that those before it have left, also if they
failed. -/
def answerAll (defaults : InferenceOptions) (requests : List Request) :
    StoreM (List (Except CommandError Report)) :=
  requests.mapM fun request => (request.command defaults).run

/-- Operations that intern types. -/
def Interning (_ : Store) (op : Operation) : Prop := op.interns = true

variable {s s' : Store}

theorem interning_interns {scope : Scope} {applied : List (String × List TypeExpr)} (t : Store)
    (op : Operation) (h : TypeExpr.Interns scope applied t op) : Interning t op := by
  cases h <;> rfl

theorem plain_interning (t : Store) (op : Operation) (h : Interning t op) : Plain t op := by
  cases op with
  | instantiate definition args => rfl
  | arrayOf element rank => rfl
  | _ => cases h

theorem parseAll_steps (hs : s.Lawful) (texts : List String) :
    Steps Interning (Command.parseAll texts) s fun types s' => ∀ type ∈ types, type < s'.size := by
  induction texts generalizing s with
  | nil => exact .pure (by simp)
  | cons text rest ih =>
      unfold Command.parseAll
      rw [List.mapM_cons]
      refine (((parseType_steps hs (inScope_nil s) text).mono interning_interns).adapt _).bind
        fun type mid hperforms hlt => ?_
      refine (ih (hperforms.lawful hs)).bind fun types last hperforms' htypes => .pure ?_
      exact List.forall_mem_cons.mpr
        ⟨(hperforms'.names (hperforms.lawful hs)).lt hlt, htypes⟩

/-- A request interns types and changes nothing else. -/
theorem command_steps (hs : s.Lawful) (defaults : InferenceOptions) (request : Request) :
    Steps Interning (request.command defaults) s fun _ _ => True := by
  cases request with
  | infer request =>
      refine .get_bind ?_
      split
      · exact .throw _
      · refine (parseAll_steps hs request.types).bind fun args mid _ _ => .get_bind ?_
        split
        · exact .throw _
        · dsimp only
          split
          · exact .throw _
          · split
            · exact .query fun _ _ => trivial
            · exact .query fun _ _ => trivial
  | check declaration types =>
      refine (parseAll_steps hs types).bind fun args mid _ _ => .get_bind ?_
      have hanswer : ∀ declared : Declaration, Steps Interning (do
          let satisfied ← liftM (mid.satisfiesConstraints declared args)
          let names ← args.mapM fun arg => liftM (mid.typeName arg)
          return {
            lines := [Store.instantiationName declaration names]
            status := if satisfied then .satisfied else .violated } : CommandM Report) mid
          fun _ _ => True := by
        intro declared
        refine .query_bind fun satisfied _ => ?_
        have hnames : ∀ arg ∈ args, Steps Interning (liftM (mid.typeName arg) : CommandM String) mid
            fun _ mid' => mid' = mid ∧ True := fun arg _ => .query fun _ _ => ⟨rfl, trivial⟩
        exact (Steps.mapM_read hnames).bind fun _ _ _ _ => .pure trivial
      split
      · exact hanswer _
      · split
        · exact hanswer _
        · intro outcome s' hrun
          cases hrun
          exact ⟨.refl mid, fun _ _ => trivial⟩

/-- Requests perform operations that intern types. -/
theorem answerAll_performs {defaults : InferenceOptions} {requests : List Request}
    {outcomes : List (Except CommandError Report)} (hs : s.Lawful)
    (hrun : (answerAll defaults requests).run s = .ok (outcomes, s')) :
    Performs Interning s s' := by
  induction requests generalizing s outcomes with
  | nil =>
      obtain ⟨-, rfl⟩ := run_pure_eq_ok.mp hrun
      exact .refl _
  | cons request rest ih =>
      unfold answerAll at hrun
      rw [List.mapM_cons] at hrun
      obtain ⟨outcome, mid, hfirst, hrun⟩ := run_bind_eq_ok.mp hrun
      obtain ⟨outcomes, last, hrest, hrun⟩ := run_bind_eq_ok.mp hrun
      obtain ⟨-, rfl⟩ := run_pure_eq_ok.mp hrun
      have hperforms := (command_steps hs defaults request outcome mid hfirst).1
      exact hperforms.trans (ih (hperforms.lawful hs) hrest)

end Request

namespace Catalog

/-- The store of a catalog that builds. -/
def builtStore (catalog : Catalog) : Store :=
  match catalog.build with
  | .ok (.ok s) => s
  | _ => {}

/-- The store after some requests. -/
def storeAfter (catalog : Catalog) (requests : List Request) : Store :=
  match (Request.answerAll catalog.options requests).run (builtStore catalog) with
  | .ok (_, s) => s
  | .error _ => {}

end Catalog

end NominalGenerics
