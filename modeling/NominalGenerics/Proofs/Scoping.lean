import NominalGenerics.Proofs.AssignabilityCheck

/-!
# Types outside a callable

A type that mentions no type parameter of a callable is the same before and after the type arguments
of a call are put in. Between such types, identity and assignability under the arguments are identity
and assignability without them.
-/

namespace NominalGenerics

/-- The substitution of a call: it binds the type parameters of the callable. -/
def Signature.binding (signature : Signature) (types : List Handle) : Substitution :=
  { callable := some signature.id, callableArgs := types }

namespace Store

variable {store : Store} {signature : Signature} {type arg : Handle} {form : Entry}

/-- The type mentions none of the parameters. -/
def Avoids (store : Store) (params : List Handle) (type : Handle) : Prop :=
  ∀ param ∈ params, ¬ store.Mentions param type

/-- A type of the store that mentions no type parameter of the callable. -/
def Outside (store : Store) (signature : Signature) (type : Handle) : Prop :=
  type < store.size ∧ store.Avoids signature.typeParams type

/-- The callable of the store with that signature. -/
def HasCallable (store : Store) (signature : Signature) : Prop :=
  store.callables[signature.id]? = some signature

/-- Supertypes mention a type parameter of the callable only if the type does. -/
def Scoped (store : Store) (signature : Signature) : Prop :=
  ∀ type super, store.Supertype type super → store.Avoids signature.typeParams type →
    store.Avoids signature.typeParams super

theorem HasCallable.paramAt (hs : store.Coherent) (hcallable : store.HasCallable signature)
    {param : Handle} (hparam : param ∈ signature.typeParams) :
    ∃ position, store.ParamAt param (.callable signature.id) position := by
  obtain ⟨i, hi⟩ := List.getElem?_of_mem hparam
  exact ⟨i, (hs.callables hcallable).2 i param hi⟩

theorem paramAt_of_param? {info : TypeParam} (h : store.param? type = .ok (some info)) :
    store.ParamAt type info.owner info.position := by
  obtain ⟨entry, hentry, hinfo⟩ := Query.bind_eq_ok.mp h
  have hinfo : entry.param? = some info := Query.pure_eq_ok.mp hinfo
  have hshape : entry.shape = .parameter info := by
    rw [Entry.param?] at hinfo
    split at hinfo
    · next info' hshape => rw [hshape, Option.some.inj hinfo]
    · cases hinfo
  exact ⟨entry.form, { info with constraints := [] },
    form_of_entry (entry_eq_ok.mp hentry), Entry.form_shape_of_parameter hshape, rfl,
    rfl⟩

theorem ParamAt.isOpen (hs : store.Coherent) {owner : ParamOwner} {position : Nat}
    (h : store.ParamAt type owner position) : store.isOpen type = .ok true := by
  obtain ⟨form, info, hform, hshape, -⟩ := h
  rw [isOpen_of_form hform, (hs.parameter hform hshape).1]

theorem ParamAt.isParameter {owner : ParamOwner} {position : Nat} {entry : Entry}
    (h : store.ParamAt type owner position) (hentry : store.entry type = .ok entry) :
    entry.isParameter = true := by
  obtain ⟨form, info, hform, hshape, -⟩ := h
  obtain rfl : entry.form = form := Option.some.inj
    ((form_of_entry (entry_eq_ok.mp hentry)).symm.trans hform)
  rw [← Entry.form_isParameter, Entry.isParameter, hshape]

/-- A type parameter is no reference type. -/
theorem ParamAt.isReferenceType_ne {owner : ParamOwner} {position : Nat}
    (h : store.ParamAt type owner position) : store.isReferenceType type ≠ .ok true := by
  intro hreference
  obtain ⟨entry, hentry, hreference⟩ := Query.bind_eq_ok.mp hreference
  have hreference := Query.pure_eq_ok.mp hreference
  rw [h.isParameter hentry] at hreference
  simp at hreference

theorem ParamAt.param?_ne {owner : ParamOwner} {position : Nat}
    (h : store.ParamAt type owner position) : store.param? type ≠ .ok none := by
  intro hnone
  obtain ⟨entry, hentry, hnone⟩ := Query.bind_eq_ok.mp hnone
  have hnone : entry.param? = none := Query.pure_eq_ok.mp hnone
  have hparam := h.isParameter hentry
  cases hshape : entry.shape <;> simp [Entry.isParameter, Entry.param?, hshape] at hparam hnone

/-- A parameter of the callable is listed in its signature. -/
theorem HasCallable.position_of_owner (hs : store.Coherent) (hcallable : store.HasCallable signature)
    {info : TypeParam} (hparam : store.param? type = .ok (some info))
    (howner : info.owner = .callable signature.id) :
    signature.typeParams[info.position]? = some type := by
  have hlists := (paramAt_of_param? hparam).lists hs
  rw [howner] at hlists
  obtain ⟨params, hparams, hlisted⟩ := hlists
  rw [typeParams?, hcallable] at hparams
  cases hparams
  exact hlisted

/-- What a closed type mentions is closed. -/
theorem Mentions.closed (hs : store.Coherent) {part : Handle} (h : store.Mentions part type)
    (hform : store.form type = some form) (hclosed : form.isOpen = false) :
    ∃ form, store.form part = some form ∧ form.isOpen = false := by
  induction h generalizing form with
  | self => exact ⟨form, hform, hclosed⟩
  | argument hform' hshape harg _ ih =>
      obtain rfl := Option.some.inj (hform.symm.trans hform')
      obtain ⟨part, hpart, hpartClosed⟩ := hs.argument hform (by rw [Entry.arguments, hshape]; exact harg)
      exact ih hpart (hpartClosed hclosed).1
  | element hform' hshape _ ih =>
      obtain rfl := Option.some.inj (hform.symm.trans hform')
      obtain ⟨part, hpart, hopen, -⟩ := hs.element hform (by rw [Entry.array?, hshape])
      exact ih hpart (hopen.trans hclosed)

theorem avoids_of_closed (hs : store.Coherent) (hcallable : store.HasCallable signature)
    (hform : store.form type = some form) (hclosed : form.isOpen = false) :
    store.Avoids signature.typeParams type := by
  intro param hparam hmentions
  obtain ⟨position, pform, info, hpform, hshape, -⟩ := hcallable.paramAt hs hparam
  obtain ⟨_, hpform', hpclosed⟩ := hmentions.closed hs hform hclosed
  obtain rfl := Option.some.inj (hpform.symm.trans hpform')
  cases (hs.parameter hpform hshape).1.symm.trans hpclosed

theorem form_of_isOpen {isOpen : Bool} (h : store.isOpen type = .ok isOpen) :
    ∃ form, store.form type = some form ∧ form.isOpen = isOpen := by
  obtain ⟨entry, hentry, hopen⟩ := Query.bind_eq_ok.mp h
  exact ⟨entry.form, form_of_entry (entry_eq_ok.mp hentry), Query.pure_eq_ok.mp hopen⟩

theorem outside_of_closed (hs : store.Coherent) (hcallable : store.HasCallable signature)
    (h : store.isOpen type = .ok false) : store.Outside signature type := by
  obtain ⟨form, hform, hclosed⟩ := form_of_isOpen h
  exact ⟨form_lt hform, avoids_of_closed hs hcallable hform hclosed⟩

/-- A type that is no parameter of the callable and has no parts mentions none. -/
theorem avoids_of_atom (hs : store.Coherent) (hcallable : store.HasCallable signature)
    (hform : store.form type = some form)
    (hown : ∀ info, form.shape = .parameter info → info.owner ≠ .callable signature.id)
    (hinstance : ∀ definition args, form.shape ≠ .instantiation definition args)
    (harray : ∀ element rank, form.shape ≠ .array element rank) :
    store.Avoids signature.typeParams type := by
  intro param hparam hmentions
  cases hmentions with
  | self =>
      obtain ⟨_, pform, info, hpform, hshape, howner, -⟩ := hcallable.paramAt hs hparam
      obtain rfl := Option.some.inj (hform.symm.trans hpform)
      exact hown info hshape howner
  | argument hform' hshape _ _ =>
      obtain rfl := Option.some.inj (hform.symm.trans hform')
      exact hinstance _ _ hshape
  | element hform' hshape _ =>
      obtain rfl := Option.some.inj (hform.symm.trans hform')
      exact harray _ _ hshape

/-- A parameter of another declaration mentions no type parameter of the callable. -/
theorem avoids_of_owner (hs : store.Coherent) (hcallable : store.HasCallable signature)
    {owner : ParamOwner} {position : Nat} (h : store.ParamAt type owner position)
    (howner : owner ≠ .callable signature.id) : store.Avoids signature.typeParams type := by
  obtain ⟨form, info, hform, hshape, rfl, -⟩ := h
  refine avoids_of_atom hs hcallable hform ?_ (by simp [hshape]) (by simp [hshape])
  intro info' hshape'
  obtain rfl : info = info' := by simpa [hshape] using hshape'
  exact howner

theorem avoids_of_defines (hs : store.Coherent) (hcallable : store.HasCallable signature)
    {params : List Handle} (h : store.Defines type params) :
    store.Avoids signature.typeParams type := by
  obtain ⟨form, hform, hshape⟩ := h
  exact avoids_of_atom hs hcallable hform (by simp [hshape]) (by simp [hshape]) (by simp [hshape])

namespace Avoids

theorem argument (hs : store.Coherent) (hcallable : store.HasCallable signature)
    (h : store.Avoids signature.typeParams type) (hform : store.form type = some form)
    (harg : arg ∈ form.arguments) : store.Avoids signature.typeParams arg := by
  cases hshape : form.shape with
  | instantiation definition args =>
      rw [Entry.arguments, hshape] at harg
      exact fun param hparam hmentions => h param hparam (.argument hform hshape harg hmentions)
  | definition params =>
      -- The arguments of a definition are its own parameters.
      rw [Entry.arguments, hshape] at harg
      obtain ⟨i, hi⟩ := List.getElem?_of_mem harg
      exact avoids_of_owner hs hcallable (hs.paramAt hform hshape hi) (by simp)
  | named => simp [Entry.arguments, hshape] at harg
  | array element rank => simp [Entry.arguments, hshape] at harg
  | parameter info => simp [Entry.arguments, hshape] at harg

theorem element {params : List Handle} (h : store.Avoids params type)
    (hform : store.form type = some form) {part : Handle} {rank : Nat}
    (harray : form.array? = some (part, rank)) : store.Avoids params part := by
  obtain ⟨form', hform', hshape⟩ := isArray_of_form hform harray
  exact fun param hparam hmentions => h param hparam (.element hform' hshape hmentions)

theorem resolve (hs : store.Coherent) (hcallable : store.HasCallable signature)
    (h : store.Avoids signature.typeParams type) (hlt : type < store.size) (types : List Handle) :
    (signature.binding types).resolve store type = .ok type := by
  obtain ⟨entry, hentry⟩ := entry_of_lt hlt
  rw [Substitution.resolve, Store.param?, query_of_entry hentry (·.param?)]
  cases hinfo : entry.param? with
  | none => rfl
  | some info =>
      have hlookup : (signature.binding types).lookup? info = none := by
        rw [Substitution.lookup?]
        split
        · simp [Signature.binding]
        · next id howner =>
            refine if_neg fun hid => ?_
            obtain rfl := Option.some.inj hid
            have hown := hcallable.position_of_owner hs
              (query_of_entry hentry (·.param?) |>.trans (congrArg _ hinfo)) howner
            exact h type (List.mem_of_getElem? hown) .self
      simp [hlookup, pure, Except.pure, bind, Except.bind]

end Avoids

end Store

namespace Store

section Checks

variable {store : Store} {signature : Signature} {type : Handle}

/-- Whether a type mentions another, found by walking it to a given height. -/
def mentionsPartWithin (store : Store) (part : Handle) : Nat → Handle → Bool
  | 0, _ => false
  | height + 1, type =>
      part == type ||
        match store.form type with
        | some form =>
            match form.shape with
            | .instantiation _ args => args.any (store.mentionsPartWithin part height)
            | .array element _ => store.mentionsPartWithin part height element
            | _ => false
        | none => false

/-- Whether a type mentions another. The parts of a type have smaller handles. -/
def mentionsPart (store : Store) (part type : Handle) : Bool :=
  store.mentionsPartWithin part (type + 1) type

theorem Coherent.instantiation_arg_lt (hs : store.Coherent) {form : Entry}
    (hform : store.form type = some form) {definition arg : Handle} {args : List Handle}
    (hshape : form.shape = .instantiation definition args) (harg : arg ∈ args) : arg < type := by
  obtain ⟨-, -, parts, hparts, -⟩ := hs.instantiation hform hshape
  obtain ⟨hlength, hall⟩ := forall₂_iff_getElem?.mp hparts
  obtain ⟨i, hi⟩ := List.getElem?_of_mem harg
  obtain ⟨part, hpart⟩ := getElem?_of_length_eq hlength.symm hi
  exact (hall i arg part hi hpart).1

theorem mentionsPartWithin_iff (hs : store.Coherent) {part : Handle} {height : Nat}
    (hheight : type < height) :
    store.mentionsPartWithin part height type = true ↔ store.Mentions part type := by
  induction height generalizing type with
  | zero => exact absurd hheight (Nat.not_lt_zero _)
  | succ height ih =>
      have hbelow : ∀ {other}, other < type → other < height := fun h =>
        Nat.lt_of_lt_of_le h (Nat.le_of_lt_succ hheight)
      rw [mentionsPartWithin, Bool.or_eq_true, beq_iff_eq]
      constructor
      · rintro (rfl | h)
        · exact .self
        · cases hform : store.form type with
          | none => simp [hform] at h
          | some form =>
              rw [hform] at h
              simp only at h
              split at h
              · next definition args hshape =>
                  obtain ⟨arg, harg, h⟩ := List.any_eq_true.mp h
                  have hlt := hs.instantiation_arg_lt hform hshape harg
                  exact .argument hform hshape harg ((ih (hbelow hlt)).mp h)
              · next element rank hshape =>
                  obtain ⟨-, hlt, -⟩ := hs.array hform hshape
                  exact .element hform hshape ((ih (hbelow hlt)).mp h)
              · cases h
      · intro h
        cases h with
        | self => exact Or.inl rfl
        | argument hform hshape harg h =>
            refine Or.inr ?_
            rw [hform]
            simp only [hshape]
            have hlt := hs.instantiation_arg_lt hform hshape harg
            exact List.any_eq_true.mpr ⟨_, harg, (ih (hbelow hlt)).mpr h⟩
        | element hform hshape h =>
            refine Or.inr ?_
            rw [hform]
            simp only [hshape]
            obtain ⟨-, hlt, -⟩ := hs.array hform hshape
            exact (ih (hbelow hlt)).mpr h

/-- Whether the supertypes of every type mention only those type parameters of the callable that the
type mentions. -/
def isScoped (store : Store) (signature : Signature) : Bool :=
  (List.range store.size).all fun type =>
    match store.supertypes type with
    | .ok supers => supers.all fun super => signature.typeParams.all fun param =>
        !store.mentionsPart param super || store.mentionsPart param type
    | .error _ => true

theorem scoped_of_isScoped (hs : store.Coherent) (h : store.isScoped signature = true) :
    store.Scoped signature := by
  rintro type super ⟨supers, hsupers, hmem⟩ havoids param hparam hmentions
  have hlt : type < store.size := by
    obtain ⟨chain, hchain, -⟩ := Query.bind_eq_ok.mp hsupers
    obtain ⟨base, hbase, -⟩ := Query.bind_eq_ok.mp hchain
    obtain ⟨entry, hentry, -⟩ := Query.bind_eq_ok.mp hbase
    exact lt_of_entry (entry_eq_ok.mp hentry)
  have htype := List.all_eq_true.mp h type (List.mem_range.mpr hlt)
  rw [hsupers] at htype
  have hsuper := List.all_eq_true.mp (List.all_eq_true.mp htype super hmem) param hparam
  rw [Bool.or_eq_true, Bool.not_eq_true', ← Bool.not_eq_true, mentionsPart,
    mentionsPartWithin_iff hs (Nat.lt_succ_self super), mentionsPart,
    mentionsPartWithin_iff hs (Nat.lt_succ_self type)] at hsuper
  exact hsuper.elim (absurd hmentions) (havoids param hparam)

end Checks

end Store

namespace Assignability

variable {store : Store} {signature : Signature}

/-- Between types that mention no type parameter of the callable, the binding of a call makes no
difference. -/
theorem agree_avoiding (hs : store.WellFormed) (hcallable : store.HasCallable signature)
    (hscoped : store.Scoped signature) (types : List Handle) :
    Agree store store (signature.binding types) .empty (store.Outside signature) where
  entry _ := rfl
  resolve h := h.2.resolve hs.coherent hcallable h.1 types
  resolve' h := Substitution.resolve_empty h.1
  argument h hform harg := by
    obtain ⟨_, hpart, -⟩ := hs.coherent.argument hform harg
    exact ⟨Store.form_lt hpart, h.2.argument hs.coherent hcallable hform harg⟩
  element h hform harray := by
    obtain ⟨_, hpart, -⟩ := hs.coherent.element hform harray
    exact ⟨Store.form_lt hpart, h.2.element hform harray⟩
  supertype h hsuper := ⟨⟨hsuper.lt hs h.1, hscoped _ _ hsuper h.2⟩, hsuper⟩
  variance _ _ _ := rfl
  root := rfl
  optionalWrapper := rfl
  sequenceInterfaces := rfl

/-- Identical types outside the callable are the same. -/
theorem eq_of_identical_outside (hs : store.WellFormed) (hcallable : store.HasCallable signature)
    (hscoped : store.Scoped signature) {types : List Handle} {a b : Handle}
    (h : Substitution.Identical store (signature.binding types) a b)
    (ha : store.Outside signature a) (hb : store.Outside signature b) : a = b := by
  have hagree := agree_avoiding hs hcallable hscoped types
  exact h.eq_of_rigid hs.coherent (fun _ => hagree.resolve) (fun _ _ _ => hagree.argument)
    (fun _ _ _ _ => hagree.element) ha hb

end Assignability

end NominalGenerics
