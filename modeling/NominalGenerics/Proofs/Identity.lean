import NominalGenerics.Proofs.Store.Replacement
import NominalGenerics.Substitution

/-!
# Identity under a substitution

Two types are identical under a substitution if they are the same after bound parameters are
replaced, or arrays of one rank with identical elements, or one definition applied to identical
arguments. `Substitution.equal` decides this, if the substitution binds parameters to types without
parameters: such types are identical only if they are the same handle, because coherent stores hold
every type once, and every step into an open type comes closer to a closed one.
-/

namespace NominalGenerics.Substitution

variable {store : Store} {sub : Substitution}

/-- The substitution binds parameters to types of the store that mention no parameter. -/
def BindsClosed (sub : Substitution) (store : Store) : Prop :=
  ∀ type ∈ sub.typeArgs ++ sub.callableArgs, ∃ form, store.form type = some form ∧
    form.isOpen = false

theorem bindsClosed_empty : Substitution.empty.BindsClosed store := by simp [BindsClosed, empty]

/-- Identity of two types under a substitution. -/
inductive Identical (store : Store) (sub : Substitution) : Handle → Handle → Prop
  | same {a b c : Handle} (ha : sub.resolve store a = .ok c) (hb : sub.resolve store b = .ok c) :
      Identical store sub a b
  | array {a b a' b' aElement bElement : Handle} {rank : Nat}
      (ha : sub.resolve store a = .ok a') (hb : sub.resolve store b = .ok b')
      (haa : store.IsArray aElement rank a') (hba : store.IsArray bElement rank b')
      (helement : Identical store sub aElement bElement) : Identical store sub a b
  | application {a b a' b' definition : Handle} {aArgs bArgs : List Handle}
      (ha : sub.resolve store a = .ok a') (hb : sub.resolve store b = .ok b')
      (haa : store.Applies definition aArgs a') (hba : store.Applies definition bArgs b')
      (hargs : ∀ (i : Nat) x y, aArgs[i]? = some x → bArgs[i]? = some y →
        Identical store sub x y) : Identical store sub a b

theorem Identical.symm {a b : Handle} (h : Identical store sub a b) : Identical store sub b a := by
  induction h with
  | same ha hb => exact .same hb ha
  | array ha hb haa hba _ ih => exact .array hb ha hba haa ih
  | application ha hb haa hba _ ih =>
      exact .application hb ha hba haa fun i x y hx hy => ih i y x hy hx

section Resolution

variable {type resolved : Handle} {form : Entry}

theorem lookup?_mem {info : TypeParam} (h : sub.lookup? info = some resolved) :
    resolved ∈ sub.typeArgs ++ sub.callableArgs := by
  unfold lookup? at h
  split at h
  · split at h
    · exact List.mem_append_left _ (List.mem_of_getElem? h)
    · cases h
  · split at h
    · exact List.mem_append_right _ (List.mem_of_getElem? h)
    · cases h

/-- A type resolves to itself or, if it is a bound parameter, to its argument. -/
theorem resolve_cases (sub : Substitution) (hlt : type < store.size) :
    ∃ resolved, sub.resolve store type = .ok resolved ∧
      (resolved = type ∨ resolved ∈ sub.typeArgs ++ sub.callableArgs) := by
  obtain ⟨entry, hentry⟩ := Store.entry_of_lt hlt
  refine ⟨(entry.param?.bind sub.lookup?).getD type, ?_, ?_⟩
  · rw [resolve, Store.param?, Store.query_of_entry hentry (·.param?)]
    rfl
  · cases h : entry.param?.bind sub.lookup? with
    | none => exact Or.inl rfl
    | some arg =>
        obtain ⟨info, -, hlookup⟩ := Option.bind_eq_some_iff.mp h
        exact Or.inr (lookup?_mem hlookup)

theorem resolve_of_not_parameter (hform : store.form type = some form)
    (hshape : form.isParameter = false) : sub.resolve store type = .ok type := by
  obtain ⟨entry, hentry, rfl⟩ := Store.form_eq_some.mp hform
  have hnone : entry.param? = none := by
    rw [Entry.form_isParameter, Entry.isParameter] at hshape
    rw [Entry.param?]
    split
    · next info h => rw [h] at hshape; cases hshape
    · rfl
  rw [resolve, Store.param?, Store.query_of_entry hentry (·.param?), hnone]
  rfl

theorem isParameter_of_closed (hs : store.Coherent) (hform : store.form type = some form)
    (hclosed : form.isOpen = false) : form.isParameter = false := by
  rw [Entry.isParameter]
  split
  · next info hshape => cases hclosed.symm.trans (hs.parameter hform hshape).1
  · rfl

/-- A type without parameters resolves to itself. -/
theorem resolve_closed (hs : store.Coherent) (hform : store.form type = some form)
    (hclosed : form.isOpen = false) : sub.resolve store type = .ok type :=
  resolve_of_not_parameter hform (isParameter_of_closed hs hform hclosed)

theorem resolve_empty (hlt : type < store.size) :
    Substitution.empty.resolve store type = .ok type := by
  obtain ⟨resolved, hresolved, rfl | hmem⟩ := resolve_cases .empty hlt
  · exact hresolved
  · simp [empty] at hmem

theorem resolve_lt (hsub : sub.BindsClosed store) (hlt : type < store.size)
    (h : sub.resolve store type = .ok resolved) : resolved < store.size := by
  obtain ⟨resolved', h', rfl | hmem⟩ := resolve_cases sub hlt
  · obtain rfl := Except.ok.inj (h.symm.trans h')
    exact hlt
  · obtain rfl := Except.ok.inj (h.symm.trans h')
    obtain ⟨form, hform, -⟩ := hsub resolved hmem
    exact Store.form_lt hform

/-- Resolving twice is resolving once. -/
theorem resolve_resolved (hs : store.Coherent) (hsub : sub.BindsClosed store)
    (hlt : type < store.size) (h : sub.resolve store type = .ok resolved) :
    sub.resolve store resolved = .ok resolved := by
  obtain ⟨resolved', h', rfl | hmem⟩ := resolve_cases sub hlt
  · obtain rfl := Except.ok.inj (h.symm.trans h')
    exact h
  · obtain rfl := Except.ok.inj (h.symm.trans h')
    obtain ⟨form, hform, hclosed⟩ := hsub resolved hmem
    exact resolve_closed hs hform hclosed

end Resolution

/-- How far a walk into a type can go before it ends. Parts of a closed type are closed and have
smaller handles; a definition has only parameters below it; everything else has smaller handles or
closed types below it. -/
def weight (store : Store) (type : Handle) : Nat :=
  match store.form type with
  | none => 0
  | some form =>
      if form.isOpen then
        match form.shape with
        | .parameter _ => 0
        | .definition _ => store.size
        | _ => store.size + 1 + type
      else type

section Weight

variable {type part resolved : Handle} {form : Entry}

theorem weight_closed (hform : store.form type = some form) (hclosed : form.isOpen = false) :
    weight store type = type := by
  rw [weight, hform]
  simp [hclosed]

theorem weight_le (hform : store.form type = some form) :
    weight store type ≤ store.size + 1 + type := by
  have hlt := Store.form_lt hform
  rw [weight, hform]
  simp only
  split
  · split <;> simp only [Handle] at * <;> omega
  · simp only [Handle] at *
    omega

/-- A bound argument weighs less than anything built from open types. -/
theorem weight_argument_lt (hsub : sub.BindsClosed store)
    (hmem : resolved ∈ sub.typeArgs ++ sub.callableArgs) : weight store resolved < store.size := by
  obtain ⟨form, hform, hclosed⟩ := hsub resolved hmem
  rw [weight_closed hform hclosed]
  exact Store.form_lt hform

/-- A part of a type weighs less than the type, also after resolution. -/
theorem weight_lt (hs : store.Coherent) (hsub : sub.BindsClosed store)
    (hform : store.form type = some form)
    (hpart : part ∈ form.arguments ∨ ∃ rank, form.array? = some (part, rank))
    (hresolved : sub.resolve store part = .ok resolved) :
    weight store resolved < weight store type := by
  have hlt := Store.form_lt hform
  cases hopen : form.isOpen with
  | false =>
      obtain ⟨pform, hpform, hpclosed, hplt⟩ : ∃ pform, store.form part = some pform ∧
          pform.isOpen = false ∧ part < type := by
        rcases hpart with harg | ⟨rank, harray⟩
        · obtain ⟨pform, hpform, hclosed⟩ := hs.argument hform harg
          exact ⟨pform, hpform, hclosed hopen⟩
        · obtain ⟨pform, hpform, hsame, hplt⟩ := hs.element hform harray
          exact ⟨pform, hpform, hsame.trans hopen, hplt⟩
      obtain rfl := Except.ok.inj ((resolve_closed hs hpform hpclosed).symm.trans hresolved)
      rw [weight_closed hpform hpclosed, weight_closed hform hopen]
      exact hplt
  | true =>
      -- Below an open instantiation or array there are smaller handles or bound arguments.
      have hbelow : part < type → weight store type = store.size + 1 + type →
          weight store resolved < weight store type := by
        intro hplt hweight
        obtain ⟨pform, hpform⟩ := Store.form_isSome (Nat.lt_trans hplt hlt)
        obtain ⟨_, h, rfl | hmem⟩ := resolve_cases sub (Nat.lt_trans hplt hlt)
        · obtain rfl := Except.ok.inj (h.symm.trans hresolved)
          have hle := weight_le hpform
          simp only [Handle] at *
          omega
        · obtain rfl := Except.ok.inj (h.symm.trans hresolved)
          have hle := weight_argument_lt hsub hmem
          omega
      cases hshape : form.shape with
      | definition params =>
          have hweight : weight store type = store.size := by
            rw [weight, hform]
            simp [hopen, hshape]
          have harg : part ∈ params := by
            simpa [Entry.arguments, Entry.array?, hshape] using hpart
          obtain ⟨i, hi⟩ := List.getElem?_of_mem harg
          obtain ⟨pform, info, hpform, hpshape, -⟩ := hs.paramAt hform hshape hi
          rw [hweight]
          obtain ⟨_, h, rfl | hmem⟩ := resolve_cases sub (Store.form_lt hpform)
          · obtain rfl := Except.ok.inj (h.symm.trans hresolved)
            rw [weight, hpform]
            simp only [(hs.parameter hpform hpshape).1, hpshape, if_true]
            exact Nat.zero_lt_of_lt hlt
          · obtain rfl := Except.ok.inj (h.symm.trans hresolved)
            exact weight_argument_lt hsub hmem
      | instantiation definition args =>
          have harg : part ∈ args := by
            simpa [Entry.arguments, Entry.array?, hshape] using hpart
          obtain ⟨-, -, parts, hparts, -⟩ := hs.instantiation hform hshape
          obtain ⟨i, hi⟩ := List.getElem?_of_mem harg
          obtain ⟨part', hpart'⟩ := getElem?_of_length_eq hparts.length_eq.symm hi
          refine hbelow ((forall₂_iff_getElem?.mp hparts).2 i part part' hi hpart').1 ?_
          rw [weight, hform]
          simp [hopen, hshape]
      | array element rank =>
          obtain rfl : element = part := by
            simpa [Entry.arguments, Entry.array?, hshape] using hpart
          refine hbelow (hs.array hform hshape).2.1 ?_
          rw [weight, hform]
          simp [hopen, hshape]
      | named => simp [Entry.arguments, Entry.array?, hshape] at hpart
      | parameter info => simp [Entry.arguments, Entry.array?, hshape] at hpart

/-- The fuel of `equal` is enough for every walk. -/
theorem weight_lt_fuel (hs : store.Coherent) (hform : store.form type = some form) :
    weight store type < store.size * store.size + 1 := by
  have hlt := Store.form_lt hform
  have hsquare : store.size ≤ store.size * store.size := Nat.le_mul_self store.size
  have hroot : type = 0 → form.isOpen = false := by
    rintro rfl
    obtain ⟨-, rform, hrform, hrshape⟩ := hs.root
    obtain rfl := Option.some.inj (hrform.symm.trans hform)
    exact (hs.named hrform hrshape).1
  rw [weight, hform]
  simp only
  split
  · next hopen =>
      have hpos : 1 ≤ type := Nat.one_le_iff_ne_zero.mpr fun h => by simp [hroot h] at hopen
      have hdouble : 2 * store.size ≤ store.size * store.size :=
        Nat.mul_le_mul_right store.size (Nat.lt_of_le_of_lt hpos hlt)
      split <;> simp only [Handle] at * <;> omega
  · simp only [Handle] at *
    omega

end Weight

theorem Identical.refl {a : Handle} (ha : a < store.size) : Identical store sub a a := by
  obtain ⟨a', hra, -⟩ := resolve_cases sub ha
  exact .same hra hra

/-- A type identical to an array is an array of identical elements. -/
theorem Identical.of_isArray (hs : store.Coherent) {a b element : Handle} {rank : Nat}
    (h : Identical store sub a b) (ha : sub.resolve store a = .ok a)
    (hb : sub.resolve store b = .ok b) (harray : store.IsArray element rank a) :
    ∃ element', store.IsArray element' rank b ∧ Identical store sub element element' := by
  cases h with
  | same ha' hb' =>
      obtain rfl := Except.ok.inj (ha.symm.trans ha')
      obtain rfl := Except.ok.inj (hb.symm.trans hb')
      obtain ⟨form, hform, helement, -⟩ := harray.exists_form
      obtain ⟨_, hpart, -⟩ := hs.element hform helement
      exact ⟨element, harray, .refl (Store.form_lt hpart)⟩
  | array ha' hb' haa hba helement =>
      obtain rfl := Except.ok.inj (ha.symm.trans ha')
      obtain rfl := Except.ok.inj (hb.symm.trans hb')
      obtain ⟨rfl, rfl⟩ := harray.inj haa
      exact ⟨_, hba, helement⟩
  | application ha' hb' haa _ _ =>
      obtain rfl := Except.ok.inj (ha.symm.trans ha')
      obtain ⟨form, hform, -, -, hnone⟩ := haa.exists_form
      obtain ⟨form', hform', hsome, -⟩ := harray.exists_form
      obtain rfl := Option.some.inj (hform.symm.trans hform')
      cases hnone.symm.trans hsome

/-- A type identical to the application of a definition applies it to identical arguments. -/
theorem Identical.of_applies (hs : store.Coherent) {a b definition : Handle} {args : List Handle}
    (h : Identical store sub a b) (ha : sub.resolve store a = .ok a)
    (hb : sub.resolve store b = .ok b) (happlies : store.Applies definition args a) :
    ∃ args', store.Applies definition args' b ∧
      ∀ (i : Nat) x y, args[i]? = some x → args'[i]? = some y → Identical store sub x y := by
  cases h with
  | same ha' hb' =>
      obtain rfl := Except.ok.inj (ha.symm.trans ha')
      obtain rfl := Except.ok.inj (hb.symm.trans hb')
      refine ⟨args, happlies, fun i x y hx hy => ?_⟩
      obtain rfl := Option.some.inj (hx.symm.trans hy)
      obtain ⟨form, hform, -, rfl, -⟩ := happlies.exists_form
      obtain ⟨_, hpart, -⟩ := hs.argument hform (List.mem_of_getElem? hx)
      exact .refl (Store.form_lt hpart)
  | array ha' hb' haa _ _ =>
      obtain rfl := Except.ok.inj (ha.symm.trans ha')
      obtain ⟨form, hform, hsome, -⟩ := haa.exists_form
      obtain ⟨form', hform', -, -, hnone⟩ := happlies.exists_form
      obtain rfl := Option.some.inj (hform.symm.trans hform')
      cases hnone.symm.trans hsome
  | application ha' hb' haa hba hargs =>
      obtain rfl := Except.ok.inj (ha.symm.trans ha')
      obtain rfl := Except.ok.inj (hb.symm.trans hb')
      obtain ⟨rfl, rfl⟩ := happlies.inj haa
      exact ⟨_, hba, hargs⟩

/-- Types that the substitution leaves alone with all their parts are identical only if they are the
same. -/
theorem Identical.eq_of_rigid (hs : store.Coherent) {P : Handle → Prop} {a b : Handle}
    (hresolve : ∀ type, P type → sub.resolve store type = .ok type)
    (hargument : ∀ type form arg, P type → store.form type = some form → arg ∈ form.arguments → P arg)
    (helement : ∀ type form element rank, P type → store.form type = some form →
      form.array? = some (element, rank) → P element)
    (h : Identical store sub a b) (ha : P a) (hb : P b) : a = b := by
  induction h with
  | same ha' hb' =>
      obtain rfl := Except.ok.inj ((hresolve _ ha).symm.trans ha')
      exact Except.ok.inj (hb'.symm.trans (hresolve _ hb))
  | array ha' hb' haa hba _ ih =>
      obtain rfl := Except.ok.inj ((hresolve _ ha).symm.trans ha')
      obtain rfl := Except.ok.inj ((hresolve _ hb).symm.trans hb')
      obtain ⟨aForm, haForm, haArray, -⟩ := haa.exists_form
      obtain ⟨bForm, hbForm, hbArray, -⟩ := hba.exists_form
      obtain rfl := ih (helement _ _ _ _ ha haForm haArray) (helement _ _ _ _ hb hbForm hbArray)
      exact hs.isArray_unique haa hba
  | application ha' hb' haa hba _ ih =>
      obtain rfl := Except.ok.inj ((hresolve _ ha).symm.trans ha')
      obtain rfl := Except.ok.inj ((hresolve _ hb).symm.trans hb')
      obtain ⟨aForm, haForm, -, haArgs, -⟩ := haa.exists_form
      obtain ⟨bForm, hbForm, -, hbArgs, -⟩ := hba.exists_form
      obtain rfl := eq_of_getElem? (Store.Applies.length_eq haa hba) fun i x y hx hy =>
        ih i x y hx hy (hargument _ _ _ ha haForm (haArgs ▸ List.mem_of_getElem? hx))
          (hargument _ _ _ hb hbForm (hbArgs ▸ List.mem_of_getElem? hy))
      exact hs.applies_unique haa hba

/-- Closed types are identical only if they are the same. -/
theorem Identical.eq_of_closed (hs : store.Coherent) {a b : Handle} {aForm bForm : Entry}
    (h : Identical store sub a b) (ha : store.form a = some aForm) (hb : store.form b = some bForm)
    (haClosed : aForm.isOpen = false) (hbClosed : bForm.isOpen = false) : a = b := by
  refine h.eq_of_rigid hs (P := fun type => ∃ form, store.form type = some form ∧
    form.isOpen = false) ?_ ?_ ?_ ⟨aForm, ha, haClosed⟩ ⟨bForm, hb, hbClosed⟩
  · rintro type ⟨form, hform, hclosed⟩
    exact resolve_closed hs hform hclosed
  · rintro type form arg ⟨_, hform', hclosed⟩ hform harg
    obtain rfl := Option.some.inj (hform'.symm.trans hform)
    obtain ⟨part, hpart, hpartClosed⟩ := hs.argument hform harg
    exact ⟨part, hpart, (hpartClosed hclosed).1⟩
  · rintro type form element rank ⟨_, hform', hclosed⟩ hform harray
    obtain rfl := Option.some.inj (hform'.symm.trans hform)
    obtain ⟨part, hpart, hopen, -⟩ := hs.element hform harray
    exact ⟨part, hpart, hopen.trans hclosed⟩

/-- Without a substitution, types are identical only if they are the same. -/
theorem Identical.eq_of_empty (hs : store.Coherent) {a b : Handle}
    (h : Identical store .empty a b) (ha : a < store.size) (hb : b < store.size) : a = b := by
  refine h.eq_of_rigid hs (P := (· < store.size)) (fun _ => resolve_empty) ?_ ?_ ha hb
  · intro type form arg _ hform harg
    obtain ⟨_, hpart, -⟩ := hs.argument hform harg
    exact Store.form_lt hpart
  · intro type form element rank _ hform harray
    obtain ⟨_, hpart, -⟩ := hs.element hform harray
    exact Store.form_lt hpart

section Deciding

variable {a b a' b' : Handle}

/-- What identity means for two types that are not arrays. -/
theorem identical_iff_definition (hs : store.Coherent) {aForm bForm : Entry}
    (ha : sub.resolve store a = .ok a') (hb : sub.resolve store b = .ok b')
    (haForm : store.form a' = some aForm) (hbForm : store.form b' = some bForm) (hne : a' ≠ b')
    (harray : aForm.array? = none ∨ bForm.array? = none) :
    Identical store sub a b ↔
      ∃ definition, aForm.definition? a' = some definition ∧
        bForm.definition? b' = some definition ∧
        ∀ (i : Nat) x y, aForm.arguments[i]? = some x → bForm.arguments[i]? = some y →
          Identical store sub x y := by
  constructor
  · intro h
    cases h with
    | same ha₁ hb₁ =>
        obtain rfl := Except.ok.inj (ha.symm.trans ha₁)
        exact absurd (Except.ok.inj (hb₁.symm.trans hb)) hne
    | array ha₁ hb₁ haa hba _ =>
        obtain rfl := Except.ok.inj (ha.symm.trans ha₁)
        obtain rfl := Except.ok.inj (hb.symm.trans hb₁)
        obtain ⟨aForm', haForm', haArray, -⟩ := haa.exists_form
        obtain ⟨bForm', hbForm', hbArray, -⟩ := hba.exists_form
        obtain rfl := Option.some.inj (haForm.symm.trans haForm')
        obtain rfl := Option.some.inj (hbForm.symm.trans hbForm')
        simp [haArray, hbArray] at harray
    | application ha₁ hb₁ haa hba hargs =>
        obtain rfl := Except.ok.inj (ha.symm.trans ha₁)
        obtain rfl := Except.ok.inj (hb.symm.trans hb₁)
        obtain ⟨aForm', haForm', haDef, haArgs, -⟩ := haa.exists_form
        obtain ⟨bForm', hbForm', hbDef, hbArgs, -⟩ := hba.exists_form
        obtain rfl := Option.some.inj (haForm.symm.trans haForm')
        obtain rfl := Option.some.inj (hbForm.symm.trans hbForm')
        subst haArgs hbArgs
        exact ⟨_, haDef, hbDef, hargs⟩
  · rintro ⟨definition, haDef, hbDef, hargs⟩
    exact .application ha hb (hs.applies_of_form haForm haDef) (hs.applies_of_form hbForm hbDef)
      hargs

theorem identical_iff_array {aElement bElement : Handle} {aRank bRank : Nat}
    (ha : sub.resolve store a = .ok a') (hb : sub.resolve store b = .ok b')
    (haArray : store.IsArray aElement aRank a') (hbArray : store.IsArray bElement bRank b')
    (hne : a' ≠ b') :
    Identical store sub a b ↔ aRank = bRank ∧ Identical store sub aElement bElement := by
  constructor
  · intro h
    cases h with
    | same ha₁ hb₁ =>
        obtain rfl := Except.ok.inj (ha.symm.trans ha₁)
        exact absurd (Except.ok.inj (hb₁.symm.trans hb)) hne
    | array ha₁ hb₁ haa hba helement =>
        obtain rfl := Except.ok.inj (ha.symm.trans ha₁)
        obtain rfl := Except.ok.inj (hb.symm.trans hb₁)
        obtain ⟨rfl, rfl⟩ := haArray.inj haa
        obtain ⟨rfl, rfl⟩ := hbArray.inj hba
        exact ⟨rfl, helement⟩
    | application ha₁ _ haa _ _ =>
        obtain rfl := Except.ok.inj (ha.symm.trans ha₁)
        obtain ⟨form, hform, -, hnone⟩ := haArray.exists_form
        obtain ⟨form', hform', hsome, -⟩ := haa.exists_form
        obtain rfl := Option.some.inj (hform.symm.trans hform')
        rw [hnone] at hsome
        cases hsome
  · rintro ⟨rfl, helement⟩
    exact .array ha hb haArray hbArray helement

/-- Identity is not changed by resolving either side. -/
theorem Identical.resolved (hs : store.Coherent) (hsub : sub.BindsClosed store)
    (ha : a < store.size) (hb : b < store.size) (hra : sub.resolve store a = .ok a')
    (hrb : sub.resolve store b = .ok b') (h : Identical store sub a b) :
    Identical store sub a' b' := by
  have ha' := resolve_resolved hs hsub ha hra
  have hb' := resolve_resolved hs hsub hb hrb
  cases h with
  | same ha₁ hb₁ =>
      obtain rfl := Except.ok.inj (hra.symm.trans ha₁)
      obtain rfl := Except.ok.inj (hrb.symm.trans hb₁)
      exact .same ha' hb'
  | array ha₁ hb₁ haa hba helement =>
      obtain rfl := Except.ok.inj (hra.symm.trans ha₁)
      obtain rfl := Except.ok.inj (hrb.symm.trans hb₁)
      exact .array ha' hb' haa hba helement
  | application ha₁ hb₁ haa hba hargs =>
      obtain rfl := Except.ok.inj (hra.symm.trans ha₁)
      obtain rfl := Except.ok.inj (hrb.symm.trans hb₁)
      exact .application ha' hb' haa hba hargs

theorem equalWithin_answers (hs : store.Coherent) (hsub : sub.BindsClosed store) {fuel : Nat}
    (ha : a < store.size) (hb : b < store.size) (hra : sub.resolve store a = .ok a')
    (hfuel : weight store a' < fuel) :
    Query.Answers (sub.equalWithin store fuel a b) (Identical store sub a b) := by
  induction fuel generalizing a b a' with
  | zero => exact absurd hfuel (Nat.not_lt_zero _)
  | succ fuel ih =>
      obtain ⟨b', hrb, -⟩ := resolve_cases sub hb
      obtain ⟨aForm, haForm⟩ := Store.form_isSome (resolve_lt hsub ha hra)
      obtain ⟨bForm, hbForm⟩ := Store.form_isSome (resolve_lt hsub hb hrb)
      rw [equalWithin, hra, Query.ok_bind, hrb, Query.ok_bind]
      split
      · next heq =>
          subst heq
          exact Query.answers_true (.same hra hrb)
      · next hne =>
          rw [Store.isOpen_of_form haForm, Query.ok_bind, Store.isOpen_of_form hbForm,
            Query.ok_bind]
          split
          · next hclosed =>
              refine Query.answers_false fun h => hne ?_
              simp only [Bool.and_eq_true, Bool.not_eq_true'] at hclosed
              exact (h.resolved hs hsub ha hb hra hrb).eq_of_closed hs haForm hbForm hclosed.1
                hclosed.2
          · rw [Store.array?_of_form haForm, Query.ok_bind, Store.array?_of_form hbForm,
              Query.ok_bind]
            -- A part of the first type weighs less than the type, so the fuel lasts for it.
            have hpart : ∀ x y, (x ∈ aForm.arguments ∨ ∃ rank, aForm.array? = some (x, rank)) →
                x < store.size → y < store.size →
                Query.Answers (sub.equalWithin store fuel x y) (Identical store sub x y) := by
              intro x y hx hxlt hylt
              obtain ⟨x', hrx, -⟩ := resolve_cases sub hxlt
              have hweight := weight_lt hs hsub haForm hx hrx
              exact ih hxlt hylt hrx (by omega)
            split
            · next aElement aRank bElement bRank haArray hbArray =>
                have hidentical := identical_iff_array hra hrb (Store.isArray_of_form haForm haArray)
                  (Store.isArray_of_form hbForm hbArray) hne
                obtain ⟨_, haPart, -⟩ := hs.element haForm haArray
                obtain ⟨_, hbPart, -⟩ := hs.element hbForm hbArray
                split
                · next hrank =>
                    refine (hpart aElement bElement (Or.inr ⟨aRank, haArray⟩)
                      (Store.form_lt haPart) (Store.form_lt hbPart)).congr ?_
                    rw [hidentical]
                    exact ⟨fun h => ⟨hrank, h⟩, And.right⟩
                · next hrank => exact Query.answers_false fun h => hrank (hidentical.mp h).1
            · next hnot =>
                have harray : aForm.array? = none ∨ bForm.array? = none := by
                  cases haArray : aForm.array? with
                  | none => exact Or.inl rfl
                  | some aShape =>
                      cases hbArray : bForm.array? with
                      | none => exact Or.inr rfl
                      | some bShape => exact absurd hbArray (hnot _ _ _ _ haArray)
                have hidentical := identical_iff_definition hs hra hrb haForm hbForm hne harray
                rw [Store.definition?_of_form haForm, Query.ok_bind,
                  Store.definition?_of_form hbForm, Query.ok_bind]
                split
                · next aDefinition bDefinition haDef hbDef =>
                    split
                    · next hdef =>
                        subst hdef
                        rw [Store.arguments_of_form haForm, Query.ok_bind,
                          Store.arguments_of_form hbForm, Query.ok_bind]
                        have hlength := (hs.applies_of_form haForm haDef).length_eq
                          (hs.applies_of_form hbForm hbDef)
                        rw [if_pos hlength]
                        refine (Query.answers_allM (P := fun p => Identical store sub p.1 p.2)
                          fun p hp => ?_).congr ?_
                        · obtain ⟨hx, hy⟩ := List.of_mem_zip hp
                          obtain ⟨_, hxPart, -⟩ := hs.argument haForm hx
                          obtain ⟨_, hyPart, -⟩ := hs.argument hbForm hy
                          exact hpart p.1 p.2 (Or.inl hx) (Store.form_lt hxPart)
                            (Store.form_lt hyPart)
                        · rw [hidentical]
                          constructor
                          · intro hall
                            exact ⟨aDefinition, haDef, hbDef, forall_mem_zip.mp hall⟩
                          · rintro ⟨-, -, -, hall⟩
                            exact forall_mem_zip.mpr hall
                    · next hdef =>
                        refine Query.answers_false fun h => hdef ?_
                        obtain ⟨definition, haDef', hbDef', -⟩ := hidentical.mp h
                        rw [haDef] at haDef'
                        rw [hbDef] at hbDef'
                        exact Option.some.inj (haDef'.trans hbDef'.symm)
                · next hnone =>
                    refine Query.answers_false fun h => ?_
                    obtain ⟨definition, haDef, hbDef, -⟩ := hidentical.mp h
                    exact hnone definition definition haDef hbDef

/-- `equal` decides identity. -/
theorem equal_answers (hs : store.Coherent) (hsub : sub.BindsClosed store) (ha : a < store.size)
    (hb : b < store.size) : Query.Answers (sub.equal store a b) (Identical store sub a b) := by
  obtain ⟨a', hra, -⟩ := resolve_cases sub ha
  obtain ⟨aForm, haForm⟩ := Store.form_isSome (resolve_lt hsub ha hra)
  exact equalWithin_answers hs hsub ha hb hra (weight_lt_fuel hs haForm)

end Deciding

end NominalGenerics.Substitution
