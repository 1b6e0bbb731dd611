import NominalGenerics.Proofs.LazySubstitution
import NominalGenerics.Proofs.Store.HashConsing

/-!
# What types denote

Under a substitution a type denotes a tree: a declared type or a type parameter is a leaf, a
definition is applied to trees, an array has a tree as its element. A bound parameter denotes what
its argument denotes, and a definition that is mentioned bare is applied to its own parameters. The
trees do not depend on the handles that the store gives to instantiations and arrays.

Every type denotes one tree, and `Substitution.equal` decides whether two types denote the same one.
-/

namespace NominalGenerics

/-- A type written out, down to declared types and type parameters. -/
inductive TypeTree where
  | named (type : Handle)
  | parameter (param : Handle)
  | application (definition : Handle) (args : List TypeTree)
  | array (element : TypeTree) (rank : Nat)

namespace Substitution

variable {store : Store} {sub : Substitution}

/-- The substitution binds the parameter at a position of its owner to `arg`. -/
def Assigns (sub : Substitution) (owner : ParamOwner) (position : Nat) (arg : Handle) : Prop :=
  (∃ definition, owner = .type definition ∧ sub.typeOwner = some definition ∧
      sub.typeArgs[position]? = some arg) ∨
    ∃ id, owner = .callable id ∧ sub.callable = some id ∧ sub.callableArgs[position]? = some arg

/-- The tree that a type denotes under a substitution. Arguments are not substituted again. -/
inductive Denotes (store : Store) : Substitution → Handle → TypeTree → Prop
  | named {sub : Substitution} {type : Handle} {form : Entry} (hform : store.form type = some form)
      (hshape : form.shape = .named) : Denotes store sub type (.named type)
  | unbound {sub : Substitution} {type : Handle} {form : Entry} {info : TypeParam}
      (hform : store.form type = some form) (hshape : form.shape = .parameter info)
      (hfree : ∀ arg, ¬ sub.Assigns info.owner info.position arg) :
      Denotes store sub type (.parameter type)
  | bound {sub : Substitution} {type arg : Handle} {form : Entry} {info : TypeParam}
      {tree : TypeTree} (hform : store.form type = some form)
      (hshape : form.shape = .parameter info)
      (hassigns : sub.Assigns info.owner info.position arg) (harg : Denotes store .empty arg tree) :
      Denotes store sub type tree
  | definition {sub : Substitution} {type : Handle} {form : Entry} {params : List Handle}
      {trees : List TypeTree} (hform : store.form type = some form)
      (hshape : form.shape = .definition params) (hlength : params.length = trees.length)
      (hparts : ∀ (i : Nat) param tree, params[i]? = some param → trees[i]? = some tree →
        Denotes store sub param tree) : Denotes store sub type (.application type trees)
  | instantiation {sub : Substitution} {type head : Handle} {form : Entry} {args : List Handle}
      {trees : List TypeTree} (hform : store.form type = some form)
      (hshape : form.shape = .instantiation head args) (hlength : args.length = trees.length)
      (hparts : ∀ (i : Nat) arg tree, args[i]? = some arg → trees[i]? = some tree →
        Denotes store sub arg tree) : Denotes store sub type (.application head trees)
  | array {sub : Substitution} {type element : Handle} {form : Entry} {rank : Nat}
      {tree : TypeTree} (hform : store.form type = some form)
      (hshape : form.shape = .array element rank) (helement : Denotes store sub element tree) :
      Denotes store sub type (.array tree rank)

section Resolution

variable {type arg : Handle} {form : Entry} {info : TypeParam}

theorem lookup?_eq_some :
    sub.lookup? info = some arg ↔ sub.Assigns info.owner info.position arg := by
  unfold lookup? Assigns
  cases info.owner with
  | type definition =>
      by_cases h : sub.typeOwner = some definition <;> simp [h]
  | callable id =>
      by_cases h : sub.callable = some id <;> simp [h]

theorem Assigns.unique {owner : ParamOwner} {position : Nat} {arg' : Handle}
    (h : sub.Assigns owner position arg) (h' : sub.Assigns owner position arg') : arg = arg' := by
  rcases h with ⟨_, rfl, -, h⟩ | ⟨_, rfl, -, h⟩ <;>
    rcases h' with ⟨_, ⟨⟩, -, h'⟩ | ⟨_, ⟨⟩, -, h'⟩ <;> exact Option.some.inj (h.symm.trans h')

theorem Assigns.mem {owner : ParamOwner} {position : Nat} (h : sub.Assigns owner position arg) :
    arg ∈ sub.typeArgs ++ sub.callableArgs := by
  rcases h with ⟨_, -, -, h⟩ | ⟨_, -, -, h⟩
  · exact List.mem_append_left _ (List.mem_of_getElem? h)
  · exact List.mem_append_right _ (List.mem_of_getElem? h)

variable (sub) in
/-- A parameter resolves to the argument that it is bound to, or to itself. -/
theorem resolve_parameter (hform : store.form type = some form)
    (hshape : form.shape = .parameter info) :
    (∃ arg, sub.Assigns info.owner info.position arg ∧ sub.resolve store type = .ok arg) ∨
      (∀ arg, ¬ sub.Assigns info.owner info.position arg) ∧
        sub.resolve store type = .ok type := by
  obtain ⟨info', hparam, howner, hposition⟩ :=
    param?_of_paramAt (⟨form, info, hform, hshape, rfl, rfl⟩ : store.ParamAt type _ _)
  rw [← howner, ← hposition, resolve, hparam, Query.ok_bind, Option.bind_some]
  cases hlookup : sub.lookup? info' with
  | some arg => exact Or.inl ⟨arg, lookup?_eq_some.mp hlookup, rfl⟩
  | none =>
      refine Or.inr ⟨fun arg h => ?_, rfl⟩
      cases hlookup.symm.trans (lookup?_eq_some.mpr h)

end Resolution

section Trees

variable {a b type : Handle} {form : Entry} {tree : TypeTree}

/-- What a type denotes, read off its shape. -/
theorem denotes_iff (hform : store.form type = some form) :
    Denotes store sub type tree ↔
      match form.shape with
      | .named => tree = .named type
      | .parameter info =>
          (∃ arg, sub.Assigns info.owner info.position arg ∧ Denotes store .empty arg tree) ∨
            (∀ arg, ¬ sub.Assigns info.owner info.position arg) ∧ tree = .parameter type
      | .definition params =>
          ∃ trees, tree = .application type trees ∧ List.Forall₂ (Denotes store sub) params trees
      | .instantiation head args =>
          ∃ trees, tree = .application head trees ∧ List.Forall₂ (Denotes store sub) args trees
      | .array element rank =>
          ∃ part, tree = .array part rank ∧ Denotes store sub element part := by
  constructor
  · intro h
    cases h with
    | named hform' hshape =>
        obtain rfl := Option.some.inj (hform.symm.trans hform')
        rw [hshape]
    | unbound hform' hshape hfree =>
        obtain rfl := Option.some.inj (hform.symm.trans hform')
        rw [hshape]
        exact Or.inr ⟨hfree, rfl⟩
    | bound hform' hshape hassigns harg =>
        obtain rfl := Option.some.inj (hform.symm.trans hform')
        rw [hshape]
        exact Or.inl ⟨_, hassigns, harg⟩
    | definition hform' hshape hlength hparts =>
        obtain rfl := Option.some.inj (hform.symm.trans hform')
        rw [hshape]
        exact ⟨_, rfl, forall₂_iff_getElem?.mpr ⟨hlength, hparts⟩⟩
    | instantiation hform' hshape hlength hparts =>
        obtain rfl := Option.some.inj (hform.symm.trans hform')
        rw [hshape]
        exact ⟨_, rfl, forall₂_iff_getElem?.mpr ⟨hlength, hparts⟩⟩
    | array hform' hshape helement =>
        obtain rfl := Option.some.inj (hform.symm.trans hform')
        rw [hshape]
        exact ⟨_, rfl, helement⟩
  · intro h
    split at h
    · next hshape => exact h ▸ .named hform hshape
    · next info hshape =>
        obtain ⟨arg, hassigns, harg⟩ | ⟨hfree, rfl⟩ := h
        · exact .bound hform hshape hassigns harg
        · exact .unbound hform hshape hfree
    · next params hshape =>
        obtain ⟨trees, rfl, hparts⟩ := h
        obtain ⟨hlength, hparts⟩ := forall₂_iff_getElem?.mp hparts
        exact .definition hform hshape hlength hparts
    · next head args hshape =>
        obtain ⟨trees, rfl, hparts⟩ := h
        obtain ⟨hlength, hparts⟩ := forall₂_iff_getElem?.mp hparts
        exact .instantiation hform hshape hlength hparts
    · next element rank hshape =>
        obtain ⟨part, rfl, helement⟩ := h
        exact .array hform hshape helement

/-- An application denotes the application of its definition to what its arguments denote. -/
theorem denotes_applies {definition : Handle} {args : List Handle}
    (h : store.Applies definition args type) :
    Denotes store sub type tree ↔
      ∃ trees, tree = .application definition trees ∧
        List.Forall₂ (Denotes store sub) args trees := by
  obtain ⟨params, ⟨form, hform, hshape⟩, -, ⟨rfl, rfl⟩ | ⟨-, form', hform', hshape'⟩⟩ := h
  · rw [denotes_iff hform, hshape]
  · rw [denotes_iff hform', hshape']

theorem denotes_isArray {element : Handle} {rank : Nat} (h : store.IsArray element rank type) :
    Denotes store sub type tree ↔
      ∃ part, tree = .array part rank ∧ Denotes store sub element part := by
  obtain ⟨form, hform, hshape⟩ := h
  rw [denotes_iff hform, hshape]

/-- A closed type denotes the same under all substitutions. -/
theorem Denotes.closed (hs : store.Coherent) {other : Substitution}
    (h : Denotes store sub type tree) (hform : store.form type = some form)
    (hclosed : form.isOpen = false) : Denotes store other type tree := by
  induction h generalizing form with
  | named hform' hshape => exact .named hform' hshape
  | unbound hform' hshape _ =>
      obtain rfl := Option.some.inj (hform.symm.trans hform')
      cases hclosed.symm.trans (hs.parameter hform hshape).1
  | bound hform' hshape _ _ =>
      obtain rfl := Option.some.inj (hform.symm.trans hform')
      cases hclosed.symm.trans (hs.parameter hform hshape).1
  | definition hform' hshape hlength _ ih =>
      obtain rfl := Option.some.inj (hform.symm.trans hform')
      refine .definition hform hshape hlength fun i param part hparam hpart => ?_
      have hmem : param ∈ form.arguments := by
        simpa [Entry.arguments, hshape] using List.mem_of_getElem? hparam
      obtain ⟨pform, hpform, hpclosed⟩ := hs.argument hform hmem
      exact ih i param part hparam hpart hpform (hpclosed hclosed).1
  | instantiation hform' hshape hlength _ ih =>
      obtain rfl := Option.some.inj (hform.symm.trans hform')
      refine .instantiation hform hshape hlength fun i arg part harg hpart => ?_
      have hmem : arg ∈ form.arguments := by
        simpa [Entry.arguments, hshape] using List.mem_of_getElem? harg
      obtain ⟨pform, hpform, hpclosed⟩ := hs.argument hform hmem
      exact ih i arg part harg hpart hpform (hpclosed hclosed).1
  | array hform' hshape _ ih =>
      obtain rfl := Option.some.inj (hform.symm.trans hform')
      obtain ⟨-, -, part, hpart, hopen, -⟩ := hs.array hform hshape
      exact .array hform hshape (ih hpart (hopen.symm.trans hclosed))

/-- Resolving a type does not change what it denotes. -/
theorem denotes_resolve (hs : store.Coherent) (hsub : sub.BindsClosed store)
    (ha : a < store.size) (hresolve : sub.resolve store a = .ok b) :
    Denotes store sub a tree ↔ Denotes store sub b tree := by
  obtain ⟨form, hform⟩ := Store.form_isSome ha
  cases hparameter : form.isParameter with
  | false =>
      obtain rfl := Except.ok.inj
        ((resolve_of_not_parameter hform hparameter).symm.trans hresolve)
      rfl
  | true =>
      obtain ⟨info, hshape⟩ : ∃ info, form.shape = .parameter info := by
        rw [Entry.isParameter] at hparameter
        split at hparameter
        · next info hshape => exact ⟨info, hshape⟩
        · cases hparameter
      rcases resolve_parameter sub hform hshape with
        ⟨arg, hassigns, hself⟩ | ⟨-, hself⟩
      · obtain rfl := Except.ok.inj (hself.symm.trans hresolve)
        obtain ⟨argForm, hargForm, hclosed⟩ := hsub arg hassigns.mem
        rw [denotes_iff hform, hshape]
        constructor
        · rintro (⟨arg', hassigns', harg⟩ | ⟨hfree, -⟩)
          · obtain rfl := hassigns.unique hassigns'
            exact harg.closed hs hargForm hclosed
          · exact absurd hassigns (hfree arg)
        · exact fun h => Or.inl ⟨arg, hassigns, h.closed hs hargForm hclosed⟩
      · obtain rfl := Except.ok.inj (hself.symm.trans hresolve)
        rfl

end Trees

section Unfolding

variable {a b type : Handle} {form : Entry} {tree : TypeTree}

/-- Lists of which each element is related to one thing are related to one list. -/
theorem exists_forall₂_iff {α β : Type} {R : α → β → Prop} {as : List α}
    (h : ∀ a ∈ as, ∃ b, ∀ b', R a b' ↔ b' = b) :
    ∃ bs, ∀ bs', List.Forall₂ R as bs' ↔ bs' = bs := by
  induction as with
  | nil => exact ⟨[], fun bs' => List.forall₂_nil_left_iff⟩
  | cons a as ih =>
      obtain ⟨b, hb⟩ := h a List.mem_cons_self
      obtain ⟨bs, hbs⟩ := ih fun c hc => h c (List.mem_cons_of_mem a hc)
      refine ⟨b :: bs, fun bs' => ?_⟩
      rw [List.forall₂_cons_left_iff]
      simp only [hb, hbs]
      constructor
      · rintro ⟨_, _, rfl, rfl, rfl⟩
        rfl
      · rintro rfl
        exact ⟨b, bs, rfl, rfl, rfl⟩

/-- Every type denotes one tree, if the arguments do without being substituted again. -/
theorem exists_tree_of_arguments (hs : store.Coherent) (hsub : sub.BindsClosed store)
    (hargs : ∀ arg ∈ sub.typeArgs ++ sub.callableArgs,
      ∃ tree, ∀ tree', Denotes store .empty arg tree' ↔ tree' = tree)
    {bound : Nat} (hlt : type < store.size) (hresolve : sub.resolve store type = .ok a)
    (hbound : weight store a < bound) :
    ∃ tree, ∀ tree', Denotes store sub type tree' ↔ tree' = tree := by
  induction bound generalizing type a with
  | zero => exact absurd hbound (Nat.not_lt_zero _)
  | succ bound ih =>
      obtain ⟨form, hform⟩ := Store.form_isSome hlt
      have hpart : ∀ part, (part ∈ form.arguments ∨ ∃ rank, form.array? = some (part, rank)) →
          form.isParameter = false → part < store.size →
          ∃ tree, ∀ tree', Denotes store sub part tree' ↔ tree' = tree := by
        intro part hmem hproper hpartLt
        obtain rfl := Except.ok.inj ((resolve_of_not_parameter hform hproper).symm.trans hresolve)
        obtain ⟨resolved, hresolved, -⟩ := resolve_cases sub hpartLt
        have hweight := weight_lt hs hsub hform hmem hresolved
        exact ih hpartLt hresolved (by omega)
      have harguments : form.isParameter = false →
          ∃ trees, ∀ trees', List.Forall₂ (Denotes store sub) form.arguments trees' ↔
            trees' = trees := fun hproper => exists_forall₂_iff fun part hmem => by
        obtain ⟨_, hpform, -⟩ := hs.argument hform hmem
        exact hpart part (Or.inl hmem) hproper (Store.form_lt hpform)
      simp only [denotes_iff hform]
      cases hshape : form.shape with
      | named => exact ⟨.named type, fun _ => Iff.rfl⟩
      | parameter info =>
          rcases resolve_parameter sub hform hshape with
            ⟨arg, hassigns, -⟩ | ⟨hfree, -⟩
          · obtain ⟨tree, htree⟩ := hargs arg hassigns.mem
            refine ⟨tree, fun tree' => ?_⟩
            rw [← htree]
            constructor
            · rintro (⟨arg', hassigns', harg⟩ | ⟨hfree, -⟩)
              · exact hassigns.unique hassigns' ▸ harg
              · exact absurd hassigns (hfree arg)
            · exact fun h => Or.inl ⟨arg, hassigns, h⟩
          · refine ⟨.parameter type, fun tree' => ?_⟩
            simp [hfree]
      | definition params =>
          obtain ⟨trees, htrees⟩ := harguments (by simp [Entry.isParameter, hshape])
          rw [show form.arguments = params by simp [Entry.arguments, hshape]] at htrees
          exact ⟨.application type trees, by simp [htrees]⟩
      | instantiation head args =>
          obtain ⟨trees, htrees⟩ := harguments (by simp [Entry.isParameter, hshape])
          rw [show form.arguments = args by simp [Entry.arguments, hshape]] at htrees
          exact ⟨.application head trees, by simp [htrees]⟩
      | array element rank =>
          have harray : form.array? = some (element, rank) := by simp [Entry.array?, hshape]
          obtain ⟨_, hpform, -⟩ := hs.element hform harray
          obtain ⟨tree, htree⟩ := hpart element (Or.inr ⟨rank, harray⟩)
            (by simp [Entry.isParameter, hshape]) (Store.form_lt hpform)
          exact ⟨.array tree rank, by simp [htree]⟩

/-- Every type denotes one tree. -/
theorem exists_tree (hs : store.Coherent) (hsub : sub.BindsClosed store)
    (hlt : type < store.size) : ∃ tree, ∀ tree', Denotes store sub type tree' ↔ tree' = tree := by
  have hempty : ∀ type, type < store.size →
      ∃ tree, ∀ tree', Denotes store .empty type tree' ↔ tree' = tree := fun type hlt =>
    exists_tree_of_arguments hs bindsClosed_empty (by simp [empty]) hlt (resolve_empty hlt)
      (Nat.lt_succ_self _)
  obtain ⟨a, hresolve, -⟩ := resolve_cases sub hlt
  refine exists_tree_of_arguments hs hsub (fun arg harg => ?_) hlt hresolve (Nat.lt_succ_self _)
  obtain ⟨_, hform, -⟩ := hsub arg harg
  exact hempty arg (Store.form_lt hform)

end Unfolding

section Deciding

variable {a b a' b' : Handle} {tree : TypeTree}

theorem lt_of_resolve (h : sub.resolve store a = .ok b) : a < store.size := by
  obtain ⟨_, hparam, -⟩ := Query.bind_eq_ok.mp h
  obtain ⟨_, hentry, -⟩ := Query.bind_eq_ok.mp hparam
  exact Store.lt_of_entry (Store.entry_eq_ok.mp hentry)

/-- Identical types denote the same tree. -/
theorem Identical.denotes_iff (hs : store.Coherent) (hsub : sub.BindsClosed store)
    (h : Identical store sub a b) :
    Denotes store sub a tree ↔ Denotes store sub b tree := by
  have hresolve : ∀ {type resolved : Handle} {tree : TypeTree},
      sub.resolve store type = .ok resolved →
      (Denotes store sub type tree ↔ Denotes store sub resolved tree) := fun h =>
    denotes_resolve hs hsub (lt_of_resolve h) h
  induction h generalizing tree with
  | same ha hb => rw [hresolve ha, hresolve hb]
  | array ha hb haa hba _ ih =>
      rw [hresolve ha, hresolve hb, denotes_isArray haa, denotes_isArray hba]
      simp only [ih]
  | @application a b a' b' definition aArgs bArgs ha hb haa hba _ ih =>
      have hlength := haa.length_eq hba
      have hargs : ∀ trees, List.Forall₂ (Denotes store sub) aArgs trees ↔
          List.Forall₂ (Denotes store sub) bArgs trees := by
        intro trees
        rw [forall₂_iff_getElem?, forall₂_iff_getElem?, hlength]
        refine and_congr_right fun _ =>
          ⟨fun h i y tree hy htree => ?_, fun h i x tree hx htree => ?_⟩
        · obtain ⟨x, hx⟩ := getElem?_of_length_eq hlength hy
          exact (ih i x y hx hy).mp (h i x tree hx htree)
        · obtain ⟨y, hy⟩ := getElem?_of_length_eq hlength.symm hx
          exact (ih i x y hx hy).mpr (h i y tree hy htree)
      rw [hresolve ha, hresolve hb, denotes_applies haa, denotes_applies hba]
      simp only [hargs]

/-- What a type denotes that resolves to itself: it is a leaf, or built from types that denote the
parts of the tree. -/
theorem Denotes.cases_resolved (hs : store.Coherent) (hsub : sub.BindsClosed store)
    (h : Denotes store sub a tree) (hresolve : sub.resolve store a = .ok a) :
    tree = .named a ∨ tree = .parameter a ∨
      (∃ definition args trees, tree = .application definition trees ∧
        store.Applies definition args a ∧ List.Forall₂ (Denotes store sub) args trees) ∨
      ∃ element rank part, tree = .array part rank ∧ store.IsArray element rank a ∧
        Denotes store sub element part := by
  cases h with
  | named _ _ => exact Or.inl rfl
  | unbound _ _ _ => exact Or.inr (Or.inl rfl)
  | bound hform hshape hassigns _ =>
      -- The argument of a bound parameter is closed, so it is not the parameter.
      rcases resolve_parameter sub hform hshape with
        ⟨arg, hassigns', hself⟩ | ⟨hfree, -⟩
      · obtain rfl := Except.ok.inj (hself.symm.trans hresolve)
        obtain ⟨form, hform', hclosed⟩ := hsub _ hassigns'.mem
        obtain rfl := Option.some.inj (hform.symm.trans hform')
        cases hclosed.symm.trans (hs.parameter hform hshape).1
      · exact absurd hassigns (hfree _)
  | definition hform hshape hlength hparts =>
      exact Or.inr (Or.inr (Or.inl ⟨_, _, _, rfl, ⟨_, ⟨_, hform, hshape⟩, rfl, Or.inl ⟨rfl, rfl⟩⟩,
        forall₂_iff_getElem?.mpr ⟨hlength, hparts⟩⟩))
  | instantiation hform hshape hlength hparts =>
      exact Or.inr (Or.inr (Or.inl ⟨_, _, _, rfl, hs.applies_self hform hshape,
        forall₂_iff_getElem?.mpr ⟨hlength, hparts⟩⟩))
  | array hform hshape helement =>
      exact Or.inr (Or.inr (Or.inr ⟨_, _, _, rfl, ⟨_, hform, hshape⟩, helement⟩))

/-- Types that denote the same tree are identical. The parts of the first come closer to leaves. -/
theorem identical_of_denotes (hs : store.Coherent) (hsub : sub.BindsClosed store) {bound : Nat}
    (ha : Denotes store sub a tree) (hb : Denotes store sub b tree)
    (hra : sub.resolve store a = .ok a') (hbound : weight store a' < bound)
    (hblt : b < store.size) : Identical store sub a b := by
  induction bound generalizing a b a' tree with
  | zero => exact absurd hbound (Nat.not_lt_zero _)
  | succ bound ih =>
      have halt := lt_of_resolve hra
      obtain ⟨b', hrb, -⟩ := resolve_cases sub hblt
      rw [denotes_resolve hs hsub halt hra] at ha
      rw [denotes_resolve hs hsub hblt hrb] at hb
      have hpart : ∀ form x y tree, store.form a' = some form →
          (x ∈ form.arguments ∨ ∃ rank, form.array? = some (x, rank)) → x < store.size →
          y < store.size → Denotes store sub x tree → Denotes store sub y tree →
          Identical store sub x y := by
        intro form x y tree hform hmem hx hy hxt hyt
        obtain ⟨x', hrx, -⟩ := resolve_cases sub hx
        have hweight := weight_lt hs hsub hform hmem hrx
        exact ih hxt hyt hrx (by omega) hy
      rcases ha.cases_resolved hs hsub (resolve_resolved hs hsub halt hra) with
        rfl | rfl | ⟨definition, args, trees, rfl, happlies, hargs⟩ |
        ⟨element, rank, part, rfl, harray, helement⟩ <;>
      rcases hb.cases_resolved hs hsub (resolve_resolved hs hsub hblt hrb) with
        heq | heq | ⟨definition', args', trees', heq, happlies', hargs'⟩ |
        ⟨element', rank', part', heq, harray', helement'⟩ <;>
      cases heq
      · exact .same hra hrb
      · exact .same hra hrb
      · obtain ⟨form, hform, -, hformArgs, -⟩ := happlies.exists_form
        obtain ⟨form', hform', -, hformArgs', -⟩ := happlies'.exists_form
        refine .application hra hrb happlies happlies' fun i x y hx hy => ?_
        obtain ⟨tree, htree⟩ := getElem?_of_length_eq hargs.length_eq.symm hx
        have hxmem : x ∈ form.arguments := hformArgs ▸ List.mem_of_getElem? hx
        obtain ⟨_, hxform, -⟩ := hs.argument hform hxmem
        obtain ⟨_, hyform, -⟩ := hs.argument hform' (hformArgs' ▸ List.mem_of_getElem? hy)
        exact hpart form x y tree hform (Or.inl hxmem) (Store.form_lt hxform)
          (Store.form_lt hyform) ((forall₂_iff_getElem?.mp hargs).2 i x tree hx htree)
          ((forall₂_iff_getElem?.mp hargs').2 i y tree hy htree)
      · obtain ⟨form, hform, hformArray, -⟩ := harray.exists_form
        obtain ⟨form', hform', hformArray', -⟩ := harray'.exists_form
        obtain ⟨_, hxform, -⟩ := hs.element hform hformArray
        obtain ⟨_, hyform, -⟩ := hs.element hform' hformArray'
        exact .array hra hrb harray harray' (hpart form element element' part hform
          (Or.inr ⟨rank, hformArray⟩) (Store.form_lt hxform) (Store.form_lt hyform) helement
          helement')

/-- Without a substitution, `equal` is equality of handles. -/
theorem equal_empty_answers (hs : store.Coherent) (ha : a < store.size) (hb : b < store.size) :
    Query.Answers (Substitution.empty.equal store a b) (a = b) := by
  refine (equal_answers hs bindsClosed_empty ha hb).congr ⟨fun h => h.eq_of_empty hs ha hb, ?_⟩
  rintro rfl
  exact .refl ha

/-- In every reachable store, and for arguments that mention no type parameter, each of two types
denotes one tree, `equal` ends without a fault and tells whether the trees are the same. Without a
substitution it tells whether the handles are. -/
theorem equal_iff_denotes (hs : store.Reachable) (hsub : sub.BindsClosed store)
    (ha : a < store.size) (hb : b < store.size) :
    (∃ aTree bTree, (∀ tree, Denotes store sub a tree ↔ tree = aTree) ∧
      (∀ tree, Denotes store sub b tree ↔ tree = bTree) ∧
      Query.Answers (sub.equal store a b) (aTree = bTree)) ∧
    Query.Answers (Substitution.empty.equal store a b) (a = b) := by
  have hcoherent := hs.lawful.wellFormed.coherent
  refine ⟨?_, equal_empty_answers hcoherent ha hb⟩
  obtain ⟨aTree, haTree⟩ := exists_tree hcoherent hsub ha
  obtain ⟨bTree, hbTree⟩ := exists_tree hcoherent hsub hb
  refine ⟨aTree, bTree, haTree, hbTree, (equal_answers hcoherent hsub ha hb).congr ?_⟩
  have haSelf := (haTree aTree).mpr rfl
  constructor
  · intro h
    exact (hbTree aTree).mp ((h.denotes_iff hcoherent hsub).mp haSelf)
  · rintro rfl
    obtain ⟨a', hra, -⟩ := resolve_cases sub ha
    exact identical_of_denotes hcoherent hsub haSelf ((hbTree aTree).mpr rfl) hra
      (Nat.lt_succ_self _) hb

end Deciding

/-- Integers for the parameter of `Row`. -/
def rowBinding : Substitution := { typeOwner := some 1, typeArgs := [5] }

/-- With integers for its parameter, `Row` denotes what `Row<int>` does. The handles differ. -/
theorem equal_iff_denotes_row :
    (∃ tree, Denotes Store.rowStore rowBinding 1 tree ∧ Denotes Store.rowStore rowBinding 6 tree) ∧
      Substitution.empty.equal Store.rowStore 1 6 = .ok false := by
  have hclosed : rowBinding.BindsClosed Store.rowStore := by
    intro type htype
    obtain rfl : type = 5 := by simpa [rowBinding] using htype
    have hform : (Store.rowStore.form 5).map (·.isOpen) = some false := by decide +kernel
    obtain ⟨form, hform, hopen⟩ := Option.map_eq_some_iff.mp hform
    exact ⟨form, hform, hopen⟩
  obtain ⟨⟨rowTree, intsTree, hrow, hints, same, hsame, hiff⟩, differ, hdiffer, hhandles⟩ :=
    equal_iff_denotes Store.rowStore_reachable hclosed
      (by decide +kernel : 1 < Store.rowStore.size) (by decide +kernel : 6 < Store.rowStore.size)
  have htrue : rowBinding.equal Store.rowStore 1 6 = .ok true := by decide +kernel
  obtain rfl := hiff.mp (Except.ok.inj (hsame.symm.trans htrue))
  refine ⟨⟨rowTree, (hrow _).mpr rfl, (hints _).mpr rfl⟩, ?_⟩
  have hfalse : differ = false := Bool.eq_false_iff.mpr fun h => absurd (hhandles.mp h) (by decide)
  rw [hdiffer, hfalse]

end Substitution

end NominalGenerics
