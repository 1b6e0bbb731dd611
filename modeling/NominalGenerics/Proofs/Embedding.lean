import NominalGenerics.Assignability
import NominalGenerics.Proofs.IdentityWalk
import NominalGenerics.Proofs.Simulation
import NominalGenerics.Proofs.Store.Declaration

/-!
# Embeddings of stores

A renaming of handles embeds a store in another one if every type becomes a type that is built and
classified in the same way. Nothing that the solver asks tells the two apart: it compares handles
only with each other and otherwise reads entries, so it goes through related steps on both stores.
The larger store may hold further types.
-/

namespace NominalGenerics

/-- The constraint with its target renamed. -/
def Constraint.rename (φ : Handle → Handle) : Constraint → Constraint
  | .base target => .base (φ target)
  | constraint => constraint

/-- The owner of a type parameter, renamed. -/
def ParamOwner.rename (φ : Handle → Handle) : ParamOwner → ParamOwner
  | .type definition => .type (φ definition)
  | .callable id => .callable id

/-- How a type is built, from renamed parts. -/
def Shape.rename (φ : Handle → Handle) : Shape → Shape
  | .named => .named
  | .definition params => .definition (params.map φ)
  | .instantiation head args => .instantiation (φ head) (args.map φ)
  | .array element rank => .array (φ element) rank
  | .parameter info =>
      .parameter { info with
        owner := info.owner.rename φ
        constraints := info.constraints.map (·.rename φ) }

theorem Constraint.rename_id (constraint : Constraint) : constraint.rename id = constraint := by
  cases constraint <;> rfl

theorem Shape.rename_id (shape : Shape) : shape.rename id = shape := by
  cases shape with
  | parameter info =>
      have howner : info.owner.rename id = info.owner := by cases info.owner <;> rfl
      have hconstraints : info.constraints.map (·.rename id) = info.constraints := by
        simp [Constraint.rename_id]
      simp only [Shape.rename, howner, hconstraints]
  | _ => simp [Shape.rename]

/-- What two stores say alike about a type. Constraints and integral types under enums are left
out. -/
structure EntryImage (φ : Handle → Handle) (entry entry' : Entry) : Prop where
  name : entry'.name = entry.name
  flags : entry'.flags = entry.flags
  shape : entry'.shape.bare = (entry.shape.rename φ).bare
  base : entry'.base = entry.base.map φ
  interfaces : entry'.interfaces = entry.interfaces.map φ
  primitive : entry'.primitive = entry.primitive
  isOpen : entry'.isOpen = entry.isOpen

/-- The renaming `φ` embeds `s` in `s'`. -/
structure Embeds (φ : Handle → Handle) (s s' : Store) : Prop where
  wellFormed : s.WellFormed
  coherent : s'.Coherent
  injective : ∀ {a b : Handle}, a < s.size → b < s.size → φ a = φ b → a = b
  entries : ∀ {type : Handle} {entry}, s.types[type]? = some entry →
    ∃ entry', s'.types[φ type]? = some entry' ∧ EntryImage φ entry entry'
  root : s'.root = φ s.root
  optionalWrapper : ∀ {type : Handle}, type < s.size →
    (s'.optionalWrapper = some (φ type) ↔ s.optionalWrapper = some type)
  sequenceInterfaces : ∀ {type : Handle}, type < s.size →
    (φ type ∈ s'.sequenceInterfaces ↔ type ∈ s.sequenceInterfaces)

/-- `b` is the type that the type `a` of the store becomes. -/
def Image (φ : Handle → Handle) (s : Store) (a b : Handle) : Prop := a < s.size ∧ b = φ a

section Images

variable {φ : Handle → Handle} {s s' : Store}

theorem forall₂_image {types : List Handle} (h : ∀ t ∈ types, t < s.size) :
    List.Forall₂ (Image φ s) types (types.map φ) := by
  rw [List.forall₂_map_right_iff, List.forall₂_same]
  exact fun t ht => ⟨h t ht, rfl⟩

theorem rel_image {type : Option Handle} (h : ∀ t, type = some t → t < s.size) :
    Option.Rel (Image φ s) type (type.map φ) := by
  cases type with
  | none => exact .none
  | some t => exact .some ⟨h t rfl, rfl⟩

/-- Type parameters of the same place and variance. -/
structure ParamImage (φ : Handle → Handle) (s : Store) (info info' : TypeParam) : Prop where
  owner : info'.owner = info.owner.rename φ
  position : info'.position = info.position
  variance : info'.variance = info.variance
  definition_lt : ∀ definition, info.owner = .type definition → definition < s.size

/-- What queries read from the entries of a type and of its image. -/
structure EntryAlike (φ : Handle → Handle) (s : Store) (type type' : Handle)
    (entry entry' : Entry) : Prop where
  name : entry.name = entry'.name
  flags : entry.flags = entry'.flags
  primitive : entry.primitive = entry'.primitive
  isOpen : entry.isOpen = entry'.isOpen
  isParameter : entry.isParameter = entry'.isParameter
  base : Option.Rel (Image φ s) entry.base entry'.base
  interfaces : List.Forall₂ (Image φ s) entry.interfaces entry'.interfaces
  definition? : Option.Rel (Image φ s) (entry.definition? type) (entry'.definition? type')
  arguments : List.Forall₂ (Image φ s) entry.arguments entry'.arguments
  array? : Option.Rel (fun p q => Image φ s p.1 q.1 ∧ p.2 = q.2) entry.array? entry'.array?
  param? : Option.Rel (ParamImage φ s) entry.param? entry'.param?

/-- The entry built from renamed parts. -/
def Entry.renameShape (φ : Handle → Handle) (entry : Entry) : Entry :=
  { entry with shape := entry.shape.rename φ }

theorem Entry.renameShape_fields (φ : Handle → Handle) (entry : Entry) (self : Handle) :
    (entry.renameShape φ).isParameter = entry.isParameter ∧
      (entry.renameShape φ).definition? (φ self) = (entry.definition? self).map φ ∧
      (entry.renameShape φ).arguments = entry.arguments.map φ ∧
      (entry.renameShape φ).array? = entry.array?.map (fun p => (φ p.1, p.2)) := by
  unfold renameShape isParameter definition? arguments array? Shape.rename
  cases entry.shape <;> exact ⟨rfl, rfl, rfl, rfl⟩

/-- Parts that do not depend on constraints are the same if the shapes are up to constraints. -/
theorem EntryImage.fields {entry entry' : Entry} (h : EntryImage φ entry entry') (type : Handle) :
    entry'.isParameter = entry.isParameter ∧
      entry'.definition? (φ type) = (entry.definition? type).map φ ∧
      entry'.arguments = entry.arguments.map φ ∧
      entry'.array? = entry.array?.map (fun p => (φ p.1, p.2)) := by
  have hshape : entry'.form.shape = (entry.renameShape φ).form.shape := h.shape
  rw [← Entry.form_isParameter entry', ← Entry.form_definition? entry',
    ← Entry.form_arguments entry', ← Entry.form_array? entry']
  unfold Entry.isParameter Entry.definition? Entry.arguments Entry.array?
  rw [hshape]
  obtain ⟨h₁, h₂, h₃, h₄⟩ := Entry.renameShape_fields φ entry type
  rw [← Entry.form_isParameter] at h₁
  rw [← Entry.form_definition?] at h₂
  rw [← Entry.form_arguments] at h₃
  rw [← Entry.form_array?] at h₄
  exact ⟨h₁, h₂, h₃, h₄⟩

theorem EntryImage.param (hs : s.WellFormed) {type : Handle} {entry entry' : Entry}
    (hentry : s.types[type]? = some entry) (h : EntryImage φ entry entry') :
    Option.Rel (ParamImage φ s) entry.param? entry'.param? := by
  have hform : s.form type = some entry.form := Store.form_of_entry hentry
  have hshape := h.shape
  cases hcase : entry.shape with
  | parameter info =>
      have hlists := (hs.coherent.parameter hform (Entry.form_shape_of_parameter hcase)).2.2
      rw [hcase] at hshape
      cases hcase' : entry'.shape with
      | parameter info' =>
          simp only [hcase', Shape.bare, Shape.rename, Shape.parameter.injEq,
            TypeParam.mk.injEq] at hshape
          obtain ⟨-, howner, hposition, hvariance, -⟩ := hshape
          simp only [Entry.param?, hcase, hcase']
          refine .some ⟨howner, hposition, hvariance, fun definition hd => ?_⟩
          rw [hd] at hlists
          obtain ⟨_, ⟨_, hdefinition, -⟩, -⟩ := hlists
          exact Store.form_lt hdefinition
      | named => simp [hcase', Shape.bare, Shape.rename] at hshape
      | definition params => simp [hcase', Shape.bare, Shape.rename] at hshape
      | instantiation head args => simp [hcase', Shape.bare, Shape.rename] at hshape
      | array element rank => simp [hcase', Shape.bare, Shape.rename] at hshape
  | _ =>
      have hparam : entry.isParameter = false := by simp [Entry.isParameter, hcase]
      obtain ⟨hparam', -⟩ := h.fields type
      have hnone : ∀ {e : Entry}, e.isParameter = false → e.param? = none := by
        intro e he
        unfold Entry.isParameter at he
        unfold Entry.param?
        cases hs : e.shape <;> simp_all
      rw [hnone hparam, hnone (hparam'.trans hparam)]
      exact .none

/-- The parts of a type and what it records are types of the store. -/
theorem EntryImage.alike (hs : s.WellFormed) {type : Handle} {entry entry' : Entry}
    (hentry : s.types[type]? = some entry) (h : EntryImage φ entry entry') :
    EntryAlike φ s type (φ type) entry entry' := by
  have hform : s.form type = some entry.form := Store.form_of_entry hentry
  have hlinks := hs.inRange.links hentry
  have hargs : ∀ a ∈ entry.arguments, a < s.size := by
    intro a ha
    obtain ⟨part, hpart, -⟩ := hs.coherent.argument hform (by simpa using ha)
    exact Store.form_lt hpart
  have hdefinition : ∀ d, entry.definition? type = some d → d < s.size := by
    intro d hd
    have := hs.coherent.definition_lt hform
    rwa [Entry.form_definition?, hd] at this
  have harray : Option.Rel (fun p q => Image φ s p.1 q.1 ∧ p.2 = q.2) entry.array?
      (entry.array?.map (fun p => (φ p.1, p.2))) := by
    cases harray : entry.array? with
    | none => exact .none
    | some shape =>
        obtain ⟨part, hpart, -⟩ := hs.coherent.element hform
          (by rw [Entry.form_array?, harray] : entry.form.array? = some (shape.1, shape.2))
        exact .some ⟨⟨Store.form_lt hpart, rfl⟩, rfl⟩
  obtain ⟨hparameter, hdefinition', harguments, harray'⟩ := h.fields type
  exact ⟨h.name.symm, h.flags.symm, h.primitive.symm, h.isOpen.symm, hparameter.symm,
    h.base ▸ rel_image hlinks.base, h.interfaces ▸ forall₂_image hlinks.interfaces,
    hdefinition' ▸ rel_image hdefinition, harguments ▸ forall₂_image hargs, harray' ▸ harray,
    h.param hs hentry⟩

end Images

namespace Embeds

open MonadRelation

variable {φ : Handle → Handle} {s s' : Store} {a b c d : Handle}

/-- Images are equal if and only if the types are. -/
theorem eq_iff (h : Embeds φ s s') (hab : Image φ s a b) (hcd : Image φ s c d) :
    a = c ↔ b = d := by
  obtain ⟨ha, rfl⟩ := hab
  obtain ⟨hc, rfl⟩ := hcd
  exact ⟨fun h => h ▸ rfl, h.injective ha hc⟩

theorem alike (h : Embeds φ s s') (hab : Image φ s a b) :
    ∃ entry entry', s.types[a]? = some entry ∧ s'.types[b]? = some entry' ∧
      EntryAlike φ s a b entry entry' := by
  obtain ⟨ha, rfl⟩ := hab
  obtain ⟨entry, hentry⟩ := Store.entry_of_lt ha
  obtain ⟨entry', hentry', himage⟩ := h.entries hentry
  exact ⟨entry, entry', hentry, hentry', himage.alike h.wellFormed hentry⟩

theorem lt (h : Embeds φ s s') (hab : Image φ s a b) : b < s'.size := by
  obtain ⟨-, entry', -, hentry', -⟩ := h.alike hab
  exact Store.lt_of_entry hentry'

section Queries

theorem entry (h : Embeds φ s s') (hab : Image φ s a b) :
    query.Rel (EntryAlike φ s a b) (s.entry a) (s'.entry b) := by
  obtain ⟨entry, entry', hentry, hentry', halike⟩ := h.alike hab
  rw [Store.entry_eq_ok.mpr hentry, Store.entry_eq_ok.mpr hentry']
  exact .ok halike

/-- Queries that read one field of an entry agree if the fields do. -/
theorem field (h : Embeds φ s s') (hab : Image φ s a b) {α β : Type} {R : α → β → Prop}
    {f : Entry → α} {g : Entry → β}
    (hfg : ∀ entry entry', EntryAlike φ s a b entry entry' → R (f entry) (g entry')) :
    query.Rel R (return f (← s.entry a)) (return g (← s'.entry b)) :=
  query.bind (h.entry hab) fun entry entry' halike => query.pure (hfg entry entry' halike)

theorem typeName (h : Embeds φ s s') (hab : Image φ s a b) :
    query.Rel (· = ·) (s.typeName a) (s'.typeName b) := h.field hab fun _ _ e => e.name

theorem flags (h : Embeds φ s s') (hab : Image φ s a b) :
    query.Rel (· = ·) (s.flags a) (s'.flags b) := h.field hab fun _ _ e => e.flags

theorem primitive? (h : Embeds φ s s') (hab : Image φ s a b) :
    query.Rel (· = ·) (s.primitive? a) (s'.primitive? b) := h.field hab fun _ _ e => e.primitive

theorem isOpen (h : Embeds φ s s') (hab : Image φ s a b) :
    query.Rel (· = ·) (s.isOpen a) (s'.isOpen b) := h.field hab fun _ _ e => e.isOpen

theorem base? (h : Embeds φ s s') (hab : Image φ s a b) :
    query.Rel (Option.Rel (Image φ s)) (s.base? a) (s'.base? b) := h.field hab fun _ _ e => e.base

theorem interfaces (h : Embeds φ s s') (hab : Image φ s a b) :
    query.Rel (List.Forall₂ (Image φ s)) (s.interfaces a) (s'.interfaces b) :=
  h.field hab fun _ _ e => e.interfaces

theorem definition? (h : Embeds φ s s') (hab : Image φ s a b) :
    query.Rel (Option.Rel (Image φ s)) (s.definition? a) (s'.definition? b) :=
  h.field hab fun _ _ e => e.definition?

theorem arguments (h : Embeds φ s s') (hab : Image φ s a b) :
    query.Rel (List.Forall₂ (Image φ s)) (s.arguments a) (s'.arguments b) :=
  h.field hab fun _ _ e => e.arguments

theorem array? (h : Embeds φ s s') (hab : Image φ s a b) :
    query.Rel (Option.Rel fun p q => Image φ s p.1 q.1 ∧ p.2 = q.2) (s.array? a) (s'.array? b) :=
  h.field hab fun _ _ e => e.array?

theorem param? (h : Embeds φ s s') (hab : Image φ s a b) :
    query.Rel (Option.Rel (ParamImage φ s)) (s.param? a) (s'.param? b) :=
  h.field hab fun _ _ e => e.param?

theorem definitionOrSelf (h : Embeds φ s s') (hab : Image φ s a b) :
    query.Rel (Image φ s) (s.definitionOrSelf a) (s'.definitionOrSelf b) := by
  refine query.bind (h.definition? hab) fun d d' hd => query.pure ?_
  cases hd with
  | none => exact hab
  | some hd => exact hd

theorem isValueType (h : Embeds φ s s') (hab : Image φ s a b) :
    query.Rel (· = ·) (s.isValueType a) (s'.isValueType b) :=
  query.bind (h.flags hab) fun _ _ hflags => query.pure (by rw [hflags])

theorem isReferenceType (h : Embeds φ s s') (hab : Image φ s a b) :
    query.Rel (· = ·) (s.isReferenceType a) (s'.isReferenceType b) :=
  h.field hab fun _ _ e => by rw [e.flags, e.isParameter]

theorem isOptionalWrapper (h : Embeds φ s s') (hab : Image φ s a b) :
    query.Rel (· = ·) (s.isOptionalWrapper a) (s'.isOptionalWrapper b) := by
  have hanswer : ∀ (t : Store) (type : Handle), t.isOptionalWrapper type = (do
      let definition ← t.definition? type
      return definition.any fun d => t.optionalWrapper == some d && d != type) := by
    intro t type
    unfold Store.isOptionalWrapper
    congr 1
    funext definition
    cases t.optionalWrapper with
    | none => cases definition <;> rfl
    | some wrapper =>
        cases definition with
        | none => rfl
        | some d =>
            by_cases hwrapper : wrapper = d
            · subst hwrapper
              simp
            · have hne : (wrapper == d) = false := by simpa using hwrapper
              simp [hne]
  rw [hanswer, hanswer]
  refine query.bind (h.definition? hab) fun d d' hd => query.pure ?_
  cases hd with
  | none => rfl
  | @some d d' hd =>
      have hne : (d != a) = (d' != b) := by
        rw [bne, bne, Bool.not_inj_iff, Bool.eq_iff_iff, beq_iff_eq, beq_iff_eq]
        exact h.eq_iff hd hab
      obtain ⟨hlt, rfl⟩ := hd
      have hwrapper : (s.optionalWrapper == some d) = (s'.optionalWrapper == some (φ d)) := by
        rw [Bool.eq_iff_iff, beq_iff_eq, beq_iff_eq]
        exact (h.optionalWrapper hlt).symm
      simp only [Option.any_some, hne, hwrapper]

theorem isSequenceInterface (h : Embeds φ s s') (hab : Image φ s a b) :
    s.isSequenceInterface a = s'.isSequenceInterface b := by
  obtain ⟨ha, rfl⟩ := hab
  have hiff := h.sequenceInterfaces ha
  rw [Store.isSequenceInterface, Store.isSequenceInterface, Bool.eq_iff_iff,
    List.contains_iff_mem, List.contains_iff_mem]
  exact hiff.symm

theorem declaredVariance (h : Embeds φ s s') (hab : Image φ s a b) (position : Nat) :
    query.Rel (· = ·) (s.declaredVariance a position) (s'.declaredVariance b position) := by
  refine query.bind (h.arguments hab) fun args args' hargs => ?_
  have hposition := rel_getElem? hargs position
  generalize args[position]? = param, args'[position]? = param' at hposition ⊢
  cases hposition with
  | none => exact query.pure rfl
  | some hparam =>
      refine query.bind (h.param? hparam) ?_
      rintro _ _ (hinfo | _)
      · exact query.pure hinfo.variance.symm
      · exact query.pure rfl

end Queries

section Hierarchy

theorem mem_iff (h : Embeds φ s s') (hab : Image φ s a b) {as bs : List Handle}
    (hlist : List.Forall₂ (Image φ s) as bs) : a ∈ as ↔ b ∈ bs := by
  induction hlist with
  | nil => simp
  | cons hcd _ ih => rw [List.mem_cons, List.mem_cons, h.eq_iff hab hcd, ih]

theorem eraseDups (h : Embeds φ s s') {as bs : List Handle}
    (hlist : List.Forall₂ (Image φ s) as bs) :
    List.Forall₂ (Image φ s) as.eraseDups bs.eraseDups := by
  obtain ⟨n, hn⟩ : ∃ n, as.length = n := ⟨_, rfl⟩
  induction n using Nat.strong_induction_on generalizing as bs with
  | _ n ih =>
      cases hlist with
      | nil => exact .nil
      | @cons a b as bs hab hlist =>
          rw [List.eraseDups_cons, List.eraseDups_cons]
          have hfilter : List.Forall₂ (Image φ s) (as.filter fun c => !c == a)
              (bs.filter fun d => !d == b) := by
            refine forall₂_filter (fun c d hcd => ?_) hlist
            rw [Bool.not_inj_iff, Bool.eq_iff_iff, beq_iff_eq, beq_iff_eq]
            exact h.eq_iff hcd hab
          have hlength := List.length_filter_le (fun c => !c == a) as
          rw [List.length_cons] at hn
          exact .cons hab (ih _ (by omega) hfilter rfl)

theorem chainFrom (h : Embeds φ s s') {room : Nat} {seen seen' : List Handle}
    (hseen : List.Forall₂ (Image φ s) seen seen') (hab : Image φ s a b) :
    query.Rel (List.Forall₂ (Image φ s)) (s.chainFrom room seen a) (s'.chainFrom room seen' b) := by
  induction room generalizing seen seen' a b with
  | zero => exact query.pure .nil
  | succ room ih =>
      refine query.ite (h.mem_iff hab hseen) (fun _ => query.pure .nil) fun _ => ?_
      refine query.bind (h.base? hab) ?_
      rintro _ _ (hbase | _)
      · exact query.bind (ih (.cons hab hseen) hbase) fun _ _ hchain =>
          query.pure (.cons hab hchain)
      · exact query.pure (.cons hab .nil)

theorem baseChain (h : Embeds φ s s') (hab : Image φ s a b) :
    query.Rel (List.Forall₂ (Image φ s)) (s.baseChain a) (s'.baseChain b) :=
  h.chainFrom .nil hab

theorem supertypes (h : Embeds φ s s') (hab : Image φ s a b) :
    query.Rel (List.Forall₂ (Image φ s)) (s.supertypes a) (s'.supertypes b) :=
  query.bind (h.baseChain hab) fun _ _ hchain =>
    query.bind (h.interfaces hab) fun _ _ hinterfaces =>
      query.pure (forall₂_append hchain hinterfaces)

/-- Searches that find the same. -/
inductive ImplementationImage (φ : Handle → Handle) (s : Store) :
    Implementation → Implementation → Prop
  | found {a b : Handle} (h : Image φ s a b) : ImplementationImage φ s (.found a) (.found b)
  | ambiguous {as bs : List Handle} (h : List.Forall₂ (Image φ s) as bs) :
      ImplementationImage φ s (.ambiguous as) (.ambiguous bs)
  | notFound : ImplementationImage φ s .notFound .notFound

theorem image_root (h : Embeds φ s s') : Image φ s s.root s'.root :=
  ⟨(Store.isNamed_root h.wellFormed.coherent).queries.2.2.2, h.root⟩

theorem findImplementation (h : Embeds φ s s') (hab : Image φ s a b) (hcd : Image φ s c d) :
    query.Rel (ImplementationImage φ s) (s.findImplementation a c) (s'.findImplementation b d) := by
  have htest : ∀ candidate candidate', Image φ s candidate candidate' →
      query.Rel (· = ·) (do return (← s.definitionOrSelf candidate) == c)
        (do return (← s'.definitionOrSelf candidate') == d) := by
    intro candidate candidate' hcandidate
    refine query.bind (h.definitionOrSelf hcandidate) fun x y hxy => query.pure ?_
    rw [Bool.eq_iff_iff, beq_iff_eq, beq_iff_eq]
    exact h.eq_iff hxy hcd
  refine query.bind (h.baseChain hab) fun chain chain' hchain => ?_
  refine query.bind (first? hchain htest) ?_
  rintro _ _ (hfound | _)
  · exact query.pure (.found hfound)
  · have hroot : c == s.root ↔ d == s'.root := by
      rw [beq_iff_eq, beq_iff_eq]
      exact h.eq_iff hcd h.image_root
    refine query.ite hroot (fun _ => query.pure (.found hcd)) fun _ => ?_
    refine query.bind (h.interfaces hab) fun interfaces interfaces' hinterfaces => ?_
    refine query.bind (select hinterfaces htest) fun selected selected' hselected => ?_
    have hdups := h.eraseDups hselected
    generalize selected.eraseDups = found, selected'.eraseDups = found' at hdups ⊢
    cases hdups with
    | nil => exact query.pure .notFound
    | cons hfirst hrest =>
        cases hrest with
        | nil => exact query.pure (.found hfirst)
        | cons hsecond hrest => exact query.pure (.ambiguous (.cons hfirst (.cons hsecond hrest)))

end Hierarchy

section Identity

/-- Substitutions that bind the same parameters to the same types. -/
structure SubstitutionImage (φ : Handle → Handle) (s : Store) (sub sub' : Substitution) : Prop where
  typeOwner : Option.Rel (Image φ s) sub.typeOwner sub'.typeOwner
  typeArgs : List.Forall₂ (Image φ s) sub.typeArgs sub'.typeArgs
  callable : sub.callable = sub'.callable
  callableArgs : List.Forall₂ (Image φ s) sub.callableArgs sub'.callableArgs

variable {sub sub' : Substitution}

theorem substitutionImage_empty : SubstitutionImage φ s .empty .empty :=
  ⟨.none, .nil, rfl, .nil⟩

theorem lookup? (h : Embeds φ s s') (hsub : SubstitutionImage φ s sub sub') {info info' : TypeParam}
    (hinfo : ParamImage φ s info info') :
    Option.Rel (Image φ s) (sub.lookup? info) (sub'.lookup? info') := by
  unfold Substitution.lookup?
  rw [hinfo.owner, hinfo.position]
  cases howner : info.owner with
  | callable id =>
      simp only [ParamOwner.rename, ← hsub.callable]
      split
      · exact rel_getElem? hsub.callableArgs info.position
      · exact .none
  | type definition =>
      have hdefinition : Image φ s definition (φ definition) :=
        ⟨hinfo.definition_lt definition howner, rfl⟩
      have hiff : sub.typeOwner = some definition ↔ sub'.typeOwner = some (φ definition) := by
        have howners := hsub.typeOwner
        generalize sub.typeOwner = owner, sub'.typeOwner = owner' at howners ⊢
        cases howners with
        | none => simp
        | some hd => simpa using h.eq_iff hd hdefinition
      by_cases hbound : sub.typeOwner = some definition
      · simp only [ParamOwner.rename, if_pos hbound, if_pos (hiff.mp hbound)]
        exact rel_getElem? hsub.typeArgs info.position
      · simp only [ParamOwner.rename, if_neg hbound, if_neg fun h => hbound (hiff.mpr h)]
        exact .none

theorem resolve (h : Embeds φ s s') (hsub : SubstitutionImage φ s sub sub')
    (hab : Image φ s a b) :
    query.Rel (Image φ s) (sub.resolve s a) (sub'.resolve s' b) := by
  refine query.bind (h.param? hab) ?_
  rintro _ _ (hinfo | _)
  · refine query.pure ?_
    have hbound := h.lookup? hsub hinfo
    rw [Option.bind_some, Option.bind_some]
    revert hbound
    generalize sub.lookup? _ = bound, sub'.lookup? _ = bound'
    rintro (hbound | _)
    · exact hbound
    · exact hab
  · exact query.pure hab

theorem equalWithin (h : Embeds φ s s') (hsub : SubstitutionImage φ s sub sub') (fuel : Nat)
    (hab : Image φ s a b) (hcd : Image φ s c d) :
    query.Rel (· = ·) (sub.equalWithin s fuel a c) (sub'.equalWithin s' fuel b d) := by
  induction fuel generalizing a b c d with
  | zero => exact .error _
  | succ fuel ih =>
      refine query.bind (h.resolve hsub hab) fun a b hab => ?_
      refine query.bind (h.resolve hsub hcd) fun c d hcd => ?_
      refine query.ite (h.eq_iff hab hcd) (fun _ => query.pure rfl) fun _ => ?_
      refine query.bind (h.isOpen hab) ?_
      rintro open₁ _ rfl
      refine query.bind (h.isOpen hcd) ?_
      rintro open₂ _ rfl
      refine query.branch rfl (query.pure rfl) ?_
      refine query.bind (h.array? hab) fun array₁ array₁' harray₁ => ?_
      refine query.bind (h.array? hcd) fun array₂ array₂' harray₂ => ?_
      rcases harray₁ with harray₁ | _ <;> rcases harray₂ with harray₂ | _
      · dsimp only
        rw [harray₁.2, harray₂.2]
        exact query.ite Iff.rfl (fun _ => ih harray₁.1 harray₂.1) fun _ => query.pure rfl
      -- Unless both are arrays, only instantiations of one definition can be identical.
      all_goals
        refine query.bind (h.definition? hab) fun definition₁ definition₁' hd₁ => ?_
        refine query.bind (h.definition? hcd) fun definition₂ definition₂' hd₂ => ?_
        rcases hd₁ with hd₁ | _ <;> rcases hd₂ with hd₂ | _
        · refine query.ite (h.eq_iff hd₁ hd₂) (fun _ => ?_) fun _ => query.pure rfl
          refine query.bind (h.arguments hab) fun args args' hargs => ?_
          refine query.bind (h.arguments hcd) fun args₁ args₁' hargs₁ => ?_
          rw [hargs.length_eq, hargs₁.length_eq]
          refine query.ite Iff.rfl (fun _ => ?_) fun _ => query.pure rfl
          exact query.allM (forall₂_zip hargs hargs₁) fun p q hpq => ih hpq.1 hpq.2
        all_goals exact query.pure rfl

theorem SubstitutionImage.inRange (h : Embeds φ s s') (hsub : SubstitutionImage φ s sub sub') :
    sub.InRange s ∧ sub'.InRange s' := by
  have hargs := forall₂_append hsub.typeArgs hsub.callableArgs
  constructor
  · intro arg harg
    obtain ⟨arg', -, himage⟩ := mem_of_forall₂ hargs harg
    exact himage.1
  · intro arg' harg'
    obtain ⟨arg, -, himage⟩ := mem_of_forall₂ hargs.flip harg'
    exact h.lt himage

/-- The fuel grows with the store, but no walk that ends needs all of it. -/
theorem equal (h : Embeds φ s s') (hsub : SubstitutionImage φ s sub sub') (hab : Image φ s a b)
    (hcd : Image φ s c d) : query.Rel (· = ·) (sub.equal s a c) (sub'.equal s' b d) := by
  have hs := h.wellFormed.coherent
  have hs' := h.coherent
  obtain ⟨hrange, hrange'⟩ := hsub.inRange h
  have hb := h.lt hab
  have hd := h.lt hcd
  have hsame : ∀ fuel, sub.equalWithin s fuel a c = sub'.equalWithin s' fuel b d :=
    fun fuel => (h.equalWithin hsub fuel hab hcd).eq
  obtain ⟨fuel, hfuel, hfuel'⟩ : ∃ fuel, s.size * s.size + 1 ≤ fuel ∧ s'.size * s'.size + 1 ≤ fuel :=
    ⟨_, le_max_left _ _, le_max_right _ _⟩
  rcases Substitution.equal_or_diverges hs hrange hab.1 hcd.1 with
    ⟨answer, hanswer⟩ | ⟨hfault, hdiverges⟩
  · have hlong := Substitution.equalWithin_le hs hrange hfuel hab.1 hcd.1 hanswer
    rcases Substitution.equal_or_diverges hs' hrange' hb hd with
      ⟨answer', hanswer'⟩ | ⟨-, hdiverges'⟩
    · have hlong' := Substitution.equalWithin_le hs' hrange' hfuel' hb hd hanswer'
      rw [hsame fuel, hlong'] at hlong
      cases hlong
      rw [hanswer, hanswer']
      exact .ok rfl
    · rw [hsame fuel, hdiverges' fuel] at hlong
      cases hlong
  · rcases Substitution.equal_or_diverges hs' hrange' hb hd with
      ⟨answer', hanswer'⟩ | ⟨hfault', -⟩
    · have hlong' := Substitution.equalWithin_le hs' hrange' hfuel' hb hd hanswer'
      rw [← hsame fuel, hdiverges fuel] at hlong'
      cases hlong'
    · rw [hfault, hfault']
      exact .error _

end Identity

section Guards

variable {κ κ' : Type}

/-- Guards that are at related places of a walk. -/
structure GuardImage (R : κ → κ' → Prop) (guard : Guard κ) (guard' : Guard κ') : Prop where
  limits : guard.limits = guard'.limits
  visiting : List.Forall₂ R guard.visiting guard'.visiting
  depth : guard.depth = guard'.depth
  iterations : guard.iterations = guard'.iterations
  exceeded : guard.exceeded = guard'.exceeded

variable {R : κ → κ' → Prop} {guard : Guard κ} {guard' : Guard κ'} {key : κ} {key' : κ'}

theorem guardImage_ofLimits (limits : Limits) :
    GuardImage R (Guard.ofLimits limits) (Guard.ofLimits limits) :=
  ⟨rfl, .nil, rfl, rfl, rfl⟩

theorem visiting_iff (hR : ∀ k l k' l', R k k' → R l l' → (k = l ↔ k' = l')) {keys : List κ}
    {keys' : List κ'} (hkeys : List.Forall₂ R keys keys') (hkey : R key key') :
    key ∈ keys ↔ key' ∈ keys' := by
  induction hkeys with
  | nil => simp
  | cons hhead _ ih => rw [List.mem_cons, List.mem_cons, hR _ _ _ _ hkey hhead, ih]

theorem GuardImage.release (h : GuardImage R guard guard') :
    query.Rel (· = ·) guard.release guard'.release := by
  have hvisiting := h.visiting
  unfold Guard.release
  generalize guard.visiting = keys, guard'.visiting = keys' at hvisiting ⊢
  rw [hvisiting.length_eq]
  cases hvisiting with
  | nil => exact .ok rfl
  | cons _ _ => exact .error _

variable [DecidableEq κ] [DecidableEq κ']

theorem GuardImage.enter (hR : ∀ k l k' l', R k k' → R l l' → (k = l ↔ k' = l'))
    (h : GuardImage R guard guard') (hkey : R key key') :
    (guard.enter key).1 = (guard'.enter key').1 ∧
      GuardImage R (guard.enter key).2 (guard'.enter key').2 := by
  have hvisiting := visiting_iff hR h.visiting hkey
  unfold Guard.enter
  simp only [h.limits, h.iterations, h.depth, hvisiting]
  split
  · exact ⟨rfl, rfl, h.visiting, rfl, rfl, rfl⟩
  · split
    · exact ⟨rfl, rfl, h.visiting, rfl, rfl, rfl⟩
    · split
      · exact ⟨rfl, rfl, h.visiting, rfl, rfl, h.exceeded⟩
      · exact ⟨rfl, rfl, .cons hkey h.visiting, rfl, rfl, h.exceeded⟩

theorem GuardImage.leave (hR : ∀ k l k' l', R k k' → R l l' → (k = l ↔ k' = l'))
    (h : GuardImage R guard guard') (hkey : R key key') :
    query.Rel (GuardImage R) (guard.leave key) (guard'.leave key') := by
  have herase : ∀ {keys keys'}, List.Forall₂ R keys keys' →
      List.Forall₂ R (keys.erase key) (keys'.erase key') := by
    intro keys keys' hkeys
    induction hkeys with
    | nil => exact .nil
    | @cons k k' _ _ hhead htail ih =>
        have hiff := hR _ _ _ _ hhead hkey
        by_cases heq : k = key
        · rw [heq, hiff.mp heq, List.erase_cons_head, List.erase_cons_head]
          exact htail
        · rw [List.erase_cons_tail (by simpa using heq),
            List.erase_cons_tail (by simpa using fun h => heq (hiff.mpr h))]
          exact .cons hhead ih
  refine query.ite (visiting_iff hR h.visiting hkey) (fun _ => ?_) fun _ => .error _
  exact query.pure ⟨h.limits, herase h.visiting, by rw [h.depth], h.iterations, h.exceeded⟩

end Guards

section Assignability

variable {sub sub' : Substitution}

/-- Pairs of a type and of a type that it is compared with. -/
def PairImage (φ : Handle → Handle) (s : Store) (p q : Handle × Handle) : Prop :=
  Image φ s p.1 q.1 ∧ Image φ s p.2 q.2

theorem pair_eq_iff (h : Embeds φ s s') (k l k' l' : Handle × Handle) (hk : PairImage φ s k k')
    (hl : PairImage φ s l l') : k = l ↔ k' = l' := by
  rw [Prod.ext_iff, Prod.ext_iff, h.eq_iff hk.1 hl.1, h.eq_iff hk.2 hl.2]

/-- Walks on guards at related places that answer the same. -/
abbrev relation (φ : Handle → Handle) (s : Store) : MonadRelation RelationM RelationM :=
  query.withState (GuardImage (PairImage φ s))

/-- Two relations between types answer the same on types and on their images. -/
def RelatesAlike (φ : Handle → Handle) (s : Store)
    (rel rel' : Handle → Handle → RelationM Bool) : Prop :=
  ∀ ⦃a b c d⦄, Image φ s a b → Image φ s c d → (relation φ s).Rel (· = ·) (rel a c) (rel' b d)

variable {rel rel' : Handle → Handle → RelationM Bool}

theorem isSequenceInstance (h : Embeds φ s s') (hab : Image φ s a b) :
    query.Rel (· = ·) (Assignability.isSequenceInstance s a)
      (Assignability.isSequenceInstance s' b) := by
  refine query.bind (h.definition? hab) ?_
  rintro _ _ (hd | _)
  · refine query.pure ?_
    rw [h.isSequenceInterface hd, bne, bne]
    congr 2
    rw [Bool.eq_iff_iff, beq_iff_eq, beq_iff_eq]
    exact h.eq_iff hd hab
  · exact query.pure rfl

theorem wraps (h : Embeds φ s s') (hsub : SubstitutionImage φ s sub sub') (hab : Image φ s a b)
    (hcd : Image φ s c d) :
    query.Rel (· = ·) (Assignability.wraps s sub a c) (Assignability.wraps s' sub' b d) := by
  refine query.bind (h.isOptionalWrapper hcd) fun _ _ hwrapper => ?_
  refine query.branch hwrapper (query.bind (h.arguments hcd) ?_) (query.pure rfl)
  rintro _ _ (_ | ⟨hinner, _ | ⟨_, _⟩⟩)
  · exact query.pure rfl
  · exact h.equal hsub hab hinner
  · exact query.pure rfl

theorem element (h : Embeds φ s s') (hsub : SubstitutionImage φ s sub sub')
    (hrel : RelatesAlike φ s rel rel') (hab : Image φ s a b) (hcd : Image φ s c d) :
    (relation φ s).Rel (· = ·) (Assignability.element s sub rel a c)
      (Assignability.element s' sub' rel' b d) := by
  refine (relation φ s).bind (lift_query (h.equal hsub hab hcd)) fun _ _ hequal => ?_
  refine (relation φ s).branch hequal ((relation φ s).pure rfl) ?_
  refine (relation φ s).bind (lift_query (h.resolve hsub hab)) fun a b hab => ?_
  refine (relation φ s).bind (lift_query (h.resolve hsub hcd)) fun c d hcd => ?_
  refine (relation φ s).bind (lift_query (h.isReferenceType hab)) fun _ _ hsource => ?_
  refine (relation φ s).branch hsource ?_ ((relation φ s).pure rfl)
  refine (relation φ s).bind (lift_query (h.isReferenceType hcd)) fun _ _ htarget => ?_
  exact (relation φ s).branch htarget (hrel hab hcd) ((relation φ s).pure rfl)

theorem argument (h : Embeds φ s s') (hsub : SubstitutionImage φ s sub sub')
    (hrel : RelatesAlike φ s rel rel') {definition definition' : Handle}
    (hdefinition : Image φ s definition definition') (hab : Image φ s a b) (hcd : Image φ s c d)
    (position : Nat) :
    (relation φ s).Rel (· = ·) (Assignability.argument s sub rel definition a c position)
      (Assignability.argument s' sub' rel' definition' b d position) := by
  refine (relation φ s).bind (lift_query (h.declaredVariance hdefinition position)) ?_
  rintro variance _ rfl
  cases variance with
  | invariant => exact lift_query (h.equal hsub hab hcd)
  | covariant => exact h.element hsub hrel hab hcd
  | contravariant => exact h.element hsub hrel hcd hab

theorem compatibleArguments (h : Embeds φ s s') (hsub : SubstitutionImage φ s sub sub')
    (hrel : RelatesAlike φ s rel rel') {definition definition' : Handle}
    (hdefinition : Image φ s definition definition') (hab : Image φ s a b)
    (hcd : Image φ s c d) :
    (relation φ s).Rel (· = ·) (Assignability.arguments s sub rel definition a c)
      (Assignability.arguments s' sub' rel' definition' b d) := by
  refine (relation φ s).bind (lift_query (h.arguments hab)) fun as bs has => ?_
  refine (relation φ s).bind (lift_query (h.arguments hcd)) fun cs ds hcs => ?_
  rw [has.length_eq, hcs.length_eq]
  refine (relation φ s).ite Iff.rfl (fun _ => ?_) fun _ => (relation φ s).pure rfl
  refine (relation φ s).allM (forall₂_zipIdx (forall₂_zip has hcs)) ?_
  rintro ⟨⟨x, y⟩, position⟩ ⟨⟨x', y'⟩, _⟩ ⟨⟨hx, hy⟩, rfl⟩
  exact h.argument hsub hrel hdefinition hx hy position

theorem sequence (h : Embeds φ s s') (hsub : SubstitutionImage φ s sub sub')
    (hrel : RelatesAlike φ s rel rel') (hab : Image φ s a b) (hcd : Image φ s c d) :
    (relation φ s).Rel (· = ·) (Assignability.sequence s sub rel a c)
      (Assignability.sequence s' sub' rel' b d) := by
  refine (relation φ s).bind (lift_query (h.isSequenceInstance hcd)) fun _ _ hinstance => ?_
  refine (relation φ s).branch hinstance ?_ ((relation φ s).pure rfl)
  refine (relation φ s).bind (lift_query (h.arguments hcd)) ?_
  rintro _ _ (_ | ⟨helement, _ | ⟨_, _⟩⟩)
  · exact (relation φ s).pure rfl
  · exact h.element hsub hrel hab helement
  · exact (relation φ s).pure rfl

theorem nominal (h : Embeds φ s s') (hsub : SubstitutionImage φ s sub sub')
    (hrel : RelatesAlike φ s rel rel') (hab : Image φ s a b) (hcd : Image φ s c d) :
    (relation φ s).Rel (· = ·) (Assignability.nominal s sub rel a c)
      (Assignability.nominal s' sub' rel' b d) := by
  refine (relation φ s).bind (lift_query (h.definitionOrSelf hcd)) fun _ _ hdefinition => ?_
  refine (relation φ s).bind (lift_query (h.supertypes hab)) fun _ _ hsupertypes => ?_
  refine (relation φ s).anyM hsupertypes fun candidate candidate' hcandidate => ?_
  refine (relation φ s).bind (lift_query (h.definitionOrSelf hcandidate)) fun _ _ hown => ?_
  exact (relation φ s).ite (h.eq_iff hown hdefinition)
    (fun _ => h.compatibleArguments hsub hrel hdefinition hcandidate hcd)
    fun _ => (relation φ s).pure rfl

theorem rules (h : Embeds φ s s') (hsub : SubstitutionImage φ s sub sub')
    (hrel : RelatesAlike φ s rel rel') (hab : Image φ s a b) (hcd : Image φ s c d) :
    (relation φ s).Rel (· = ·) (Assignability.rules s sub rel a c)
      (Assignability.rules s' sub' rel' b d) := by
  have hnominal := h.nominal hsub hrel hab hcd
  refine (relation φ s).ite (h.eq_iff hcd h.image_root) (fun _ => (relation φ s).pure rfl)
    fun _ => ?_
  refine (relation φ s).bind (lift_query (h.wraps hsub hab hcd)) fun _ _ hwraps => ?_
  refine (relation φ s).branch hwraps ((relation φ s).pure rfl) ?_
  refine (relation φ s).bind (lift_query (h.array? hab)) fun _ _ hsource => ?_
  refine (relation φ s).bind (lift_query (h.array? hcd)) fun _ _ htarget => ?_
  cases hsource with
  | none =>
      cases htarget with
      | none => exact hnominal
      | some _ => exact (relation φ s).pure rfl
  | some hsource =>
      cases htarget with
      | some htarget =>
          dsimp only
          rw [hsource.2, htarget.2]
          exact (relation φ s).ite Iff.rfl
            (fun _ => h.element hsub hrel hsource.1 htarget.1) fun _ => (relation φ s).pure rfl
      | none =>
          dsimp only
          rw [hsource.2]
          refine (relation φ s).ite Iff.rfl (fun _ => ?_) fun _ => hnominal
          refine (relation φ s).bind (h.sequence hsub hrel hsource.1 hcd) fun _ _ hsequence => ?_
          exact (relation φ s).branch hsequence ((relation φ s).pure rfl) hnominal

theorem step (h : Embeds φ s s') (hsub : SubstitutionImage φ s sub sub')
    (hrel : RelatesAlike φ s rel rel') :
    RelatesAlike φ s (Assignability.step s sub rel) (Assignability.step s' sub' rel') := by
  intro a b c d hab hcd
  refine (relation φ s).bind (lift_query (h.resolve hsub hab)) fun a b hab => ?_
  refine (relation φ s).bind (lift_query (h.resolve hsub hcd)) fun c d hcd => ?_
  refine (relation φ s).ite (h.eq_iff hab hcd) (fun _ => (relation φ s).pure rfl) fun _ => ?_
  have hpair : PairImage φ s (a, c) (b, d) := ⟨hab, hcd⟩
  have henter : (relation φ s).Rel (· = ·)
      (modifyGet (·.enter (a, c)) : RelationM Admission) (modifyGet (·.enter (b, d))) :=
    fun guard guard' hguard => query.pure (hguard.enter h.pair_eq_iff hpair)
  refine (relation φ s).bind henter ?_
  rintro admission _ rfl
  cases admission with
  | entered =>
      refine (relation φ s).bind (h.rules hsub hrel hab hcd) fun _ _ hanswer => ?_
      refine (relation φ s).bind query.withState_get fun guard guard' hguard => ?_
      refine (relation φ s).bind (lift_query (hguard.leave h.pair_eq_iff hpair)) ?_
      intro left left' hleft
      exact (relation φ s).bind (query.withState_set hleft) fun _ _ _ =>
        (relation φ s).pure hanswer
  | cycle => exact (relation φ s).pure rfl
  | depthExceeded => exact (relation φ s).pure rfl
  | iterationExceeded => exact (relation φ s).pure rfl

theorem relate (h : Embeds φ s s') (hsub : SubstitutionImage φ s sub sub') (depth : Nat) :
    RelatesAlike φ s (Assignability.relate s sub depth) (Assignability.relate s' sub' depth) := by
  induction depth with
  | zero => exact h.step hsub fun _ _ _ _ _ _ _ _ _ => .error _
  | succ depth ih => exact h.step hsub ih

theorem check (h : Embeds φ s s') (hsub : SubstitutionImage φ s sub sub') :
    RelatesAlike φ s (Assignability.check s sub) (Assignability.check s' sub') :=
  h.relate hsub _

theorem runFresh {α β : Type} {R : α → β → Prop} {walk : RelationM α} {walk' : RelationM β}
    (hwalk : (relation φ s).Rel R walk walk') : query.Rel R walk.runFresh walk'.runFresh := by
  refine query.bind (hwalk _ _ (guardImage_ofLimits _)) fun _ _ hanswer => ?_
  exact query.bind hanswer.2.release fun _ _ _ => query.pure hanswer.1

theorem isAssignable (h : Embeds φ s s') (hab : Image φ s a b) (hcd : Image φ s c d) :
    query.Rel (· = ·) (s.isAssignable a c) (s'.isAssignable b d) :=
  runFresh (h.check substitutionImage_empty hab hcd)

end Assignability

end Embeds

end NominalGenerics
