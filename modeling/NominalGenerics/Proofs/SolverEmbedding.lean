import NominalGenerics.Command
import NominalGenerics.Proofs.Embedding

/-!
# The solver on embedded stores

A store that is embedded in another one together with its constraints and the integral types of its
enums cannot be told apart from it by the solver. Matching a type against a template, fixing bounds,
checking constraints and the whole inference of a call go through related steps on both stores: they
record corresponding witnesses, fail alike, and write the same reports.
-/

namespace NominalGenerics

open MonadRelation

section Images

variable {φ : Handle → Handle} {s : Store}

/-- Constraints of the same kind, with corresponding targets. -/
inductive ConstraintImage (φ : Handle → Handle) (s : Store) : Constraint → Constraint → Prop
  | valueType : ConstraintImage φ s .valueType .valueType
  | referenceType : ConstraintImage φ s .referenceType .referenceType
  | defaultConstructible : ConstraintImage φ s .defaultConstructible .defaultConstructible
  | base {target target' : Handle} (h : Image φ s target target') :
      ConstraintImage φ s (.base target) (.base target')

/-- Signatures that mention corresponding types. -/
structure SignatureImage (φ : Handle → Handle) (s : Store) (signature signature' : Signature) :
    Prop where
  id : signature.id = signature'.id
  typeParams : List.Forall₂ (Image φ s) signature.typeParams signature'.typeParams
  params : List.Forall₂ (fun p q => Image φ s p.type q.type ∧ p.mode = q.mode) signature.params
    signature'.params
  returns : Option.Rel (Image φ s) signature.returns signature'.returns
  declaringType : Option.Rel (Image φ s) signature.declaringType signature'.declaringType

/-- Bounds with corresponding witnesses. -/
structure BoundsImage (φ : Handle → Handle) (s : Store) (bounds bounds' : BoundSet) : Prop where
  lower : List.Forall₂ (Image φ s) bounds.lower bounds'.lower
  upper : List.Forall₂ (Image φ s) bounds.upper bounds'.upper
  exact : List.Forall₂ (Image φ s) bounds.exact bounds'.exact

theorem boundsImage_empty : BoundsImage φ s {} {} := ⟨.nil, .nil, .nil⟩

/-- Matches at the same depth that have recorded corresponding bounds. -/
structure CollectorImage (φ : Handle → Handle) (s : Store) (collector collector' : Collector) :
    Prop where
  bounds : List.Forall₂ (BoundsImage φ s) collector.bounds collector'.bounds
  depth : collector.depth = collector'.depth

/-- Inferences that have recorded corresponding bounds and fixed corresponding types. -/
structure InferredImage (φ : Handle → Handle) (s : Store) (inferred inferred' : InferredBounds) :
    Prop where
  typeParams : List.Forall₂ (Image φ s) inferred.typeParams inferred'.typeParams
  bounds : List.Forall₂ (BoundsImage φ s) inferred.bounds inferred'.bounds
  fixed : List.Forall₂ (Option.Rel (Image φ s)) inferred.fixed inferred'.fixed

end Images

/-- The renaming `φ` embeds `s` in `s'` together with constraints and integral types of enums. -/
structure FullyEmbeds (φ : Handle → Handle) (s s' : Store) : Prop extends Embeds φ s s' where
  constraints : ∀ {type : Handle} {entry entry' info info'}, s.types[type]? = some entry →
    s'.types[φ type]? = some entry' → entry.param? = some info → entry'.param? = some info' →
    List.Forall₂ (ConstraintImage φ s) info.constraints info'.constraints
  underlying : ∀ {type : Handle} {entry entry'}, s.types[type]? = some entry →
    s'.types[φ type]? = some entry' → Option.Rel (Image φ s) entry.underlying entry'.underlying

namespace Embeds

variable {φ : Handle → Handle} {s s' : Store} {a b c d : Handle}

section Bounds

variable {bounds bounds' : BoundSet}

theorem add_witness (h : Embeds φ s s') {ws ws' : Witnesses} (hws : List.Forall₂ (Image φ s) ws ws')
    (hab : Image φ s a b) : List.Forall₂ (Image φ s) (ws.add a) (ws'.add b) := by
  have hiff : ws = [a] ↔ ws' = [b] := by
    cases hws with
    | nil => simp
    | cons hhead htail =>
        cases htail with
        | nil => simpa using h.eq_iff hhead hab
        | cons _ _ => simp
  unfold Witnesses.add
  by_cases hsingle : ws = [a]
  · rw [if_pos hsingle, if_pos (hiff.mp hsingle)]
    exact hws
  · rw [if_neg hsingle, if_neg fun h => hsingle (hiff.mpr h)]
    exact forall₂_append hws (.cons hab .nil)

theorem add_bound (h : Embeds φ s s') (hbounds : BoundsImage φ s bounds bounds')
    (hab : Image φ s a b) (flow : Flow) :
    BoundsImage φ s (bounds.add a flow) (bounds'.add b flow) := by
  cases flow with
  | invariant => exact ⟨hbounds.lower, hbounds.upper, h.add_witness hbounds.exact hab⟩
  | covariant => exact ⟨h.add_witness hbounds.lower hab, hbounds.upper, hbounds.exact⟩
  | contravariant => exact ⟨hbounds.lower, h.add_witness hbounds.upper hab, hbounds.exact⟩

theorem allAbove (h : Embeds φ s s') {ws ws' : Witnesses} (hws : List.Forall₂ (Image φ s) ws ws')
    (hab : Image φ s a b) :
    query.Rel (· = ·) (ws.allAbove s.isAssignable a) (ws'.allAbove s'.isAssignable b) :=
  query.allM hws fun _ _ hcd => h.isAssignable hab hcd

theorem allBelow (h : Embeds φ s s') {ws ws' : Witnesses} (hws : List.Forall₂ (Image φ s) ws ws')
    (hab : Image φ s a b) :
    query.Rel (· = ·) (ws.allBelow s.isAssignable a) (ws'.allBelow s'.isAssignable b) :=
  query.allM hws fun _ _ hcd => h.isAssignable hcd hab

/-- A witness that passes a further test. -/
theorem accept (hab : Image φ s a b) {x y : Query Bool} (hxy : query.Rel (· = ·) x y) :
    query.Rel (Option.Rel (Image φ s)) (do if ← x then return some a else return none)
      (do if ← y then return some b else return none) :=
  query.bind hxy fun _ _ heq => query.branch heq (query.pure (.some hab)) (query.pure .none)

theorem fix? (h : Embeds φ s s') (hbounds : BoundsImage φ s bounds bounds') :
    query.Rel (Option.Rel (Image φ s)) (bounds.fix? s.isAssignable)
      (bounds'.fix? s'.isAssignable) := by
  unfold BoundSet.fix?
  have hexact := hbounds.exact
  generalize bounds.exact = exact, bounds'.exact = exact' at hexact ⊢
  cases hexact with
  | cons hhead htail =>
      cases htail with
      | nil =>
          refine query.bind (h.allAbove hbounds.upper hhead) fun _ _ heq => ?_
          exact query.branch heq (accept hhead (h.allBelow hbounds.lower hhead)) (query.pure .none)
      | cons _ _ => exact query.pure .none
  | nil =>
      refine query.bind (first? hbounds.upper fun _ _ hab => h.allAbove hbounds.upper hab) ?_
      rintro _ _ (hupper | _)
      · exact accept hupper (h.allBelow hbounds.lower hupper)
      · refine query.bind (first? hbounds.lower fun _ _ hab => h.allBelow hbounds.lower hab) ?_
        rintro _ _ (hlower | _)
        · exact accept hlower (h.allAbove hbounds.upper hlower)
        · exact query.pure .none

/-- Corresponding types have the same names. -/
theorem names (h : Embeds φ s s') {types types' : List Handle}
    (htypes : List.Forall₂ (Image φ s) types types') :
    query.Rel (· = ·) (types.mapM s.typeName) (types'.mapM s'.typeName) :=
  mapM_eq htypes fun _ _ hab => h.typeName hab

theorem render (h : Embeds φ s s') (hbounds : BoundsImage φ s bounds bounds') :
    query.Rel (· = ·) (bounds.render s) (bounds'.render s') := by
  have hside : ∀ {ws ws' : Witnesses} (label : String), List.Forall₂ (Image φ s) ws ws' →
      query.Rel (· = ·)
        (return label ++ "=\x7b" ++ ", ".intercalate (← ws.mapM s.typeName) ++ "\x7d")
        (return label ++ "=\x7b" ++ ", ".intercalate (← ws'.mapM s'.typeName) ++ "\x7d") :=
    fun label hws => query.bind (h.names hws) fun _ _ heq => query.pure (by rw [heq])
  refine query.bind (hside "lower" hbounds.lower) ?_
  rintro lower _ rfl
  refine query.bind (hside "upper" hbounds.upper) ?_
  rintro upper _ rfl
  refine query.bind (hside "exact" hbounds.exact) ?_
  rintro exact _ rfl
  exact query.pure rfl

end Bounds

section Collection

variable {signature signature' : Signature}
  {collect collect' : Handle → Handle → Flow → CollectM Bool}

/-- Matches that go through related steps. -/
abbrev collecting (φ : Handle → Handle) (s : Store) : MonadRelation CollectM CollectM :=
  query.withState (CollectorImage φ s)

/-- Two ways to match types do the same on types and on their images. -/
def CollectsAlike (φ : Handle → Handle) (s : Store)
    (collect collect' : Handle → Handle → Flow → CollectM Bool) : Prop :=
  ∀ ⦃a b c d⦄ (flow : Flow), Image φ s a b → Image φ s c d →
    (collecting φ s).Rel (· = ·) (collect a c flow) (collect' b d flow)

theorem owner_eq_callable {info info' : TypeParam} (hinfo : ParamImage φ s info info')
    {id : CallableId} : info.owner = .callable id ↔ info'.owner = .callable id := by
  rw [hinfo.owner]
  cases info.owner <;> simp [ParamOwner.rename]

theorem enclosingArgument (h : Embeds φ s s') (hsignature : SignatureImage φ s signature signature')
    (hab : Image φ s a b) :
    query.Rel (Image φ s) (Collection.enclosingArgument s signature a)
      (Collection.enclosingArgument s' signature' b) := by
  refine query.bind (h.param? hab) ?_
  have hdeclaring := hsignature.declaringType
  generalize signature.declaringType = declaring,
    signature'.declaringType = declaring' at hdeclaring
  rintro _ _ (hinfo | _)
  · cases hdeclaring with
    | none => exact query.pure hab
    | some hdeclaring =>
        rename_i info info' _ _
        dsimp only
        rw [hinfo.owner, hinfo.position]
        cases howner : info.owner with
        | callable id => exact query.pure hab
        | type definition =>
            have hdefinition : Image φ s definition (φ definition) :=
              ⟨hinfo.definition_lt definition howner, rfl⟩
            refine query.bind (h.definition? hdeclaring) fun found found' hfound => ?_
            have hiff : found = some definition ↔ found' = some (φ definition) := by
              cases hfound with
              | none => simp
              | some hd => simpa using h.eq_iff hd hdefinition
            refine query.ite hiff (fun _ => ?_) fun _ => query.pure hab
            refine query.bind (h.arguments hdeclaring) fun args args' hargs => query.pure ?_
            have harg := rel_getElem? hargs info.position
            generalize args[info.position]? = arg, args'[info.position]? = arg' at harg ⊢
            cases harg with
            | none => exact hab
            | some harg => exact harg
  · exact query.pure hab

theorem record (h : Embeds φ s s') (hab : Image φ s a b) (position : Nat) (flow : Flow) :
    (collecting φ s).Rel (· = ·) (Collection.record position a flow)
      (Collection.record position b flow) := by
  refine (collecting φ s).bind query.withState_get fun collector collector' hcollector => ?_
  rw [hcollector.bounds.length_eq]
  refine (collecting φ s).ite Iff.rfl (fun _ => ?_) fun _ => (collecting φ s).pure rfl
  refine (collecting φ s).bind (query.withState_modify fun k k' hk => ?_) fun _ _ _ =>
    (collecting φ s).pure rfl
  exact ⟨forall₂_modify (fun _ _ hbounds => h.add_bound hbounds hab flow) hk.bounds position,
    hk.depth⟩

theorem relateConcrete (h : Embeds φ s s') (hab : Image φ s a b) (hcd : Image φ s c d)
    (flow : Flow) :
    query.Rel (· = ·) (Collection.relateConcrete s a c flow)
      (Collection.relateConcrete s' b d flow) := by
  cases flow with
  | covariant => exact h.isAssignable hab hcd
  | contravariant => exact h.isAssignable hcd hab
  | invariant =>
      refine query.pure ?_
      rw [Bool.eq_iff_iff, beq_iff_eq, beq_iff_eq]
      exact h.eq_iff hab hcd

theorem containerElement? (h : Embeds φ s s') (hab : Image φ s a b) (rank : Nat) :
    query.Rel (Option.Rel (Image φ s)) (Collection.containerElement? s a rank)
      (Collection.containerElement? s' b rank) := by
  refine query.bind (h.array? hab) ?_
  rintro _ _ (harray | _)
  · dsimp only
    rw [harray.2]
    refine query.pure ?_
    split
    · exact .some harray.1
    · exact .none
  · refine query.ite Iff.rfl (fun _ => query.pure .none) fun _ => ?_
    refine query.bind (h.isSequenceInstance hab) fun _ _ heq => ?_
    refine query.branch heq (query.bind (h.arguments hab) ?_) (query.pure .none)
    rintro _ _ (_ | ⟨helement, _ | ⟨_, _⟩⟩)
    · exact query.pure .none
    · exact query.pure (.some helement)
    · exact query.pure .none

/-- Matching arrays in a direction, where `x` and `y` are the more derived sides. -/
theorem arraysDirected (h : Embeds φ s s') (hcollect : CollectsAlike φ s collect collect')
    (hab : Image φ s a b) (hcd : Image φ s c d) {x y : Handle} (hxy : Image φ s x y) (flow : Flow) :
    (collecting φ s).Rel (· = ·)
      (do
        match ← s.array? x with
        | none => return false
        | some (_, rank) =>
            match ← Collection.containerElement? s a rank,
              ← Collection.containerElement? s c rank with
            | some sourceElement, some targetElement =>
                let elementFlow := if ← s.isValueType sourceElement then .invariant else flow
                collect sourceElement targetElement elementFlow
            | _, _ => return false : CollectM Bool)
      (do
        match ← s'.array? y with
        | none => return false
        | some (_, rank) =>
            match ← Collection.containerElement? s' b rank,
              ← Collection.containerElement? s' d rank with
            | some sourceElement, some targetElement =>
                let elementFlow := if ← s'.isValueType sourceElement then .invariant else flow
                collect' sourceElement targetElement elementFlow
            | _, _ => return false : CollectM Bool) := by
  refine (collecting φ s).bind (lift_query (h.array? hxy)) ?_
  rintro _ _ (harray | _)
  · dsimp only
    rw [harray.2]
    refine (collecting φ s).bind (lift_query (h.containerElement? hab _)) fun _ _ hsource => ?_
    refine (collecting φ s).bind (lift_query (h.containerElement? hcd _)) fun _ _ htarget => ?_
    rcases hsource with hsource | _ <;> rcases htarget with htarget | _
    · refine (collecting φ s).bind (lift_query (h.isValueType hsource)) ?_
      rintro isValue _ rfl
      exact hcollect _ hsource htarget
    all_goals exact (collecting φ s).pure rfl
  · exact (collecting φ s).pure rfl

theorem arrays (h : Embeds φ s s') (hcollect : CollectsAlike φ s collect collect')
    (hab : Image φ s a b) (hcd : Image φ s c d) (flow : Flow) :
    (collecting φ s).Rel (· = ·) (Collection.arrays s collect a c flow)
      (Collection.arrays s' collect' b d flow) := by
  cases flow with
  | invariant =>
      refine (collecting φ s).bind (lift_query (h.array? hab)) fun _ _ hsource => ?_
      refine (collecting φ s).bind (lift_query (h.array? hcd)) fun _ _ htarget => ?_
      rcases hsource with hsource | _ <;> rcases htarget with htarget | _
      · dsimp only
        rw [hsource.2, htarget.2]
        exact (collecting φ s).ite Iff.rfl (fun _ => hcollect _ hsource.1 htarget.1)
          fun _ => (collecting φ s).pure rfl
      all_goals exact (collecting φ s).pure rfl
  | covariant => exact h.arraysDirected hcollect hab hcd hab .covariant
  | contravariant => exact h.arraysDirected hcollect hab hcd hcd .contravariant

theorem collectArgument (h : Embeds φ s s') (hcollect : CollectsAlike φ s collect collect')
    {definition definition' : Handle} (hdefinition : Image φ s definition definition') (flow : Flow)
    (hab : Image φ s a b) (hcd : Image φ s c d) (position : Nat) :
    (collecting φ s).Rel (· = ·) (Collection.argument s collect definition flow a c position)
      (Collection.argument s' collect' definition' flow b d position) := by
  refine (collecting φ s).bind (lift_query (h.declaredVariance hdefinition position)) ?_
  rintro declared _ rfl
  refine (collecting φ s).bind (lift_query (h.isValueType hab)) ?_
  rintro isValue _ rfl
  refine (collecting φ s).bind (lift_query (h.isOpen hcd)) fun _ _ heq => ?_
  exact (collecting φ s).branch heq (hcollect _ hab hcd)
    (lift_query (h.relateConcrete hab hcd _))

theorem collectArguments (h : Embeds φ s s') (hcollect : CollectsAlike φ s collect collect')
    {definition definition' : Handle} (hdefinition : Image φ s definition definition')
    {as bs cs ds : List Handle} (has : List.Forall₂ (Image φ s) as bs)
    (hcs : List.Forall₂ (Image φ s) cs ds) (flow : Flow) :
    (collecting φ s).Rel (· = ·) (Collection.arguments s collect definition as cs flow)
      (Collection.arguments s' collect' definition' bs ds flow) := by
  unfold Collection.arguments
  rw [has.length_eq, hcs.length_eq]
  refine (collecting φ s).ite Iff.rfl (fun _ => ?_) fun _ => (collecting φ s).pure rfl
  refine (collecting φ s).allM (forall₂_zipIdx (forall₂_zip has hcs)) ?_
  rintro ⟨⟨x, y⟩, position⟩ ⟨⟨x', y'⟩, _⟩ ⟨⟨hx, hy⟩, rfl⟩
  exact h.collectArgument hcollect hdefinition flow hx hy position

theorem implementation (h : Embeds φ s s') (hcollect : CollectsAlike φ s collect collect')
    (hab : Image φ s a b) (hcd : Image φ s c d) (flow : Flow) :
    (collecting φ s).Rel (· = ·) (Collection.implementation s collect a c flow)
      (Collection.implementation s' collect' b d flow) := by
  refine (collecting φ s).bind (lift_query (h.definitionOrSelf hab)) fun _ _ hsource => ?_
  refine (collecting φ s).bind (lift_query (h.definitionOrSelf hcd)) fun _ _ htarget => ?_
  cases flow with
  | invariant =>
      refine (collecting φ s).ite (h.eq_iff hsource htarget) (fun _ => ?_)
        fun _ => (collecting φ s).pure rfl
      refine (collecting φ s).bind (lift_query (h.arguments hab)) fun _ _ has => ?_
      refine (collecting φ s).bind (lift_query (h.arguments hcd)) fun _ _ hcs => ?_
      exact h.collectArguments hcollect htarget has hcs .invariant
  | covariant =>
      refine (collecting φ s).bind (lift_query (h.findImplementation hab htarget)) ?_
      rintro _ _ (hfound | _ | _)
      · refine (collecting φ s).bind (lift_query (h.arguments hfound)) fun _ _ has => ?_
        refine (collecting φ s).bind (lift_query (h.arguments hcd)) fun _ _ hcs => ?_
        exact h.collectArguments hcollect htarget has hcs .covariant
      · exact (collecting φ s).pure rfl
      · exact (collecting φ s).pure rfl
  | contravariant =>
      refine (collecting φ s).bind (lift_query (h.findImplementation hcd hsource)) ?_
      rintro _ _ (hfound | _ | _)
      · refine (collecting φ s).bind (lift_query (h.arguments hab)) fun _ _ has => ?_
        refine (collecting φ s).bind (lift_query (h.arguments hfound)) fun _ _ hcs => ?_
        exact h.collectArguments hcollect hsource has hcs .contravariant
      · exact (collecting φ s).pure rfl
      · exact (collecting φ s).pure rfl

theorem collectStep (h : Embeds φ s s') (hsignature : SignatureImage φ s signature signature')
    (hcollect : CollectsAlike φ s collect collect') :
    CollectsAlike φ s (Collection.step s signature collect)
      (Collection.step s' signature' collect') := by
  intro a b c d flow hab hcd
  refine (collecting φ s).bind (lift_query (h.param? hcd)) ?_
  rintro _ _ (hinfo | _)
  · rw [hsignature.id]
    refine (collecting φ s).ite (owner_eq_callable hinfo) (fun _ => ?_) fun _ => ?_
    · rw [hinfo.position]
      exact h.record hab _ flow
    · refine (collecting φ s).bind (lift_query (h.enclosingArgument hsignature hcd)) ?_
      exact fun _ _ hargument => lift_query (h.relateConcrete hab hargument flow)
  · refine (collecting φ s).bind (lift_query (h.isOpen hcd)) fun _ _ hopen => ?_
    refine (collecting φ s).branch hopen ?_ (lift_query (h.relateConcrete hab hcd flow))
    refine (collecting φ s).bind (lift_query (h.array? hab)) fun _ _ hsource => ?_
    refine (collecting φ s).bind (lift_query (h.array? hcd)) fun _ _ htarget => ?_
    have hsome : ∀ {x y : Option (Handle × Nat)},
        Option.Rel (fun p q => Image φ s p.1 q.1 ∧ p.2 = q.2) x y → x.isSome = y.isSome := by
      rintro _ _ (_ | _)
      · rfl
      · rfl
    rw [hsome hsource, hsome htarget]
    exact (collecting φ s).branch rfl (h.arrays hcollect hab hcd flow)
      (h.implementation hcollect hab hcd flow)

theorem visit (h : Embeds φ s s') (hsignature : SignatureImage φ s signature signature')
    (hcollect : CollectsAlike φ s collect collect') :
    CollectsAlike φ s (Collection.visit s signature collect)
      (Collection.visit s' signature' collect') := by
  intro a b c d flow hab hcd
  refine (collecting φ s).bind query.withState_get fun collector collector' hcollector => ?_
  rw [hcollector.depth]
  refine (collecting φ s).bind (query.withState_modify fun k k' hk => ⟨hk.bounds, rfl⟩) ?_
  rintro _ _ -
  refine (collecting φ s).branch rfl ?_ ((collecting φ s).pure rfl)
  refine (collecting φ s).bind (h.collectStep hsignature hcollect flow hab hcd) ?_
  rintro matched _ rfl
  refine (collecting φ s).bind query.withState_get fun left left' hleft => ?_
  rw [hleft.depth]
  refine (collecting φ s).bind (lift_query (query_refl left'.depth.leave)) ?_
  rintro depth _ rfl
  exact (collecting φ s).bind (query.withState_modify fun k k' hk => ⟨hk.bounds, rfl⟩)
    fun _ _ _ => (collecting φ s).pure rfl

theorem collectWithin (h : Embeds φ s s') (hsignature : SignatureImage φ s signature signature')
    (depth : Nat) :
    CollectsAlike φ s (Collection.collectWithin s signature depth)
      (Collection.collectWithin s' signature' depth) := by
  induction depth with
  | zero => exact h.visit hsignature fun _ _ _ _ _ _ _ _ _ _ => .error _
  | succ depth ih => exact h.visit hsignature ih

theorem collectTypes (h : Embeds φ s s') (hsignature : SignatureImage φ s signature signature')
    (hab : Image φ s a b) (hcd : Image φ s c d) (flow : Flow) {bounds bounds' : List BoundSet}
    (hbounds : List.Forall₂ (BoundsImage φ s) bounds bounds') :
    query.Rel (fun p q => p.1 = q.1 ∧ List.Forall₂ (BoundsImage φ s) p.2 q.2)
      (Collection.collect s signature a c flow bounds)
      (Collection.collect s' signature' b d flow bounds') := by
  refine query.bind (h.collectWithin hsignature _ flow hab hcd _ _ ⟨hbounds, rfl⟩) ?_
  rintro ⟨matched, collector⟩ ⟨_, collector'⟩ ⟨rfl, hcollector⟩
  dsimp only
  rw [hcollector.depth]
  exact query.bind (query_refl _) fun _ _ _ => query.pure ⟨rfl, hcollector.bounds⟩

end Collection

end Embeds

namespace FullyEmbeds

variable {φ : Handle → Handle} {s s' : Store} {a b c d : Handle} {signature signature' : Signature}

section Casts

theorem underlying? (h : FullyEmbeds φ s s') (hab : Image φ s a b) :
    query.Rel (Option.Rel (Image φ s)) (s.underlying? a) (s'.underlying? b) := by
  obtain ⟨entry, entry', hentry, hentry', -⟩ := h.alike hab
  obtain ⟨-, rfl⟩ := id hab
  unfold Store.underlying?
  rw [Store.entry_eq_ok.mpr hentry, Store.entry_eq_ok.mpr hentry']
  exact .ok (h.underlying hentry hentry')

theorem valueKind? (h : FullyEmbeds φ s s') (hab : Image φ s a b) :
    query.Rel (· = ·) (s.valueKind? a) (s'.valueKind? b) := by
  refine query.bind (h.underlying? hab) ?_
  rintro _ _ (hunder | _)
  · exact h.primitive? hunder
  · exact h.primitive? hab

theorem canSpecialCast (h : FullyEmbeds φ s s') (hab : Image φ s a b) (hcd : Image φ s c d) :
    query.Rel (· = ·) (s.canSpecialCast a c) (s'.canSpecialCast b d) := by
  refine query.bind (h.flags hab) ?_
  rintro source _ rfl
  refine query.bind (h.flags hcd) ?_
  rintro target _ rfl
  refine query.branch rfl (query.pure rfl) ?_
  refine query.bind (h.valueKind? hab) ?_
  rintro sourceKind _ rfl
  refine query.branch rfl (query.pure rfl) ?_
  refine query.bind (h.valueKind? hcd) ?_
  rintro targetKind _ rfl
  exact query_refl _

theorem isSpecialCastSource (h : FullyEmbeds φ s s') (hab : Image φ s a b) :
    query.Rel (· = ·) (s.isSpecialCastSource a) (s'.isSpecialCastSource b) :=
  h.field hab fun _ _ e => by rw [e.flags, e.primitive]

theorem compatible (h : FullyEmbeds φ s s') (hab : Image φ s a b) (hcd : Image φ s c d) :
    query.Rel (· = ·) (Inference.compatible s a c) (Inference.compatible s' b d) := by
  refine query.bind (h.isAssignable hab hcd) fun _ _ heq => ?_
  refine query.branch heq (query.pure rfl) ?_
  refine query.bind (h.isSpecialCastSource hab) fun _ _ heq => ?_
  exact query.branch heq (h.canSpecialCast hab hcd) (query.pure rfl)

end Casts

section Constraints

variable {sub sub' : Substitution}

/-- Type parameters of the same place and variance, under corresponding constraints. -/
structure ConstrainedImage (φ : Handle → Handle) (s : Store) (info info' : TypeParam) : Prop where
  param : ParamImage φ s info info'
  constraints : List.Forall₂ (ConstraintImage φ s) info.constraints info'.constraints

theorem constrained (h : FullyEmbeds φ s s') (hab : Image φ s a b) :
    query.Rel (Option.Rel (ConstrainedImage φ s)) (s.param? a) (s'.param? b) := by
  obtain ⟨entry, entry', hentry, hentry', halike⟩ := h.alike hab
  obtain ⟨-, rfl⟩ := id hab
  have hconstraints : ∀ info info', entry.param? = some info → entry'.param? = some info' →
      List.Forall₂ (ConstraintImage φ s) info.constraints info'.constraints :=
    fun _ _ => h.constraints hentry hentry'
  have hparam := halike.param?
  unfold Store.param?
  rw [Store.entry_eq_ok.mpr hentry, Store.entry_eq_ok.mpr hentry']
  refine .ok ?_
  generalize entry.param? = param, entry'.param? = param' at hparam hconstraints ⊢
  cases hparam with
  | none => exact .none
  | some hinfo => exact .some ⟨hinfo, hconstraints _ _ rfl rfl⟩

theorem isDefaultConstructible (h : FullyEmbeds φ s s') (hab : Image φ s a b) :
    query.Rel (· = ·) (ConstraintCheck.isDefaultConstructible s a)
      (ConstraintCheck.isDefaultConstructible s' b) :=
  query.bind (h.flags hab) fun _ _ hflags => query.pure (by rw [hflags])

theorem satisfies (h : FullyEmbeds φ s s') (hsub : Embeds.SubstitutionImage φ s sub sub')
    (hab : Image φ s a b) {constraint constraint' : Constraint}
    (hconstraint : ConstraintImage φ s constraint constraint') :
    (Embeds.relation φ s).Rel (· = ·) (ConstraintCheck.satisfies s sub a constraint)
      (ConstraintCheck.satisfies s' sub' b constraint') := by
  cases hconstraint with
  | valueType =>
      refine (Embeds.relation φ s).bind (lift_query (h.isValueType hab)) fun _ _ hvalue => ?_
      refine (Embeds.relation φ s).branch hvalue ?_ ((Embeds.relation φ s).pure rfl)
      exact (Embeds.relation φ s).bind (lift_query (h.isOptionalWrapper hab)) fun _ _ hwrapper =>
        (Embeds.relation φ s).pure (by rw [hwrapper])
  | referenceType => exact lift_query (h.isReferenceType hab)
  | defaultConstructible => exact lift_query (h.isDefaultConstructible hab)
  | base htarget => exact h.check hsub hab htarget

theorem satisfiesAll (h : FullyEmbeds φ s s') (hsub : Embeds.SubstitutionImage φ s sub sub')
    (hcd : Image φ s c d) (hab : Image φ s a b) :
    (Embeds.relation φ s).Rel (· = ·) (ConstraintCheck.satisfiesAll s sub c a)
      (ConstraintCheck.satisfiesAll s' sub' d b) := by
  refine (Embeds.relation φ s).bind (lift_query (h.constrained hcd)) ?_
  rintro _ _ (hinfo | _)
  · exact (Embeds.relation φ s).allM hinfo.constraints fun _ _ hconstraint =>
      h.satisfies hsub hab hconstraint
  · exact (Embeds.relation φ s).pure rfl

/-- Declarations of corresponding types, or of callables with corresponding signatures. -/
inductive DeclarationImage (φ : Handle → Handle) (s : Store) : Declaration → Declaration → Prop
  | type {a b : Handle} (h : Image φ s a b) : DeclarationImage φ s (.type a) (.type b)
  | callable {signature signature' : Signature} (h : SignatureImage φ s signature signature') :
      DeclarationImage φ s (.callable signature) (.callable signature')

theorem binding? (h : FullyEmbeds φ s s') {declaration declaration' : Declaration}
    (hdeclaration : DeclarationImage φ s declaration declaration') {args args' : List Handle}
    (hargs : List.Forall₂ (Image φ s) args args') :
    query.Rel (Option.Rel fun p q => List.Forall₂ (Image φ s) p.1 q.1 ∧
        Embeds.SubstitutionImage φ s p.2 q.2)
      (ConstraintCheck.binding? s declaration args)
      (ConstraintCheck.binding? s' declaration' args') := by
  cases hdeclaration with
  | type hab =>
      refine query.bind (h.definition? hab) ?_
      rintro _ _ (hdefinition | _)
      · refine query.bind (h.arguments hdefinition) fun params params' hparams => query.pure ?_
        exact .some ⟨hparams, .some hdefinition, hargs, rfl, .nil⟩
      · exact query.pure .none
  | @callable signature signature' hsignature =>
      have hdeclaring := hsignature.declaringType
      have hid : some signature.id = some signature'.id := congrArg some hsignature.id
      unfold ConstraintCheck.binding?
      dsimp only
      generalize signature.declaringType = declaring, signature'.declaringType = declaring'
        at hdeclaring
      cases hdeclaring with
      | none => exact .ok (.some ⟨hsignature.typeParams, .none, .nil, hid, hargs⟩)
      | some hdeclaring =>
          refine query.bind (h.definition? hdeclaring) fun owner owner' howner => ?_
          refine query.bind (h.arguments hdeclaring) fun types types' htypes => ?_
          exact .ok (.some ⟨hsignature.typeParams, howner, htypes, hid, hargs⟩)

theorem satisfiesConstraints (h : FullyEmbeds φ s s') {declaration declaration' : Declaration}
    (hdeclaration : DeclarationImage φ s declaration declaration') {args args' : List Handle}
    (hargs : List.Forall₂ (Image φ s) args args') :
    query.Rel (· = ·) (s.satisfiesConstraints declaration args)
      (s'.satisfiesConstraints declaration' args') := by
  refine query.bind (h.binding? hdeclaration hargs) ?_
  rintro _ _ (⟨hparams, hsub⟩ | _)
  · dsimp only
    rw [hparams.length_eq, hargs.length_eq]
    refine query.ite Iff.rfl (fun _ => ?_) fun _ => query.pure rfl
    refine Embeds.runFresh ((Embeds.relation φ s).allM (forall₂_zip hparams hargs) ?_)
    rintro ⟨param, arg⟩ ⟨param', arg'⟩ ⟨hparam, harg⟩
    exact h.satisfiesAll hsub hparam harg
  · refine query.pure ?_
    cases hargs with
    | nil => rfl
    | cons _ _ => rfl

end Constraints

section Inferring

/-- Inferences that go through related steps. -/
abbrev inferring (φ : Handle → Handle) (s : Store) : MonadRelation InferM InferM :=
  (query.withState (InferredImage φ s)).withError InferenceFailure

theorem inferring_query {α β : Type} {R : α → β → Prop} {x : Query α} {y : Query β}
    (h : query.Rel R x y) : (inferring φ s).Rel R (liftM x : InferM α) (liftM y : InferM β) :=
  (query.withState (InferredImage φ s)).withError_lift (lift_query h)

theorem inferring_get :
    (inferring φ s).Rel (InferredImage φ s) (get : InferM InferredBounds) get :=
  (query.withState (InferredImage φ s)).withError_lift query.withState_get

theorem inferring_modify {f g : InferredBounds → InferredBounds}
    (hfg : ∀ i j, InferredImage φ s i j → InferredImage φ s (f i) (g j)) :
    (inferring φ s).Rel (· = ·) (modify f : InferM PUnit) (modify g) :=
  (query.withState (InferredImage φ s)).withError_lift (query.withState_modify hfg)

theorem inferring_throw {α β : Type} {R : α → β → Prop} (failure : InferenceFailure) :
    (inferring φ s).Rel R (throw failure : InferM α) (throw failure : InferM β) :=
  (query.withState (InferredImage φ s)).withError_throw failure

/-- A step that succeeds or fails, as a test says. -/
theorem inferring_require {x y : InferM Bool} (hxy : (inferring φ s).Rel (· = ·) x y)
    (failure : InferenceFailure) :
    (inferring φ s).Rel (· = ·) (do if ← x then return else throw failure : InferM Unit)
      (do if ← y then return else throw failure) :=
  (inferring φ s).bind hxy fun _ _ heq =>
    (inferring φ s).branch heq ((inferring φ s).pure rfl) (inferring_throw failure)

theorem collect (h : FullyEmbeds φ s s') (hsignature : SignatureImage φ s signature signature')
    (hab : Image φ s a b) (hcd : Image φ s c d) (flow : Flow) :
    (inferring φ s).Rel (· = ·) (Inference.collect s signature a c flow)
      (Inference.collect s' signature' b d flow) := by
  refine (inferring φ s).bind inferring_get fun inferred inferred' hinferred => ?_
  refine (inferring φ s).bind
    (inferring_query (h.collectTypes hsignature hab hcd flow hinferred.bounds)) ?_
  rintro ⟨matched, bounds⟩ ⟨_, bounds'⟩ ⟨rfl, hbounds⟩
  refine (inferring φ s).bind (inferring_modify fun i j hij => ?_) fun _ _ _ =>
    (inferring φ s).pure rfl
  exact ⟨hij.typeParams, hbounds, hij.fixed⟩

theorem checkParameter (h : FullyEmbeds φ s s')
    (hsignature : SignatureImage φ s signature signature') {param param' : Parameter}
    (hparam : Image φ s param.type param'.type) (hab : Image φ s a b) (index : Nat) :
    (inferring φ s).Rel (· = ·) (Inference.checkParameter s signature param a index)
      (Inference.checkParameter s' signature' param' b index) := by
  refine (inferring φ s).bind (inferring_query (h.enclosingArgument hsignature hparam)) ?_
  intro template template' htemplate
  refine (inferring φ s).bind (inferring_query (h.isOpen htemplate)) fun _ _ heq => ?_
  refine (inferring φ s).branch heq ((inferring φ s).pure rfl) ?_
  exact inferring_require (inferring_query (h.compatible hab htemplate)) _

theorem checkReturn (h : FullyEmbeds φ s s')
    (hsignature : SignatureImage φ s signature signature') (hab : Image φ s a b) :
    (inferring φ s).Rel (· = ·) (Inference.checkReturn s signature a)
      (Inference.checkReturn s' signature' b) := by
  unfold Inference.checkReturn
  have hreturns := hsignature.returns
  generalize signature.returns = returns, signature'.returns = returns' at hreturns ⊢
  cases hreturns with
  | none => exact inferring_throw _
  | some hreturns =>
      refine (inferring φ s).bind (inferring_query (h.enclosingArgument hsignature hreturns)) ?_
      intro template template' htemplate
      refine (inferring φ s).bind (inferring_query (h.isOpen htemplate)) fun _ _ heq => ?_
      refine (inferring φ s).branch heq ((inferring φ s).pure rfl) ?_
      exact inferring_require (inferring_query (h.compatible htemplate hab)) _

theorem unwrap? (h : FullyEmbeds φ s s') (hab : Image φ s a b) (hcd : Image φ s c d) :
    query.Rel (Option.Rel (Image φ s)) (Inference.unwrap? s a c) (Inference.unwrap? s' b d) := by
  refine query.bind (h.isOptionalWrapper hab) fun _ _ heq => ?_
  refine query.branch heq ?_ (query.pure .none)
  refine query.bind (h.isOptionalWrapper hcd) fun _ _ heq => ?_
  refine query.branch heq (query.pure .none) (query.bind (h.arguments hab) ?_)
  rintro _ _ (_ | ⟨hinner, _ | ⟨_, _⟩⟩)
  · exact query.pure .none
  · exact query.pure (.some hinner)
  · exact query.pure .none

theorem collectParameter (h : FullyEmbeds φ s s')
    (hsignature : SignatureImage φ s signature signature') {param param' : Parameter}
    (hparam : Image φ s param.type param'.type) (hmode : param.mode = param'.mode)
    (hab : Image φ s a b) (index : Nat) :
    (inferring φ s).Rel (· = ·) (Inference.collectParameter s signature param a index)
      (Inference.collectParameter s' signature' param' b index) := by
  refine (inferring φ s).bind (inferring_query (h.enclosingArgument hsignature hparam)) ?_
  intro template template' htemplate
  refine (inferring φ s).bind (inferring_query (h.isOpen htemplate)) fun _ _ heq => ?_
  refine (inferring φ s).branch heq ?_ ((inferring φ s).pure rfl)
  refine (inferring φ s).bind (inferring_query (h.unwrap? htemplate hab)) ?_
  rw [hmode]
  rintro _ _ (hinner | _)
  · exact inferring_require (h.collect hsignature hab hinner _) _
  · exact inferring_require (h.collect hsignature hab htemplate _) _

theorem collectReturn (h : FullyEmbeds φ s s')
    (hsignature : SignatureImage φ s signature signature') (hab : Image φ s a b)
    (hcd : Image φ s c d) :
    (inferring φ s).Rel (· = ·) (Inference.collectReturn s signature a c)
      (Inference.collectReturn s' signature' b d) := by
  refine (inferring φ s).bind (inferring_query (h.unwrap? hab hcd)) ?_
  rintro _ _ (hinner | _)
  · exact inferring_require (h.collect hsignature hinner hcd _) _
  · exact inferring_require (h.collect hsignature hab hcd _) _

theorem collectBounds (h : FullyEmbeds φ s s')
    (hsignature : SignatureImage φ s signature signature') {args args' : List Handle}
    (hargs : List.Forall₂ (Image φ s) args args') :
    (inferring φ s).Rel (· = ·) (Inference.collectBounds s signature args)
      (Inference.collectBounds s' signature' args') := by
  have hpositions : List.Forall₂ _ (signature.params.zip args).zipIdx
      (signature'.params.zip args').zipIdx :=
    forall₂_zipIdx (forall₂_zip hsignature.params hargs)
  have hexpected := rel_getElem? hargs signature'.params.length
  have hreturns := hsignature.returns
  unfold Inference.collectBounds
  rw [hsignature.params.length_eq, hargs.length_eq]
  refine (inferring φ s).ite Iff.rfl (fun _ _ _ _ => .error _) fun _ => ?_
  refine (inferring φ s).bind ((inferring φ s).forM hpositions ?_) fun _ _ _ => ?_
  · rintro ⟨⟨param, arg⟩, index⟩ ⟨⟨param', arg'⟩, _⟩ ⟨⟨hparam, harg⟩, rfl⟩
    exact h.checkParameter hsignature hparam.1 harg index
  have hcollects : (inferring φ s).Rel (· = ·)
      ((signature.params.zip args).zipIdx.forM fun p =>
        Inference.collectParameter s signature p.1.1 p.1.2 p.2)
      ((signature'.params.zip args').zipIdx.forM fun p =>
        Inference.collectParameter s' signature' p.1.1 p.1.2 p.2) := by
    refine (inferring φ s).forM hpositions ?_
    rintro ⟨⟨param, arg⟩, index⟩ ⟨⟨param', arg'⟩, _⟩ ⟨⟨hparam, harg⟩, rfl⟩
    exact h.collectParameter hsignature hparam.1 hparam.2 harg index
  generalize args[signature'.params.length]? = expected,
    args'[signature'.params.length]? = expected' at hexpected ⊢
  generalize signature.returns = returns, signature'.returns = returns' at hreturns ⊢
  cases hexpected with
  | none => exact (inferring φ s).bind hcollects fun _ _ _ => (inferring φ s).pure rfl
  | some hexpected =>
      refine (inferring φ s).bind (h.checkReturn hsignature hexpected) fun _ _ _ => ?_
      refine (inferring φ s).bind hcollects fun _ _ _ => ?_
      cases hreturns with
      | none => exact (inferring φ s).pure rfl
      | some hreturns => exact h.collectReturn hsignature hexpected hreturns

theorem fixAt (h : FullyEmbeds φ s s') (breakEarly : Bool) (position : Nat) :
    (inferring φ s).Rel (· = ·) (Inference.fixAt s breakEarly position)
      (Inference.fixAt s' breakEarly position) := by
  refine (inferring φ s).bind inferring_get fun inferred inferred' hinferred => ?_
  have hbounds : BoundsImage φ s (inferred.bounds[position]?.getD {})
      (inferred'.bounds[position]?.getD {}) := by
    have hrel := rel_getElem? hinferred.bounds position
    generalize inferred.bounds[position]? = bounds, inferred'.bounds[position]? = bounds' at hrel ⊢
    cases hrel with
    | none => exact boundsImage_empty
    | some hbounds => exact hbounds
  refine (inferring φ s).bind (inferring_query (h.fix? hbounds)) fun fixed fixed' hfixed => ?_
  refine (inferring φ s).bind (inferring_modify fun i j hij => ?_) fun _ _ _ => ?_
  · exact ⟨hij.typeParams, hij.bounds, forall₂_set hfixed hij.fixed position⟩
  · have hnone : fixed.isNone = fixed'.isNone := by cases hfixed <;> rfl
    rw [hnone]
    exact (inferring φ s).branch rfl (inferring_throw _) ((inferring φ s).pure rfl)

theorem InferredImage.unresolved {inferred inferred' : InferredBounds}
    (hinferred : InferredImage φ s inferred inferred') :
    inferred.unresolved = inferred'.unresolved := by
  unfold InferredBounds.unresolved
  have hfixed := hinferred.fixed
  generalize inferred.fixed = fixed, inferred'.fixed = fixed' at hfixed ⊢
  induction hfixed with
  | nil => rfl
  | cons hhead _ ih =>
      rw [List.countP_cons, List.countP_cons, ih]
      cases hhead <;> rfl

theorem fixAll (h : FullyEmbeds φ s s') (breakEarly : Bool) :
    (inferring φ s).Rel (· = ·) (Inference.fixAll s breakEarly)
      (Inference.fixAll s' breakEarly) := by
  refine (inferring φ s).bind inferring_get fun inferred inferred' hinferred => ?_
  rw [hinferred.typeParams.length_eq]
  refine (inferring φ s).bind ((inferring φ s).forM (List.forall₂_same.mpr fun _ _ => rfl) ?_) ?_
  · rintro position _ rfl
    exact h.fixAt breakEarly position
  rintro _ _ -
  refine (inferring φ s).bind inferring_get fun last last' hlast => ?_
  rw [InferredImage.unresolved hlast]
  exact (inferring φ s).ite Iff.rfl (fun _ => inferring_throw _) fun _ => (inferring φ s).pure rfl

theorem constraintTargets {info info' : TypeParam} (hinfo : ConstrainedImage φ s info info') :
    List.Forall₂ (Image φ s) info.constraintTargets info'.constraintTargets := by
  unfold TypeParam.constraintTargets
  have hconstraints := hinfo.constraints
  generalize info.constraints = constraints, info'.constraints = constraints' at hconstraints ⊢
  induction hconstraints with
  | nil => exact .nil
  | cons hhead _ ih =>
      cases hhead with
      | base htarget => exact .cons htarget ih
      | valueType => exact ih
      | referenceType => exact ih
      | defaultConstructible => exact ih

theorem feedConstraints (h : FullyEmbeds φ s s')
    (hsignature : SignatureImage φ s signature signature') (position : Nat) :
    (inferring φ s).Rel (· = ·) (Inference.feedConstraints s signature position)
      (Inference.feedConstraints s' signature' position) := by
  refine (inferring φ s).bind inferring_get fun inferred inferred' hinferred => ?_
  have hfixed := rel_getElem? hinferred.fixed position
  have hparam := rel_getElem? hinferred.typeParams position
  generalize inferred.fixed[position]? = fixed, inferred'.fixed[position]? = fixed' at hfixed ⊢
  generalize inferred.typeParams[position]? = param,
    inferred'.typeParams[position]? = param' at hparam ⊢
  rcases hfixed with (hfixed | _) | _ <;> rcases hparam with hparam | _
  · refine (inferring φ s).bind (inferring_query (h.constrained hparam)) ?_
    rintro _ _ (hinfo | _)
    · refine (inferring φ s).forM (constraintTargets hinfo) fun target target' htarget => ?_
      exact inferring_require (h.collect hsignature hfixed htarget .covariant) _
    · exact (inferring φ s).pure rfl
  all_goals exact (inferring φ s).pure rfl

theorem bootstrapPasses (h : FullyEmbeds φ s s')
    (hsignature : SignatureImage φ s signature signature') (passes : Nat) :
    (inferring φ s).Rel (· = ·) (Inference.bootstrapPasses s signature passes)
      (Inference.bootstrapPasses s' signature' passes) := by
  induction passes with
  | zero => exact fun _ _ _ => .error _
  | succ passes ih =>
      refine (inferring φ s).bind inferring_get fun start start' hstart => ?_
      refine (inferring φ s).bind inferring_get fun inferred inferred' hinferred => ?_
      rw [hinferred.typeParams.length_eq, InferredImage.unresolved hstart]
      refine (inferring φ s).bind
        ((inferring φ s).forM (List.forall₂_same.mpr fun _ _ => rfl) ?_) ?_
      · rintro position _ rfl
        exact h.feedConstraints hsignature position
      rintro _ _ -
      refine (query.withState (InferredImage φ s)).withError_tryCatch (h.fixAll false) fun _ => ?_
      refine (inferring φ s).bind inferring_get fun last last' hlast => ?_
      rw [InferredImage.unresolved hlast]
      exact (inferring φ s).ite Iff.rfl (fun _ => inferring_throw _) fun _ => ih

theorem bootstrap (h : FullyEmbeds φ s s')
    (hsignature : SignatureImage φ s signature signature') :
    (inferring φ s).Rel (· = ·) (Inference.bootstrap s signature)
      (Inference.bootstrap s' signature') := by
  refine (inferring φ s).bind inferring_get fun inferred inferred' hinferred => ?_
  rw [InferredImage.unresolved hinferred]
  exact h.bootstrapPasses hsignature _

theorem fixedTypes? {inferred inferred' : InferredBounds}
    (hinferred : InferredImage φ s inferred inferred') :
    Option.Rel (List.Forall₂ (Image φ s)) inferred.fixedTypes? inferred'.fixedTypes? := by
  unfold InferredBounds.fixedTypes?
  have hfixed := hinferred.fixed
  generalize inferred.fixed = fixed, inferred'.fixed = fixed' at hfixed ⊢
  induction hfixed with
  | nil => exact .some .nil
  | @cons _ _ rest rest' hhead _ ih =>
      rw [List.mapM_cons, List.mapM_cons]
      generalize rest.mapM id = types, rest'.mapM id = types' at ih ⊢
      rcases hhead with hhead | _ <;> rcases ih with htail | _
      · exact .some (.cons hhead htail)
      all_goals exact .none

theorem infer (h : FullyEmbeds φ s s') (hsignature : SignatureImage φ s signature signature')
    {args args' : List Handle} (hargs : List.Forall₂ (Image φ s) args args')
    (options : InferenceOptions) :
    (inferring φ s).Rel (List.Forall₂ (Image φ s)) (Inference.infer s signature args options)
      (Inference.infer s' signature' args' options) := by
  refine (inferring φ s).bind (h.collectBounds hsignature hargs) fun _ _ _ => ?_
  refine (inferring φ s).bind ((query.withState (InferredImage φ s)).withError_tryCatch
    (h.fixAll _) fun failure => ?_) fun _ _ _ => ?_
  · exact (inferring φ s).branch rfl (h.bootstrap hsignature) (inferring_throw failure)
  refine (inferring φ s).bind inferring_get fun inferred inferred' hinferred => ?_
  rw [InferredImage.unresolved hinferred]
  have htypes := fixedTypes? hinferred
  generalize inferred.fixedTypes? = types, inferred'.fixedTypes? = types' at htypes ⊢
  cases htypes with
  | none => exact inferring_throw _
  | some htypes =>
      refine (inferring φ s).branch rfl ((inferring φ s).pure htypes) ?_
      refine (inferring φ s).bind (inferring_query
        (h.satisfiesConstraints (.callable hsignature) htypes)) fun _ _ heq => ?_
      exact (inferring φ s).branch heq ((inferring φ s).pure htypes) (inferring_throw _)

end Inferring

section Reports

theorem inferredImage_ofTypeParams {params params' : List Handle}
    (hparams : List.Forall₂ (Image φ s) params params') :
    InferredImage φ s (.ofTypeParams params) (.ofTypeParams params') := by
  refine ⟨hparams, ?_, ?_⟩
  · refine List.forall₂_map_left_iff.mpr (List.forall₂_map_right_iff.mpr ?_)
    exact hparams.imp fun _ _ _ => boundsImage_empty
  · refine List.forall₂_map_left_iff.mpr (List.forall₂_map_right_iff.mpr ?_)
    exact hparams.imp fun _ _ _ => .none

theorem inferFresh {α β : Type} {R : α → β → Prop} {steps : InferM α} {steps' : InferM β}
    (hsteps : (inferring φ s).Rel R steps steps')
    (hsignature : SignatureImage φ s signature signature') :
    query.Rel (fun p q => Alike R p.1 q.1 ∧ InferredImage φ s p.2 q.2)
      (Inference.runFresh signature steps) (Inference.runFresh signature' steps') :=
  hsteps _ _ (inferredImage_ofTypeParams hsignature.typeParams)

theorem boundsReport (h : FullyEmbeds φ s s') (hsignature : SignatureImage φ s signature signature')
    {args args' : List Handle} (hargs : List.Forall₂ (Image φ s) args args') :
    query.Rel (· = ·) (Command.boundsReport s signature args)
      (Command.boundsReport s' signature' args') := by
  refine query.bind (inferFresh (h.collectBounds hsignature hargs) hsignature) ?_
  rintro ⟨_, inferred⟩ ⟨_, inferred'⟩ ⟨_ | failure, hinferred⟩
  · refine query.bind (mapM_eq (forall₂_zip hinferred.typeParams hinferred.bounds) ?_) ?_
    · rintro ⟨param, bounds⟩ ⟨param', bounds'⟩ ⟨hparam, hbounds⟩
      refine query.bind (h.typeName hparam) fun _ _ hname => ?_
      exact query.bind (h.render hbounds) fun _ _ htext => query.pure (by rw [hname, htext])
    · rintro lines _ rfl
      exact query.pure rfl
  · exact query.pure rfl

theorem inferenceReport (h : FullyEmbeds φ s s')
    (hsignature : SignatureImage φ s signature signature') {args args' : List Handle}
    (hargs : List.Forall₂ (Image φ s) args args') (options : InferenceOptions) :
    query.Rel (· = ·) (Command.inferenceReport s signature args options)
      (Command.inferenceReport s' signature' args' options) := by
  refine query.bind (inferFresh (h.infer hsignature hargs options) hsignature) ?_
  rintro ⟨_, inferred⟩ ⟨_, inferred'⟩ ⟨htypes | failure, hinferred⟩
  · refine query.bind (mapM_eq (forall₂_zip hsignature.typeParams htypes) ?_) ?_
    · rintro ⟨param, type⟩ ⟨param', type'⟩ ⟨hparam, htype⟩
      refine query.bind (h.typeName hparam) fun _ _ hname => ?_
      exact query.bind (h.typeName htype) fun _ _ htext => query.pure (by rw [hname, htext])
    · rintro lines _ rfl
      exact query.pure rfl
  · exact query.pure rfl

end Reports

end FullyEmbeds

end NominalGenerics
