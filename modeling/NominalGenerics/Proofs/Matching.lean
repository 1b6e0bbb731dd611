import NominalGenerics.Collection
import NominalGenerics.Proofs.AssignabilityCheck

/-!
# Matching of templates

`Matches` says when a source type matches a template of a callable: which witnesses have to be
recorded, which concrete types have to be related, and which parts have to match one level deeper.
It is parametric in what recording a witness means. The collector decides it: after a positive
answer everything a match has to record is recorded, and a negative answer means that there is no
match at all.
-/

namespace NominalGenerics

/-- A source type compared with a template in a position of some flow. -/
structure Comparison where
  source : Handle
  target : Handle
  flow : Flow
  deriving DecidableEq, Repr

/-- The side of a comparison that has to be the more derived one. -/
def Comparison.derived (c : Comparison) : Handle :=
  if c.flow = .contravariant then c.target else c.source

/-- The side of a comparison that has to be the more general one. -/
def Comparison.base (c : Comparison) : Handle :=
  if c.flow = .contravariant then c.source else c.target

theorem Flow.combine_invariant (variance : Variance) (valueType : Bool) :
    Flow.combine .invariant variance valueType = .invariant := by
  cases valueType <;> rfl

namespace Collection

section Matching

variable (store : Store) (signature : Signature)

/-- A template that mentions parameters and is no parameter itself. -/
def Compound (target : Handle) : Prop :=
  store.param? target = .ok none ∧ store.isOpen target = .ok true

/-- At least one of the two types is an array. -/
def HasArray (source target : Handle) : Prop :=
  ∃ s t, store.array? source = .ok s ∧ store.array? target = .ok t ∧ (s.isSome || t.isSome) = true

/-- The elements that are compared for two types of which one is an array. In a direction, the more
derived side has to be the array. -/
def Elements (c d : Comparison) : Prop :=
  match c.flow with
  | .invariant => d.flow = .invariant ∧
      ∃ rank, store.array? c.source = .ok (some (d.source, rank)) ∧
        store.array? c.target = .ok (some (d.target, rank))
  | flow => ∃ element rank valueType,
      store.array? (if flow = .contravariant then c.target else c.source) =
        .ok (some (element, rank)) ∧
      containerElement? store c.source rank = .ok (some d.source) ∧
      containerElement? store c.target rank = .ok (some d.target) ∧
      store.isValueType d.source = .ok valueType ∧
      d.flow = if valueType then .invariant else flow

/-- The instantiations of `definition` that are compared for two types that are no arrays, by their
arguments. In a direction, the more derived side is searched for one. -/
def Instances (c : Comparison) (definition : Handle) (sourceArgs targetArgs : List Handle) : Prop :=
  match c.flow with
  | .invariant => store.definitionOrSelf c.source = .ok definition ∧
      store.definitionOrSelf c.target = .ok definition ∧
      store.arguments c.source = .ok sourceArgs ∧ store.arguments c.target = .ok targetArgs
  | .covariant => store.definitionOrSelf c.target = .ok definition ∧
      store.arguments c.target = .ok targetArgs ∧
      ∃ found, store.findImplementation c.source definition = .ok (.found found) ∧
        store.arguments found = .ok sourceArgs
  | .contravariant => store.definitionOrSelf c.source = .ok definition ∧
      store.arguments c.source = .ok sourceArgs ∧
      ∃ found, store.findImplementation c.target definition = .ok (.found found) ∧
        store.arguments found = .ok targetArgs

/-- The search for an instantiation is ambiguous. -/
def Ambiguous (c : Comparison) : Prop :=
  match c.flow with
  | .invariant => False
  | .covariant => ∃ definition types, store.definitionOrSelf c.target = .ok definition ∧
      store.findImplementation c.source definition = .ok (.ambiguous types)
  | .contravariant => ∃ definition types, store.definitionOrSelf c.source = .ok definition ∧
      store.findImplementation c.target definition = .ok (.ambiguous types)

/-- The comparison of the arguments at one position of instantiations of `definition`. -/
def ArgumentAt (flow : Flow) (definition : Handle) (position : Nat) (d : Comparison) : Prop :=
  ∃ variance valueType, store.declaredVariance definition position = .ok variance ∧
    store.isValueType d.source = .ok valueType ∧ d.flow = flow.combine variance valueType

/-- Matching compares `d` as a part of `c`. -/
inductive Nested : Comparison → Comparison → Prop
  | element {c d : Comparison} (hcompound : Compound store c.target)
      (harray : HasArray store c.source c.target) (helements : Elements store c d) : Nested c d
  | argument {c d : Comparison} {definition : Handle} {sourceArgs targetArgs : List Handle}
      {position : Nat} (hcompound : Compound store c.target)
      (harray : ¬ HasArray store c.source c.target)
      (hinstances : Instances store c definition sourceArgs targetArgs)
      (hsource : sourceArgs[position]? = some d.source)
      (htarget : targetArgs[position]? = some d.target)
      (hargument : ArgumentAt store c.flow definition position d) : Nested c d

/-- The arguments at one position match: open templates by a given relation, the others as concrete
types. -/
def ArgumentMatches (M : Comparison → Prop) (flow : Flow) (definition : Handle) (position : Nat)
    (source target : Handle) : Prop :=
  ∃ argumentFlow, ArgumentAt store flow definition position ⟨source, target, argumentFlow⟩ ∧
    ((store.isOpen target = .ok true ∧ M ⟨source, target, argumentFlow⟩) ∨
      (store.isOpen target = .ok false ∧
        relateConcrete store source target argumentFlow = .ok true))

/-- The arguments of two instantiations match pairwise. -/
def ArgumentsMatch (M : Comparison → Prop) (flow : Flow) (definition : Handle)
    (sourceArgs targetArgs : List Handle) : Prop :=
  sourceArgs.length = targetArgs.length ∧
    ∀ (i : Nat) x y, sourceArgs[i]? = some x → targetArgs[i]? = some y →
      ArgumentMatches store M flow definition i x y

/-- How a comparison can match, over a relation for the comparisons nested in it. -/
inductive MatchStep (record : Nat → Handle → Flow → Prop) (M : Comparison → Prop) :
    Comparison → Prop
  | own {c : Comparison} {info : TypeParam} (hparam : store.param? c.target = .ok (some info))
      (howner : info.owner = .callable signature.id)
      (hrecord : record info.position c.source c.flow) : MatchStep record M c
  | foreign {c : Comparison} {info : TypeParam} {bound : Handle}
      (hparam : store.param? c.target = .ok (some info))
      (howner : info.owner ≠ .callable signature.id)
      (hbound : enclosingArgument store signature c.target = .ok bound)
      (hrelated : relateConcrete store c.source bound c.flow = .ok true) : MatchStep record M c
  | concrete {c : Comparison} (hparam : store.param? c.target = .ok none)
      (hclosed : store.isOpen c.target = .ok false)
      (hrelated : relateConcrete store c.source c.target c.flow = .ok true) : MatchStep record M c
  | elements {c d : Comparison} (hcompound : Compound store c.target)
      (harray : HasArray store c.source c.target) (helements : Elements store c d) (hmatch : M d) :
      MatchStep record M c
  | ambiguous {c : Comparison} (hcompound : Compound store c.target)
      (harray : ¬ HasArray store c.source c.target) (hambiguous : Ambiguous store c) :
      MatchStep record M c
  | arguments {c : Comparison} {definition : Handle} {sourceArgs targetArgs : List Handle}
      (hcompound : Compound store c.target) (harray : ¬ HasArray store c.source c.target)
      (hinstances : Instances store c definition sourceArgs targetArgs)
      (hargs : ArgumentsMatch store M c.flow definition sourceArgs targetArgs) :
      MatchStep record M c

/-- A comparison matches within a number of levels. -/
def Matches (record : Nat → Handle → Flow → Prop) : Nat → Comparison → Prop
  | 0 => fun _ => False
  | levels + 1 => MatchStep store signature record (Matches record levels)

end Matching

section Monotonicity

variable {store : Store} {signature : Signature} {record record' : Nat → Handle → Flow → Prop}
  {M M' : Comparison → Prop}

theorem ArgumentMatches.imp {flow : Flow} {definition source target : Handle} {position : Nat}
    (hM : ∀ d, M d → M' d) (h : ArgumentMatches store M flow definition position source target) :
    ArgumentMatches store M' flow definition position source target := by
  obtain ⟨argumentFlow, hargument, hmatch⟩ := h
  exact ⟨argumentFlow, hargument, hmatch.imp_left fun ⟨hopen, hd⟩ => ⟨hopen, hM _ hd⟩⟩

theorem MatchStep.imp (hrecord : ∀ position type flow, record position type flow →
      record' position type flow) (hM : ∀ d, M d → M' d) {c : Comparison}
    (h : MatchStep store signature record M c) : MatchStep store signature record' M' c := by
  cases h with
  | own hparam howner h => exact .own hparam howner (hrecord _ _ _ h)
  | foreign hparam howner hbound h => exact .foreign hparam howner hbound h
  | concrete hparam hclosed h => exact .concrete hparam hclosed h
  | elements hcompound harray helements h => exact .elements hcompound harray helements (hM _ h)
  | ambiguous hcompound harray h => exact .ambiguous hcompound harray h
  | arguments hcompound harray hinstances h =>
      exact .arguments hcompound harray hinstances
        ⟨h.1, fun i x y hx hy => (h.2 i x y hx hy).imp hM⟩

theorem Matches.imp (hrecord : ∀ position type flow, record position type flow →
      record' position type flow) {levels : Nat} {c : Comparison}
    (h : Matches store signature record levels c) : Matches store signature record' levels c := by
  induction levels generalizing c with
  | zero => exact h
  | succ levels ih => exact MatchStep.imp hrecord (fun _ => ih) h

end Monotonicity

end Collection

/-- The witnesses on the side that a flow selects. -/
def BoundSet.side (bounds : BoundSet) : Flow → Witnesses
  | .covariant => bounds.lower
  | .contravariant => bounds.upper
  | .invariant => bounds.exact

theorem Witnesses.mem_add {witnesses : Witnesses} {type other : Handle} :
    other ∈ witnesses.add type ↔ other ∈ witnesses ∨ other = type := by
  unfold Witnesses.add
  split
  · next h => simp [h]
  · simp

theorem BoundSet.mem_side_add {bounds : BoundSet} {type other : Handle} {flow flow' : Flow} :
    other ∈ (bounds.add type flow).side flow' ↔
      other ∈ bounds.side flow' ∨ other = type ∧ flow = flow' := by
  cases flow <;> cases flow' <;> simp [BoundSet.add, BoundSet.side, Witnesses.mem_add]

/-- The type is a witness of the parameter at `position`, on the side that the flow selects. -/
def Recorded (bounds : List BoundSet) (position : Nat) (type : Handle) (flow : Flow) : Prop :=
  ∃ set, bounds[position]? = some set ∧ type ∈ set.side flow

/-- `new` has the witnesses of `old`, and possibly more types of a store of a given size. -/
structure BoundsGrow (size : Nat) (old new : List BoundSet) : Prop where
  length : new.length = old.length
  recorded : ∀ {position type flow}, Recorded old position type flow →
    Recorded new position type flow
  fresh : ∀ {position type flow}, Recorded new position type flow →
    Recorded old position type flow ∨ type < size

theorem BoundsGrow.refl (size : Nat) (bounds : List BoundSet) : BoundsGrow size bounds bounds :=
  ⟨rfl, fun h => h, Or.inl⟩

theorem BoundsGrow.trans {size : Nat} {a b c : List BoundSet} (hab : BoundsGrow size a b)
    (hbc : BoundsGrow size b c) : BoundsGrow size a c where
  length := hbc.length.trans hab.length
  recorded h := hbc.recorded (hab.recorded h)
  fresh h := (hbc.fresh h).elim hab.fresh Or.inr

theorem boundsGrow_modify {size : Nat} (bounds : List BoundSet) (position : Nat) {type : Handle}
    (hlt : type < size) (flow : Flow) :
    BoundsGrow size bounds (bounds.modify position (·.add type flow)) := by
  refine ⟨List.length_modify _ _ _, ?_, ?_⟩
  · rintro position' type' flow' ⟨set, hset, htype⟩
    by_cases hposition : position = position'
    · subst hposition
      exact ⟨set.add type flow, by simp [hset], BoundSet.mem_side_add.mpr (Or.inl htype)⟩
    · exact ⟨set, by simp [hposition, hset], htype⟩
  · rintro position' type' flow' ⟨set, hset, htype⟩
    rw [List.getElem?_modify] at hset
    obtain ⟨set', hset', hset⟩ := Option.map_eq_some_iff.mp hset
    split at hset
    · subst hset
      rcases BoundSet.mem_side_add.mp htype with htype | ⟨rfl, -⟩
      · exact Or.inl ⟨set', hset', htype⟩
      · exact Or.inr hlt
    · exact Or.inl ⟨set', hset', hset ▸ htype⟩

namespace Collection

/-- The collector has as many bound sets as the callable has type parameters, and may go down a
number of levels. -/
structure Ready (levels width : Nat) (collector : Collector) : Prop where
  width : collector.bounds.length = width
  depth : collector.depth.depth + levels = collector.depth.maxDepth

/-- The walk ends without a fault. After a positive answer `P` holds of the bounds, and of any to
which they grow; a negative answer excludes `Q`. -/
def Collects (size levels width : Nat) (walk : CollectM Bool) (P : List BoundSet → Prop) (Q : Prop) :
    Prop :=
  ∀ c, Ready levels width c →
    ∃ matched c', walk.run c = .ok (matched, c') ∧ Ready levels width c' ∧
      c'.depth.depth = c.depth.depth ∧ BoundsGrow size c.bounds c'.bounds ∧
      (matched = true → ∀ bounds, BoundsGrow size c'.bounds bounds → P bounds) ∧
      (matched = false → ¬ Q)

section Walks

variable {size levels width : Nat} {P P' : List BoundSet → Prop} {Q Q' : Prop}

theorem Collects.imp {walk : CollectM Bool} (h : Collects size levels width walk P Q)
    (hP : ∀ bounds, P bounds → P' bounds) (hQ : Q' → Q) :
    Collects size levels width walk P' Q' := by
  intro c hc
  obtain ⟨matched, c', hrun, hready, hdepth, hgrow, hsound, hcomplete⟩ := h c hc
  exact ⟨matched, c', hrun, hready, hdepth, hgrow, fun hm bounds hb => hP _ (hsound hm bounds hb),
    fun hm hq => hcomplete hm (hQ hq)⟩

theorem collects_pure {matched : Bool} (hP : matched = true → ∀ bounds, P bounds)
    (hQ : matched = false → ¬ Q) : Collects size levels width (pure matched) P Q := by
  intro c hc
  exact ⟨matched, c, rfl, hc, rfl, BoundsGrow.refl _ _, fun hm bounds _ => hP hm bounds, hQ⟩

theorem collects_read {α : Type} {x : Query α} {a : α} {f : α → CollectM Bool} (hx : x = .ok a)
    (h : Collects size levels width (f a) P Q) : Collects size levels width (liftM x >>= f) P Q := by
  subst hx
  exact h

theorem collects_query {x : Query Bool} (h : ∃ b, x = .ok b) :
    Collects size levels width (liftM x) (fun _ => x = .ok true) (x = .ok true) := by
  obtain ⟨b, rfl⟩ := h
  intro c hc
  refine ⟨b, c, rfl, hc, rfl, BoundsGrow.refl _ _, fun hb _ _ => by rw [hb], fun hb h => ?_⟩
  rw [hb] at h
  cases h

theorem collects_allM {α : Type} {f : α → CollectM Bool} {P : α → List BoundSet → Prop}
    {Q : α → Prop} {as : List α} (h : ∀ a ∈ as, Collects size levels width (f a) (P a) (Q a)) :
    Collects size levels width (as.allM f) (fun bounds => ∀ a ∈ as, P a bounds) (∀ a ∈ as, Q a) := by
  induction as with
  | nil => exact collects_pure (by simp) (by simp)
  | cons a as ih =>
      have hrest := ih fun b hb => h b (List.mem_cons_of_mem a hb)
      intro c hc
      obtain ⟨matched, c₁, hrun, hready, hdepth, hgrow, hsound, hcomplete⟩ :=
        h a List.mem_cons_self c hc
      rw [List.allM]
      cases matched with
      | false =>
          refine ⟨false, c₁, run_bind_eq_ok.mpr ⟨false, c₁, hrun, rfl⟩, hready, hdepth, hgrow,
            by simp, fun _ hall => hcomplete rfl (hall a List.mem_cons_self)⟩
      | true =>
          obtain ⟨matched', c₂, hrun', hready', hdepth', hgrow', hsound', hcomplete'⟩ :=
            hrest c₁ hready
          refine ⟨matched', c₂, run_bind_eq_ok.mpr ⟨true, c₁, hrun, hrun'⟩, hready',
            hdepth'.trans hdepth, hgrow.trans hgrow', fun hm bounds hb b hmem => ?_, fun hm hall => ?_⟩
          · rcases List.mem_cons.mp hmem with rfl | hmem
            · exact hsound rfl bounds (hgrow'.trans hb)
            · exact hsound' hm bounds hb b hmem
          · exact hcomplete' hm fun b hb => hall b (List.mem_cons_of_mem a hb)

theorem record_collects {position : Nat} {source : Handle} {flow : Flow}
    (hsource : source < size) :
    Collects size levels width (record position source flow)
      (fun bounds => Recorded bounds position source flow) (position < width) := by
  intro c hc
  by_cases hlt : position < c.bounds.length
  · refine ⟨true, { c with bounds := c.bounds.modify position (·.add source flow) }, ?_,
      ⟨(List.length_modify _ _ _).trans hc.width, hc.depth⟩, rfl, boundsGrow_modify _ _ hsource _,
      fun _ bounds hb => ?_, by simp⟩
    · rw [record]
      refine run_bind_eq_ok.mpr ⟨c, c, rfl, ?_⟩
      rw [if_pos hlt]
      rfl
    · refine hb.recorded ⟨c.bounds[position].add source flow, ?_,
        BoundSet.mem_side_add.mpr (Or.inr ⟨rfl, rfl⟩)⟩
      simp [List.getElem?_eq_getElem hlt]
  · refine ⟨false, c, ?_, hc, rfl, BoundsGrow.refl _ _, by simp, fun _ h => hlt (hc.width ▸ h)⟩
    rw [record]
    refine run_bind_eq_ok.mpr ⟨c, c, rfl, ?_⟩
    rw [if_neg hlt]
    rfl

end Walks

section Queries

variable {store : Store} {signature : Signature} {source target : Handle}

theorem isValueType_total (hlt : source < store.size) : ∃ b, store.isValueType source = .ok b := by
  obtain ⟨entry, hentry⟩ := Store.entry_of_lt hlt
  exact ⟨entry.flags.valueType, by
    rw [Store.isValueType, Store.flags, Store.query_of_entry hentry (·.flags)]; rfl⟩

theorem relateConcrete_total (hs : store.WellFormed) (hsource : source < store.size)
    (htarget : target < store.size) (flow : Flow) :
    ∃ b, relateConcrete store source target flow = .ok b := by
  cases flow with
  | invariant => exact ⟨source == target, rfl⟩
  | covariant =>
      obtain ⟨answer, hanswer, -⟩ := Assignability.isAssignable_decides hs hsource htarget
      exact ⟨answer, hanswer⟩
  | contravariant =>
      obtain ⟨answer, hanswer, -⟩ := Assignability.isAssignable_decides hs htarget hsource
      exact ⟨answer, hanswer⟩

theorem eq_of_relateConcrete (h : relateConcrete store source target .invariant = .ok true) :
    source = target :=
  eq_of_beq (Query.pure_eq_ok.mp h)

theorem containerElement?_total (hs : store.WellFormed) (hlt : source < store.size) (rank : Nat) :
    ∃ result, containerElement? store source rank = .ok result ∧
      ∀ element, result = some element → element < store.size := by
  obtain ⟨form, hform⟩ := Store.form_isSome hlt
  rw [containerElement?, Store.array?_of_form hform, Query.ok_bind]
  cases harray : form.array? with
  | some shape =>
      obtain ⟨element, arrayRank⟩ := shape
      obtain ⟨_, hpart, -⟩ := hs.coherent.element hform harray
      refine ⟨if arrayRank = rank then some element else none, rfl, fun other hother => ?_⟩
      split at hother
      · cases hother
        exact Store.form_lt hpart
      · cases hother
  | none =>
      simp only
      split
      · exact ⟨none, rfl, by simp⟩
      · obtain ⟨b, hb⟩ := Assignability.isSequenceInstance_total hlt
        rw [hb, Query.ok_bind]
        cases b with
        | false => exact ⟨none, rfl, by simp⟩
        | true =>
            rw [if_pos rfl, Store.arguments_of_form hform, Query.ok_bind]
            split
            · next element hargs =>
                have hmem : element ∈ form.arguments := by simp [hargs]
                obtain ⟨_, hpart, -⟩ := hs.coherent.argument hform hmem
                refine ⟨some element, rfl, ?_⟩
                rintro _ ⟨rfl⟩
                exact Store.form_lt hpart
            · exact ⟨none, rfl, by simp⟩

theorem enclosingArgument_total (hs : store.WellFormed)
    (hsignature : store.SignatureInRange signature) (hlt : target < store.size) :
    ∃ bound, enclosingArgument store signature target = .ok bound ∧ bound < store.size := by
  obtain ⟨entry, hentry⟩ := Store.entry_of_lt hlt
  rw [enclosingArgument, Store.param?, Store.query_of_entry hentry (·.param?), Query.ok_bind]
  split
  · next info declaring _ hdeclaring =>
      split
      · next definition _ =>
          obtain ⟨form, hform⟩ := Store.form_isSome (hsignature.declaringType declaring hdeclaring)
          rw [Store.definition?_of_form hform, Query.ok_bind]
          split
          · rw [Store.arguments_of_form hform, Query.ok_bind]
            refine ⟨_, rfl, ?_⟩
            cases harg : form.arguments[info.position]? with
            | none => exact hlt
            | some arg =>
                obtain ⟨_, hpart, -⟩ := hs.coherent.argument hform (List.mem_of_getElem? harg)
                exact Store.form_lt hpart
          · exact ⟨target, rfl, hlt⟩
      · exact ⟨target, rfl, hlt⟩
  · exact ⟨target, rfl, hlt⟩

theorem definitionOrSelf_total (hs : store.WellFormed) (hlt : source < store.size) :
    ∃ definition, store.definitionOrSelf source = .ok definition ∧ definition < store.size ∧
      store.definitionOrSelf definition = .ok definition := by
  obtain ⟨form, hform⟩ := Store.form_isSome hlt
  have heq := Store.definitionOrSelf_of_form hform
  cases hdef : form.definition? source with
  | none => exact ⟨source, by rw [heq, hdef]; rfl, hlt, by rw [heq, hdef]; rfl⟩
  | some definition =>
      obtain ⟨_, ⟨dform, hdform, hdshape⟩, -⟩ := hs.coherent.applies_of_form hform hdef
      refine ⟨definition, by rw [heq, hdef]; rfl, Store.form_lt hdform, ?_⟩
      rw [Store.definitionOrSelf_of_form hdform]
      simp [Entry.definition?, hdshape]

end Queries

section Steps

variable {store : Store} {signature : Signature} {levels width : Nat}
  {collect : Handle → Handle → Flow → CollectM Bool} {M : List BoundSet → Comparison → Prop}
  {M' : Comparison → Prop} {source target : Handle} {flow : Flow}

theorem elements_iff_of_ne (hflow : flow ≠ .invariant) {d : Comparison} :
    Elements store ⟨source, target, flow⟩ d ↔ ∃ element rank valueType,
      store.array? (if flow = .contravariant then target else source) =
        .ok (some (element, rank)) ∧
      containerElement? store source rank = .ok (some d.source) ∧
      containerElement? store target rank = .ok (some d.target) ∧
      store.isValueType d.source = .ok valueType ∧
      d.flow = if valueType then .invariant else flow := by
  cases flow with
  | invariant => exact absurd rfl hflow
  | covariant => rfl
  | contravariant => rfl

/-- A part that is compared by variance is no value type. -/
theorem isValueType_of_nested {c d : Comparison} (h : Nested store c d)
    (hflow : d.flow ≠ .invariant) : store.isValueType d.source = .ok false := by
  cases h with
  | element _ _ helements =>
      obtain ⟨source, target, flow⟩ := c
      cases flow with
      | invariant => exact absurd helements.1 hflow
      | covariant | contravariant =>
          obtain ⟨_, _, valueType, -, -, -, hvalue, hflow'⟩ := helements
          cases valueType with
          | false => exact hvalue
          | true => exact absurd hflow' hflow
  | argument _ _ _ _ _ hargument =>
      obtain ⟨variance, valueType, -, hvalue, hflow'⟩ := hargument
      cases valueType with
      | false => exact hvalue
      | true => exact absurd hflow' hflow

theorem Nested.invariant {c d : Comparison} (h : Nested store c d) (hflow : c.flow = .invariant) :
    d.flow = .invariant := by
  obtain ⟨source, target, flow⟩ := c
  subst hflow
  cases h with
  | element _ _ helements => exact helements.1
  | argument _ _ _ _ _ hargument =>
      obtain ⟨variance, valueType, -, -, hflow⟩ := hargument
      exact hflow.trans (Flow.combine_invariant variance valueType)

/-- The elements that are compared are determined. -/
theorem Elements.unique {c d d' : Comparison} (h : Elements store c d) (h' : Elements store c d') :
    d = d' := by
  obtain ⟨source, target, flow⟩ := c
  obtain ⟨dsource, dtarget, dflow⟩ := d
  obtain ⟨dsource', dtarget', dflow'⟩ := d'
  cases flow with
  | invariant =>
      obtain ⟨rfl, rank, hsource, htarget⟩ := h
      obtain ⟨rfl, rank', hsource', htarget'⟩ := h'
      cases hsource.symm.trans hsource'
      cases htarget.symm.trans htarget'
      rfl
  | covariant | contravariant =>
      obtain ⟨element, rank, valueType, harray, hsource, htarget, hvalue, rfl⟩ := h
      obtain ⟨element', rank', valueType', harray', hsource', htarget', hvalue', rfl⟩ := h'
      cases harray.symm.trans harray'
      cases hsource.symm.trans hsource'
      cases htarget.symm.trans htarget'
      cases hvalue.symm.trans hvalue'
      rfl

/-- So are the instantiations. -/
theorem Instances.unique {c : Comparison} {definition definition' : Handle}
    {sourceArgs sourceArgs' targetArgs targetArgs' : List Handle}
    (h : Instances store c definition sourceArgs targetArgs)
    (h' : Instances store c definition' sourceArgs' targetArgs') :
    definition = definition' ∧ sourceArgs = sourceArgs' ∧ targetArgs = targetArgs' := by
  obtain ⟨source, target, flow⟩ := c
  cases flow with
  | invariant =>
      obtain ⟨hd, -, hsource, htarget⟩ := h
      obtain ⟨hd', -, hsource', htarget'⟩ := h'
      cases hd.symm.trans hd'
      cases hsource.symm.trans hsource'
      cases htarget.symm.trans htarget'
      exact ⟨rfl, rfl, rfl⟩
  | covariant | contravariant =>
      obtain ⟨hd, hargs, found, hfound, hfoundArgs⟩ := h
      obtain ⟨hd', hargs', found', hfound', hfoundArgs'⟩ := h'
      cases hd.symm.trans hd'
      cases hargs.symm.trans hargs'
      cases hfound.symm.trans hfound'
      cases hfoundArgs.symm.trans hfoundArgs'
      exact ⟨rfl, rfl, rfl⟩

theorem Instances.not_ambiguous {c : Comparison} {definition : Handle}
    {sourceArgs targetArgs : List Handle} (h : Instances store c definition sourceArgs targetArgs) :
    ¬ Ambiguous store c := by
  obtain ⟨source, target, flow⟩ := c
  cases flow with
  | invariant => exact not_false
  | covariant | contravariant =>
      obtain ⟨hd, -, found, hfound, -⟩ := h
      rintro ⟨definition', types, hd', hambiguous⟩
      cases hd.symm.trans hd'
      cases hfound.symm.trans hambiguous

theorem ArgumentAt.unique {definition : Handle} {position : Nat} {d d' : Comparison}
    (h : ArgumentAt store flow definition position d)
    (h' : ArgumentAt store flow definition position d') (hsource : d.source = d'.source)
    (htarget : d.target = d'.target) : d = d' := by
  obtain ⟨dsource, dtarget, dflow⟩ := d
  obtain ⟨dsource', dtarget', dflow'⟩ := d'
  obtain rfl : dsource = dsource' := hsource
  obtain rfl : dtarget = dtarget' := htarget
  obtain ⟨variance, valueType, hvariance, hvalue, rfl⟩ := h
  obtain ⟨variance', valueType', hvariance', hvalue', rfl⟩ := h'
  cases hvariance.symm.trans hvariance'
  cases hvalue.symm.trans hvalue'
  rfl

/-- Matching arrays in a direction. -/
theorem arraysDirected_collects (hs : store.WellFormed)
    (hcollect : ∀ d : Comparison, d.source < store.size → d.target < store.size →
      Collects store.size levels width (collect d.source d.target d.flow) (fun b => M b d) (M' d))
    (hsource : source < store.size) (htarget : target < store.size) (hflow : flow ≠ .invariant) :
    Collects store.size levels width
      (do
        match ← store.array? (if flow = .contravariant then target else source) with
        | none => return false
        | some (_, rank) =>
            match ← containerElement? store source rank, ← containerElement? store target rank with
            | some sourceElement, some targetElement =>
                let elementFlow := if ← store.isValueType sourceElement then .invariant else flow
                collect sourceElement targetElement elementFlow
            | _, _ => return false)
      (fun b => ∃ d, Elements store ⟨source, target, flow⟩ d ∧ M b d)
      (∃ d, Elements store ⟨source, target, flow⟩ d ∧ M' d) := by
  have hderived : (if flow = .contravariant then target else source) < store.size := by
    split
    · exact htarget
    · exact hsource
  obtain ⟨form, hform⟩ := Store.form_isSome hderived
  have harray := Store.array?_of_form hform
  refine collects_read harray ?_
  cases hshape : form.array? with
  | none =>
      refine collects_pure (by simp) fun _ => ?_
      rintro ⟨d, helements, -⟩
      obtain ⟨element, rank, _, hsome, -⟩ := (elements_iff_of_ne hflow).mp helements
      rw [harray, hshape] at hsome
      cases hsome
  | some shape =>
      obtain ⟨element, rank⟩ := shape
      rw [hshape] at harray
      obtain ⟨rs, hrs, hrslt⟩ := containerElement?_total hs hsource rank
      obtain ⟨rt, hrt, hrtlt⟩ := containerElement?_total hs htarget rank
      refine collects_read hrs (collects_read hrt ?_)
      -- The rank of the array and the elements are determined.
      have hdetermined : ∀ {d : Comparison}, Elements store ⟨source, target, flow⟩ d →
          rs = some d.source ∧ rt = some d.target := by
        intro d helements
        obtain ⟨_, _, _, h, hds, hdt, -⟩ := (elements_iff_of_ne hflow).mp helements
        cases harray.symm.trans h
        exact ⟨Except.ok.inj (hrs.symm.trans hds), Except.ok.inj (hrt.symm.trans hdt)⟩
      cases rs with
      | none =>
          refine collects_pure (by simp) fun _ => ?_
          rintro ⟨d, helements, -⟩
          exact absurd (hdetermined helements).1 (by simp)
      | some sourceElement =>
          cases rt with
          | none =>
              refine collects_pure (by simp) fun _ => ?_
              rintro ⟨d, helements, -⟩
              exact absurd (hdetermined helements).2 (by simp)
          | some targetElement =>
              obtain ⟨valueType, hvalue⟩ := isValueType_total (hrslt sourceElement rfl)
              have helements : Elements store ⟨source, target, flow⟩
                  ⟨sourceElement, targetElement, if valueType then .invariant else flow⟩ :=
                (elements_iff_of_ne hflow).mpr
                  ⟨element, rank, valueType, harray, hrs, hrt, hvalue, rfl⟩
              refine collects_read hvalue ?_
              exact (hcollect ⟨sourceElement, targetElement, _⟩ (hrslt sourceElement rfl)
                (hrtlt targetElement rfl)).imp (fun b h => ⟨_, helements, h⟩)
                  fun ⟨d, hd, hM⟩ => hd.unique helements ▸ hM

theorem arrays_collects (hs : store.WellFormed)
    (hcollect : ∀ d : Comparison, d.source < store.size → d.target < store.size →
      Collects store.size levels width (collect d.source d.target d.flow) (fun b => M b d) (M' d))
    (hsource : source < store.size) (htarget : target < store.size) :
    Collects store.size levels width (arrays store collect source target flow)
      (fun b => ∃ d, Elements store ⟨source, target, flow⟩ d ∧ M b d)
      (∃ d, Elements store ⟨source, target, flow⟩ d ∧ M' d) := by
  cases flow with
  | covariant => exact arraysDirected_collects hs hcollect hsource htarget (by simp)
  | contravariant => exact arraysDirected_collects hs hcollect hsource htarget (by simp)
  | invariant =>
      obtain ⟨sform, hsform⟩ := Store.form_isSome hsource
      obtain ⟨tform, htform⟩ := Store.form_isSome htarget
      have hsarray := Store.array?_of_form hsform
      have htarray := Store.array?_of_form htform
      refine collects_read hsarray (collects_read htarray ?_)
      cases hsshape : sform.array? with
      | none =>
          refine collects_pure (by simp) fun _ => ?_
          rintro ⟨d, ⟨-, rank, hd, -⟩, -⟩
          cases (hsarray.symm.trans hd).symm.trans (congrArg Except.ok hsshape)
      | some sshape =>
          obtain ⟨sourceElement, sourceRank⟩ := sshape
          rw [hsshape] at hsarray
          obtain ⟨_, hspart, -⟩ := hs.coherent.element hsform hsshape
          cases htshape : tform.array? with
          | none =>
              refine collects_pure (by simp) fun _ => ?_
              rintro ⟨d, ⟨-, rank, -, hd⟩, -⟩
              cases (htarray.symm.trans hd).symm.trans (congrArg Except.ok htshape)
          | some tshape =>
              obtain ⟨targetElement, targetRank⟩ := tshape
              rw [htshape] at htarray
              obtain ⟨_, htpart, -⟩ := hs.coherent.element htform htshape
              dsimp only
              split
              · next hrank =>
                  subst hrank
                  have helements : Elements store ⟨source, target, .invariant⟩
                      ⟨sourceElement, targetElement, .invariant⟩ :=
                    ⟨rfl, sourceRank, hsarray, htarray⟩
                  exact (hcollect ⟨sourceElement, targetElement, .invariant⟩ (Store.form_lt hspart)
                    (Store.form_lt htpart)).imp (fun b h => ⟨_, helements, h⟩)
                      fun ⟨d, hd, hM⟩ => hd.unique helements ▸ hM
              · next hrank =>
                  refine collects_pure (by simp) fun _ => ?_
                  rintro ⟨d, ⟨-, rank, hds, hdt⟩, -⟩
                  obtain ⟨-, rfl⟩ :=
                    Prod.mk.inj (Option.some.inj (Except.ok.inj (hsarray.symm.trans hds)))
                  obtain ⟨-, rfl⟩ :=
                    Prod.mk.inj (Option.some.inj (Except.ok.inj (htarray.symm.trans hdt)))
                  exact hrank rfl

theorem argument_collects (hs : store.WellFormed)
    (hcollect : ∀ d : Comparison, d.source < store.size → d.target < store.size →
      Collects store.size levels width (collect d.source d.target d.flow) (fun b => M b d) (M' d))
    {definition : Handle} {position : Nat} (hd : definition < store.size)
    (hsource : source < store.size) (htarget : target < store.size) :
    Collects store.size levels width (argument store collect definition flow source target position)
      (fun b => ArgumentMatches store (M b) flow definition position source target)
      (ArgumentMatches store M' flow definition position source target) := by
  obtain ⟨variance, hvariance⟩ :=
    Assignability.declaredVariance_total hs.coherent hd position
  obtain ⟨valueType, hvalue⟩ := isValueType_total hsource
  obtain ⟨form, hform⟩ := Store.form_isSome htarget
  have hopen := Store.isOpen_of_form hform
  have hat : ArgumentAt store flow definition position
      ⟨source, target, flow.combine variance valueType⟩ :=
    ⟨variance, valueType, hvariance, hvalue, rfl⟩
  refine collects_read hvariance (collects_read hvalue (collects_read hopen ?_))
  cases htemplate : form.isOpen with
  | true =>
      rw [htemplate] at hopen
      refine (hcollect ⟨source, target, flow.combine variance valueType⟩ hsource htarget).imp
        (fun b h => ⟨_, hat, Or.inl ⟨hopen, h⟩⟩) ?_
      rintro ⟨argumentFlow, hat', ⟨-, h⟩ | ⟨hclosed, -⟩⟩
      · exact hat'.unique hat rfl rfl ▸ h
      · cases hopen.symm.trans hclosed
  | false =>
      rw [htemplate] at hopen
      refine (collects_query (relateConcrete_total hs hsource htarget _)).imp
        (fun b h => ⟨_, hat, Or.inr ⟨hopen, h⟩⟩) ?_
      rintro ⟨argumentFlow, hat', ⟨hclosed, -⟩ | ⟨-, h⟩⟩
      · cases hopen.symm.trans hclosed
      · cases hat'.unique hat rfl rfl
        exact h

theorem arguments_collects (hs : store.WellFormed)
    (hcollect : ∀ d : Comparison, d.source < store.size → d.target < store.size →
      Collects store.size levels width (collect d.source d.target d.flow) (fun b => M b d) (M' d))
    {definition : Handle} {sourceArgs targetArgs : List Handle} (hd : definition < store.size)
    (hsourceArgs : ∀ x ∈ sourceArgs, x < store.size)
    (htargetArgs : ∀ y ∈ targetArgs, y < store.size) :
    Collects store.size levels width (arguments store collect definition sourceArgs targetArgs flow)
      (fun b => ArgumentsMatch store (M b) flow definition sourceArgs targetArgs)
      (ArgumentsMatch store M' flow definition sourceArgs targetArgs) := by
  rw [arguments]
  split
  · next hlength =>
      have hall : Collects store.size levels width
          ((sourceArgs.zip targetArgs).zipIdx.allM fun p =>
            argument store collect definition flow p.1.1 p.1.2 p.2)
          (fun b => ∀ p ∈ (sourceArgs.zip targetArgs).zipIdx,
            ArgumentMatches store (M b) flow definition p.2 p.1.1 p.1.2)
          (∀ p ∈ (sourceArgs.zip targetArgs).zipIdx,
            ArgumentMatches store M' flow definition p.2 p.1.1 p.1.2) := by
        refine collects_allM fun p hp => ?_
        obtain ⟨hx, hy⟩ := List.of_mem_zip (List.fst_mem_of_mem_zipIdx hp)
        exact argument_collects hs hcollect hd (hsourceArgs _ hx) (htargetArgs _ hy)
      exact hall.imp (fun _ h => ⟨hlength, forall_mem_zip_zipIdx.mp h⟩)
        fun h => forall_mem_zip_zipIdx.mpr h.2
  · next hlength => exact collects_pure (by simp) fun _ h => hlength h.1

/-- The arguments of a type of the store. -/
theorem arguments_total (hs : store.WellFormed) (hlt : source < store.size) :
    ∃ args, store.arguments source = .ok args ∧ ∀ x ∈ args, x < store.size := by
  obtain ⟨form, hform⟩ := Store.form_isSome hlt
  refine ⟨form.arguments, Store.arguments_of_form hform, fun x hx => ?_⟩
  obtain ⟨_, hpart, -⟩ := hs.coherent.argument hform hx
  exact Store.form_lt hpart

theorem found_lt (hs : store.WellFormed) {definition found : Handle} (hlt : source < store.size)
    (hd : store.definitionOrSelf definition = .ok definition)
    (h : store.findImplementation source definition = .ok (.found found)) :
    found < store.size := by
  obtain ⟨result, hresult, hfound⟩ := Store.findImplementation_total hs hlt hd
  obtain rfl := Except.ok.inj (hresult.symm.trans h)
  obtain ⟨-, hsuper | ⟨rfl, -⟩⟩ := hfound found rfl
  · exact hsuper.lt hs hlt
  · exact (Store.isNamed_root hs.coherent).queries.2.2.2

theorem Elements.lt (hs : store.WellFormed) {c d : Comparison} (hsource : c.source < store.size)
    (htarget : c.target < store.size) (h : Elements store c d) :
    d.source < store.size ∧ d.target < store.size := by
  have harray : ∀ {type element rank}, store.array? type = .ok (some (element, rank)) →
      element < store.size := by
    intro type element rank harray
    obtain ⟨form, hform, hshape⟩ := Store.isArray_of_array? harray
    obtain ⟨-, -, part, hpart, -⟩ := hs.coherent.array hform hshape
    exact Store.form_lt hpart
  have hcontainer : ∀ {type element rank}, type < store.size →
      containerElement? store type rank = .ok (some element) → element < store.size := by
    intro type element rank hlt hcontainer
    obtain ⟨result, hresult, hall⟩ := containerElement?_total hs hlt rank
    exact hall element (Except.ok.inj (hresult.symm.trans hcontainer))
  obtain ⟨source, target, flow⟩ := c
  cases flow with
  | invariant =>
      obtain ⟨-, rank, hsa, hta⟩ := h
      exact ⟨harray hsa, harray hta⟩
  | covariant =>
      obtain ⟨_, rank, _, -, hsc, htc, -⟩ := h
      exact ⟨hcontainer hsource hsc, hcontainer htarget htc⟩
  | contravariant =>
      obtain ⟨_, rank, _, -, hsc, htc, -⟩ := h
      exact ⟨hcontainer hsource hsc, hcontainer htarget htc⟩

theorem Instances.lt (hs : store.WellFormed) {c : Comparison} {definition : Handle}
    {sourceArgs targetArgs : List Handle} (hsource : c.source < store.size)
    (htarget : c.target < store.size) (h : Instances store c definition sourceArgs targetArgs) :
    (∀ x ∈ sourceArgs, x < store.size) ∧ ∀ y ∈ targetArgs, y < store.size := by
  have harguments : ∀ {type args}, type < store.size → store.arguments type = .ok args →
      ∀ x ∈ args, x < store.size := by
    intro type args hlt hargs
    obtain ⟨_, hargs', hall⟩ := arguments_total hs hlt
    obtain rfl := Except.ok.inj (hargs.symm.trans hargs')
    exact hall
  obtain ⟨source, target, flow⟩ := c
  cases flow with
  | invariant =>
      obtain ⟨-, -, hsargs, htargs⟩ := h
      exact ⟨harguments hsource hsargs, harguments htarget htargs⟩
  | covariant =>
      obtain ⟨htd, htargs, found, hfound, hsargs⟩ := h
      obtain ⟨_, htd', -, hself⟩ := definitionOrSelf_total hs htarget
      obtain rfl := Except.ok.inj (htd.symm.trans htd')
      exact ⟨harguments (found_lt hs hsource hself hfound) hsargs, harguments htarget htargs⟩
  | contravariant =>
      obtain ⟨hsd, hsargs, found, hfound, htargs⟩ := h
      obtain ⟨_, hsd', -, hself⟩ := definitionOrSelf_total hs hsource
      obtain rfl := Except.ok.inj (hsd.symm.trans hsd')
      exact ⟨harguments hsource hsargs, harguments (found_lt hs htarget hself hfound) htargs⟩

theorem Instances.definition_lt (hs : store.WellFormed) {c : Comparison} {definition : Handle}
    {sourceArgs targetArgs : List Handle} (hsource : c.source < store.size)
    (htarget : c.target < store.size) (h : Instances store c definition sourceArgs targetArgs) :
    definition < store.size := by
  have hlt : ∀ {type}, type < store.size → store.definitionOrSelf type = .ok definition →
      definition < store.size := by
    intro type htype hd
    obtain ⟨_, hd', hdlt, -⟩ := definitionOrSelf_total hs htype
    exact Except.ok.inj (hd.symm.trans hd') ▸ hdlt
  obtain ⟨source, target, flow⟩ := c
  cases flow with
  | invariant => exact hlt hsource h.1
  | covariant => exact hlt htarget h.1
  | contravariant => exact hlt hsource h.1

theorem implementation_collects (hs : store.WellFormed)
    (hcollect : ∀ d : Comparison, d.source < store.size → d.target < store.size →
      Collects store.size levels width (collect d.source d.target d.flow) (fun b => M b d) (M' d))
    (hsource : source < store.size) (htarget : target < store.size) :
    Collects store.size levels width (implementation store collect source target flow)
      (fun b => Ambiguous store ⟨source, target, flow⟩ ∨ ∃ definition sourceArgs targetArgs,
        Instances store ⟨source, target, flow⟩ definition sourceArgs targetArgs ∧
          ArgumentsMatch store (M b) flow definition sourceArgs targetArgs)
      (Ambiguous store ⟨source, target, flow⟩ ∨ ∃ definition sourceArgs targetArgs,
        Instances store ⟨source, target, flow⟩ definition sourceArgs targetArgs ∧
          ArgumentsMatch store M' flow definition sourceArgs targetArgs) := by
  obtain ⟨sd, hsd, hsdlt, hsdself⟩ := definitionOrSelf_total hs hsource
  obtain ⟨td, htd, htdlt, htdself⟩ := definitionOrSelf_total hs htarget
  obtain ⟨sargs, hsargs, hsargslt⟩ := arguments_total hs hsource
  obtain ⟨targs, htargs, htargslt⟩ := arguments_total hs htarget
  -- The instantiations are determined, so comparing their arguments decides.
  have hfound : ∀ {definition sourceArgs targetArgs} {walk : CollectM Bool},
      Instances store ⟨source, target, flow⟩ definition sourceArgs targetArgs →
      Collects store.size levels width walk
        (fun b => ArgumentsMatch store (M b) flow definition sourceArgs targetArgs)
        (ArgumentsMatch store M' flow definition sourceArgs targetArgs) →
      Collects store.size levels width walk
        (fun b => Ambiguous store ⟨source, target, flow⟩ ∨ ∃ definition sourceArgs targetArgs,
          Instances store ⟨source, target, flow⟩ definition sourceArgs targetArgs ∧
            ArgumentsMatch store (M b) flow definition sourceArgs targetArgs)
        (Ambiguous store ⟨source, target, flow⟩ ∨ ∃ definition sourceArgs targetArgs,
          Instances store ⟨source, target, flow⟩ definition sourceArgs targetArgs ∧
            ArgumentsMatch store M' flow definition sourceArgs targetArgs) := by
    intro definition sourceArgs targetArgs walk hinstances hwalk
    refine hwalk.imp (fun b h => Or.inr ⟨_, _, _, hinstances, h⟩) ?_
    rintro (hambiguous | ⟨definition', sourceArgs', targetArgs', hinstances', h⟩)
    · exact absurd hambiguous hinstances.not_ambiguous
    · obtain ⟨rfl, rfl, rfl⟩ := hinstances.unique hinstances'
      exact h
  refine collects_read hsd (collects_read htd ?_)
  cases flow with
  | invariant =>
      dsimp only
      split
      · next hsame =>
          subst hsame
          refine collects_read hsargs (collects_read htargs ?_)
          exact hfound ⟨hsd, htd, hsargs, htargs⟩
            (arguments_collects hs hcollect htdlt hsargslt htargslt)
      · next hne =>
          refine collects_pure (by simp) fun _ => ?_
          rintro (hfalse | ⟨definition, sargs', targs', ⟨hd, hd', -⟩, -⟩)
          · exact hfalse.elim
          · exact hne (Except.ok.inj (hsd.symm.trans (hd.trans (hd'.symm.trans htd))))
  | covariant =>
      obtain ⟨result, hresult, -⟩ := Store.findImplementation_total hs hsource htdself
      refine collects_read hresult ?_
      cases result with
      | found found =>
          obtain ⟨fargs, hfargs, hfargslt⟩ := arguments_total hs (found_lt hs hsource htdself hresult)
          refine collects_read hfargs (collects_read htargs ?_)
          exact hfound ⟨htd, htargs, found, hresult, hfargs⟩
            (arguments_collects hs hcollect htdlt hfargslt htargslt)
      | ambiguous types =>
          exact collects_pure (fun _ _ => Or.inl ⟨td, types, htd, hresult⟩) (by simp)
      | notFound =>
          refine collects_pure (by simp) fun _ => ?_
          rintro (⟨definition, types, hd, hr⟩ | ⟨definition, _, _, ⟨hd, -, found, hr, -⟩, -⟩)
          all_goals
            obtain rfl := Except.ok.inj (htd.symm.trans hd)
            cases hresult.symm.trans hr
  | contravariant =>
      obtain ⟨result, hresult, -⟩ := Store.findImplementation_total hs htarget hsdself
      refine collects_read hresult ?_
      cases result with
      | found found =>
          obtain ⟨fargs, hfargs, hfargslt⟩ := arguments_total hs (found_lt hs htarget hsdself hresult)
          refine collects_read hsargs (collects_read hfargs ?_)
          exact hfound ⟨hsd, hsargs, found, hresult, hfargs⟩
            (arguments_collects hs hcollect hsdlt hsargslt hfargslt)
      | ambiguous types =>
          exact collects_pure (fun _ _ => Or.inl ⟨sd, types, hsd, hresult⟩) (by simp)
      | notFound =>
          refine collects_pure (by simp) fun _ => ?_
          rintro (⟨definition, types, hd, hr⟩ | ⟨definition, _, _, ⟨hd, -, found, hr, -⟩, -⟩)
          all_goals
            obtain rfl := Except.ok.inj (hsd.symm.trans hd)
            cases hresult.symm.trans hr

theorem step_collects (hs : store.WellFormed) (hsignature : store.SignatureInRange signature)
    (hcollect : ∀ d : Comparison, d.source < store.size → d.target < store.size →
      Collects store.size levels width (collect d.source d.target d.flow) (fun b => M b d) (M' d))
    (hsource : source < store.size) (htarget : target < store.size) :
    Collects store.size levels width (step store signature collect source target flow)
      (fun b => MatchStep store signature (Recorded b) (M b) ⟨source, target, flow⟩)
      (MatchStep store signature (fun position _ _ => position < width) M'
        ⟨source, target, flow⟩) := by
  obtain ⟨entry, hentry⟩ := Store.entry_of_lt htarget
  obtain ⟨sform, hsform⟩ := Store.form_isSome hsource
  obtain ⟨tform, htform⟩ := Store.form_isSome htarget
  have hparam : store.param? target = .ok entry.param? := Store.query_of_entry hentry (·.param?)
  have hopen := Store.isOpen_of_form htform
  refine collects_read hparam ?_
  cases hinfo : entry.param? with
  | some info =>
      rw [hinfo] at hparam
      dsimp only
      split
      · next howner =>
          refine (record_collects hsource).imp (fun b h => .own hparam howner h) ?_
          rintro (⟨hparam', -, h⟩ | ⟨hparam', hother, -⟩ | ⟨hnone, -⟩ | ⟨⟨hnone, -⟩, -⟩ |
            ⟨⟨hnone, -⟩, -⟩ | ⟨⟨hnone, -⟩, -⟩)
          · obtain rfl := Option.some.inj (Except.ok.inj (hparam.symm.trans hparam'))
            exact h
          · obtain rfl := Option.some.inj (Except.ok.inj (hparam.symm.trans hparam'))
            exact absurd howner hother
          all_goals cases hparam.symm.trans hnone
      · next howner =>
          obtain ⟨bound, hbound, hboundlt⟩ := enclosingArgument_total hs hsignature htarget
          refine collects_read hbound ?_
          refine (collects_query (relateConcrete_total hs hsource hboundlt flow)).imp
            (fun b h => .foreign hparam howner hbound h) ?_
          rintro (⟨hparam', hown, -⟩ | ⟨-, -, hbound', h⟩ | ⟨hnone, -⟩ | ⟨⟨hnone, -⟩, -⟩ |
            ⟨⟨hnone, -⟩, -⟩ | ⟨⟨hnone, -⟩, -⟩)
          · obtain rfl := Option.some.inj (Except.ok.inj (hparam.symm.trans hparam'))
            exact absurd hown howner
          · obtain rfl := Except.ok.inj (hbound.symm.trans hbound')
            exact h
          all_goals cases hparam.symm.trans hnone
  | none =>
      rw [hinfo] at hparam
      refine collects_read hopen ?_
      cases htemplate : tform.isOpen with
      | false =>
          rw [htemplate] at hopen
          refine (collects_query (relateConcrete_total hs hsource htarget flow)).imp
            (fun b h => .concrete hparam hopen h) ?_
          rintro (⟨hsome, -⟩ | ⟨hsome, -⟩ | ⟨-, -, h⟩ | ⟨⟨-, hopen'⟩, -⟩ | ⟨⟨-, hopen'⟩, -⟩ |
            ⟨⟨-, hopen'⟩, -⟩)
          · cases hparam.symm.trans hsome
          · cases hparam.symm.trans hsome
          · exact h
          all_goals cases hopen.symm.trans hopen'
      | true =>
          rw [htemplate] at hopen
          have hsarray := Store.array?_of_form hsform
          have htarray := Store.array?_of_form htform
          have hcompound : Compound store target := ⟨hparam, hopen⟩
          have harrays : HasArray store source target ↔
              (sform.array?.isSome || tform.array?.isSome) = true := by
            constructor
            · rintro ⟨s, t, hs', ht', h⟩
              obtain rfl := Except.ok.inj (hsarray.symm.trans hs')
              obtain rfl := Except.ok.inj (htarray.symm.trans ht')
              exact h
            · exact fun h => ⟨_, _, hsarray, htarray, h⟩
          refine collects_read hsarray (collects_read htarray ?_)
          split
          · next harray =>
              refine (arrays_collects hs hcollect hsource htarget).imp ?_ ?_
              · rintro b ⟨d, helements, h⟩
                exact .elements hcompound (harrays.mpr harray) helements h
              · rintro (⟨hsome, -⟩ | ⟨hsome, -⟩ | ⟨-, hclosed, -⟩ | ⟨-, -, helements, h⟩ |
                  ⟨-, hnone, -⟩ | ⟨-, hnone, -⟩)
                · cases hparam.symm.trans hsome
                · cases hparam.symm.trans hsome
                · cases hopen.symm.trans hclosed
                · exact ⟨_, helements, h⟩
                all_goals exact absurd (harrays.mpr harray) hnone
          · next harray =>
              have hnone : ¬ HasArray store source target := fun h => harray (harrays.mp h)
              refine (implementation_collects hs hcollect hsource htarget).imp ?_ ?_
              · rintro b (h | ⟨definition, sargs, targs, hinstances, h⟩)
                · exact .ambiguous hcompound hnone h
                · exact .arguments hcompound hnone hinstances h
              · rintro (⟨hsome, -⟩ | ⟨hsome, -⟩ | ⟨-, hclosed, -⟩ | ⟨-, hsome, -⟩ |
                  ⟨-, -, h⟩ | ⟨-, -, hinstances, h⟩)
                · cases hparam.symm.trans hsome
                · cases hparam.symm.trans hsome
                · cases hopen.symm.trans hclosed
                · exact absurd hsome hnone
                · exact Or.inl h
                · exact Or.inr ⟨_, _, _, hinstances, h⟩

/-- The collector decides matching, within the levels that its depth counter allows. -/
theorem collectWithin_collects (hs : store.WellFormed)
    (hsignature : store.SignatureInRange signature) (hsource : source < store.size)
    (htarget : target < store.size) :
    Collects store.size levels width (collectWithin store signature levels source target flow)
      (fun b => Matches store signature (Recorded b) levels ⟨source, target, flow⟩)
      (Matches store signature (fun position _ _ => position < width) levels
        ⟨source, target, flow⟩) := by
  induction levels generalizing source target flow with
  | zero =>
      intro c hc
      have hfull : c.depth.maxDepth ≤ c.depth.depth := by
        rw [← hc.depth]
        exact Nat.le_refl _
      refine ⟨false, { c with depth := { c.depth with exceeded := true } }, ?_, ⟨hc.width, hc.depth⟩,
        rfl, BoundsGrow.refl _ _, by simp, fun _ h => h⟩
      rw [collectWithin, visit]
      refine run_bind_eq_ok.mpr ⟨c, c, rfl, ?_⟩
      simp only [DepthCounter.enter, if_pos hfull]
      rfl
  | succ levels ih =>
      intro c hc
      have hroom : ¬ c.depth.maxDepth ≤ c.depth.depth := by
        rw [← hc.depth]
        omega
      obtain ⟨matched, c₁, hrun, hready, hdepth, hgrow, hsound, hcomplete⟩ :=
        step_collects hs hsignature (fun d hd hd' => ih hd hd') hsource htarget
          { c with depth := { c.depth with depth := c.depth.depth + 1 } }
          ⟨hc.width, by rw [← hc.depth]; simp only; omega⟩
      have hleave : c₁.depth.leave = .ok { c₁.depth with depth := c₁.depth.depth - 1 } := by
        rw [DepthCounter.leave, if_neg (by rw [hdepth]; simp)]
      refine ⟨matched, { c₁ with depth := { c₁.depth with depth := c₁.depth.depth - 1 } }, ?_,
        ⟨hready.width, ?_⟩, ?_, hgrow, hsound, hcomplete⟩
      · rw [collectWithin, visit]
        refine run_bind_eq_ok.mpr ⟨c, c, rfl, ?_⟩
        simp only [DepthCounter.enter, if_neg hroom]
        refine run_bind_eq_ok.mpr ⟨(), _, rfl, run_bind_eq_ok.mpr ⟨matched, c₁, hrun,
          run_bind_eq_ok.mpr ⟨c₁, c₁, rfl, run_bind_eq_ok.mpr ⟨_, c₁, ?_, rfl⟩⟩⟩⟩
        exact run_lift_eq_ok.mpr ⟨hleave, rfl⟩
      · have hready' := hready.depth
        simp only at hready' hdepth ⊢
        omega
      · simp only at hdepth ⊢
        omega

/-- Matching a comparison with a new depth counter. -/
theorem collect_matches (hs : store.WellFormed) (hsignature : store.SignatureInRange signature)
    (c : Comparison) (bounds : List BoundSet) (hsource : c.source < store.size)
    (htarget : c.target < store.size) :
    ∃ matched bounds', Collection.collect store signature c.source c.target c.flow bounds =
        .ok (matched, bounds') ∧ BoundsGrow store.size bounds bounds' ∧
      (matched = true → ∀ later, BoundsGrow store.size bounds' later →
        Matches store signature (Recorded later) Limits.collection.maxDepth c) ∧
      (matched = false → ¬ Matches store signature (fun position _ _ => position < bounds.length)
        Limits.collection.maxDepth c) := by
  have hready : Ready Limits.collection.maxDepth bounds.length
      { bounds, depth := .ofLimits Limits.collection } := ⟨rfl, Nat.zero_add _⟩
  obtain ⟨matched, collector, hrun, -, hdepth, hgrow, hsound, hcomplete⟩ :=
    collectWithin_collects hs hsignature hsource htarget _ hready
  refine ⟨matched, collector.bounds, ?_, hgrow, hsound, hcomplete⟩
  rw [Collection.collect, hrun, Query.ok_bind]
  simp only [DepthCounter.release, hdepth, DepthCounter.ofLimits, if_true, Query.ok_bind]
  rfl

end Steps

end Collection

end NominalGenerics
