import NominalGenerics.Proofs.InferenceProgress

/-!
# Collection from any bounds

Matching a template does the same whatever has been recorded before: it gives one answer and records
one list of witnesses. `Collection.collect_records` states this for types of a store.

What a bound set fixes depends on the members of its sides only, not on the order in which they were
recorded, if assignability is antisymmetric. That is `BoundSet.pick_congr`.
-/

namespace NominalGenerics

/-- A witness to be recorded: the type parameter that it is for, and the flow of its position. -/
structure WitnessAt where
  position : Nat
  type : Handle
  flow : Flow

namespace Witnesses

variable {witnesses : Witnesses} {types types' : List Handle} {type : Handle}

/-- Witnesses recorded one after the other. -/
def addAll (witnesses : Witnesses) (types : List Handle) : Witnesses :=
  types.foldl add witnesses

theorem mem_addAll : type ∈ witnesses.addAll types ↔ type ∈ witnesses ∨ type ∈ types := by
  induction types generalizing witnesses with
  | nil => simp [addAll]
  | cons head types ih =>
      rw [show witnesses.addAll (head :: types) = (witnesses.add head).addAll types from rfl, ih,
        mem_add, List.mem_cons, or_assoc]

/-- Equal witnesses are listed once. -/
def Compact (witnesses : Witnesses) : Prop :=
  ∀ type, (∀ witness ∈ witnesses, witness = type) → witnesses = [] ∨ witnesses = [type]

theorem Compact.add (h : witnesses.Compact) (type : Handle) : (witnesses.add type).Compact := by
  intro other hall
  unfold Witnesses.add at hall ⊢
  split
  · next hsame =>
      rw [if_pos hsame] at hall
      exact h other hall
  · next hdifferent =>
      rw [if_neg hdifferent] at hall
      obtain rfl : type = other := hall type (by simp)
      rcases h type fun witness hmem => hall witness (by simp [hmem]) with rfl | hsame
      · exact Or.inr rfl
      · exact absurd hsame hdifferent

theorem Compact.addAll (h : witnesses.Compact) (types : List Handle) :
    (witnesses.addAll types).Compact := by
  induction types generalizing witnesses with
  | nil => exact h
  | cons head types ih => exact ih (h.add head)

theorem compact_nil : Compact [] := fun _ _ => Or.inl rfl

end Witnesses

section Lists

variable {α : Type} {as bs : List α} {p : α → Bool}

theorem all_eq_of_mem_iff (h : ∀ a, a ∈ as ↔ a ∈ bs) : as.all p = bs.all p := by
  rw [Bool.eq_iff_iff, List.all_eq_true, List.all_eq_true]
  exact forall_congr' fun a => by rw [h a]

/-- If at most one element passes the test, the order does not matter for which is found. -/
theorem find?_eq_of_mem_iff (h : ∀ a, a ∈ as ↔ a ∈ bs)
    (hunique : ∀ a ∈ as, ∀ b ∈ as, p a = true → p b = true → a = b) : as.find? p = bs.find? p := by
  cases hfound : bs.find? p with
  | none =>
      rw [List.find?_eq_none] at hfound ⊢
      exact fun a ha => hfound a ((h a).mp ha)
  | some b =>
      have hpass := List.find?_some hfound
      have hmem := (h b).mpr (List.mem_of_find?_eq_some hfound)
      cases hfound' : as.find? p with
      | none => exact absurd hpass (List.find?_eq_none.mp hfound' b hmem)
      | some a =>
          rw [hunique a (List.mem_of_find?_eq_some hfound') b hmem (List.find?_some hfound') hpass]

end Lists

namespace BoundSet

variable {bounds bounds' : BoundSet} {below : Handle → Handle → Bool}

/-- Fixing depends on the members of a bound set only, if assignability is antisymmetric on them. -/
theorem pick_congr (hmem : ∀ flow type, type ∈ bounds.side flow ↔ type ∈ bounds'.side flow)
    (hcompact : bounds.exact.Compact) (hcompact' : bounds'.exact.Compact)
    (hantisymm : ∀ flow, ∀ a ∈ bounds.side flow, ∀ b ∈ bounds.side flow,
      below a b = true → below b a = true → a = b) :
    bounds.pick below = bounds'.pick below := by
  have hupper : ∀ p : Handle → Bool, bounds.upper.all p = bounds'.upper.all p :=
    fun _ => all_eq_of_mem_iff (hmem .contravariant)
  have hlower : ∀ p : Handle → Bool, bounds.lower.all p = bounds'.lower.all p :=
    fun _ => all_eq_of_mem_iff (hmem .covariant)
  -- Two least upper witnesses are below each other, and so are two greatest lower ones.
  have hleast : bounds.upper.find? (fun upper => bounds.upper.all (below upper)) =
      bounds'.upper.find? fun upper => bounds'.upper.all (below upper) := by
    rw [show (fun upper => bounds'.upper.all (below upper)) =
      fun upper => bounds.upper.all (below upper) from funext fun _ => (hupper _).symm]
    refine find?_eq_of_mem_iff (hmem .contravariant) fun a ha b hb hall hall' => ?_
    exact hantisymm .contravariant a ha b hb (List.all_eq_true.mp hall b hb)
      (List.all_eq_true.mp hall' a ha)
  have hgreatest : bounds.lower.find? (fun lower => bounds.lower.all (below · lower)) =
      bounds'.lower.find? fun lower => bounds'.lower.all (below · lower) := by
    rw [show (fun lower => bounds'.lower.all (below · lower)) =
      fun lower => bounds.lower.all (below · lower) from funext fun _ => (hlower _).symm]
    refine find?_eq_of_mem_iff (hmem .covariant) fun a ha b hb hall hall' => ?_
    exact hantisymm .covariant a ha b hb (List.all_eq_true.mp hall' a ha)
      (List.all_eq_true.mp hall b hb)
  have hexact : ∀ type, type ∈ bounds.exact ↔ type ∈ bounds'.exact := hmem .invariant
  unfold pick
  rcases hsingle : bounds.exact with - | ⟨exact, - | ⟨other, rest⟩⟩
  · have hnone : bounds'.exact = [] := List.eq_nil_iff_forall_not_mem.mpr fun type htype => by
      have := (hexact type).mpr htype
      rw [hsingle] at this
      cases this
    rw [hnone]
    dsimp only
    rw [hleast, hgreatest]
    simp only [hupper, hlower]
  · have hsame : bounds'.exact = [exact] := by
      refine (hcompact' exact fun witness hwitness => ?_).resolve_left fun hnone => ?_
      · simpa [hsingle] using (hexact witness).mpr hwitness
      · have := (hexact exact).mp (by simp [hsingle])
        rw [hnone] at this
        cases this
    rw [hsame]
    simp only [hupper, hlower]
  · -- Witnesses that differ are at least two in either order.
    rcases hsingle' : bounds'.exact with - | ⟨exact', - | ⟨other', rest'⟩⟩
    · have := (hexact exact).mp (by simp [hsingle])
      rw [hsingle'] at this
      cases this
    · have hall : ∀ witness ∈ bounds.exact, witness = exact' := fun witness hwitness => by
        simpa [hsingle'] using (hexact witness).mp hwitness
      rcases hcompact exact' hall with hnone | hone
      · rw [hsingle] at hnone
        cases hnone
      · rw [hsingle] at hone
        cases hone
    · rfl

end BoundSet

/-- Records witnesses one after the other. -/
def recordAll (bounds : List BoundSet) (found : List WitnessAt) : List BoundSet :=
  found.foldl (fun bounds witness =>
    bounds.modify witness.position (·.add witness.type witness.flow)) bounds

section Recording

variable {bounds : List BoundSet} {found found' : List WitnessAt}

@[simp] theorem length_recordAll : (recordAll bounds found).length = bounds.length := by
  induction found generalizing bounds with
  | nil => rfl
  | cons witness found ih => exact ih.trans (List.length_modify _ _ _)

theorem recordAll_append :
    recordAll bounds (found ++ found') = recordAll (recordAll bounds found) found' :=
  List.foldl_append

/-- The types that are found for a type parameter on one side. -/
def typesAt (found : List WitnessAt) (position : Nat) (flow : Flow) : List Handle :=
  (found.filter fun witness => witness.position = position ∧ witness.flow = flow).map (·.type)

theorem BoundSet.side_add (set : BoundSet) (type : Handle) (flow flow' : Flow) :
    (set.add type flow).side flow' =
      if flow = flow' then (set.side flow').add type else set.side flow' := by
  cases flow <;> cases flow' <;> rfl

theorem side_recordAll {position : Nat} (hposition : position < bounds.length) (flow : Flow) :
    ((recordAll bounds found)[position]?.getD {}).side flow =
      ((bounds[position]?.getD {}).side flow).addAll (typesAt found position flow) := by
  induction found generalizing bounds with
  | nil => rfl
  | cons witness found ih =>
      have hlt : position < (bounds.modify witness.position
          (·.add witness.type witness.flow)).length := by rwa [List.length_modify]
      refine (ih hlt).trans ?_
      have hset : bounds[position]? = some bounds[position] := List.getElem?_eq_getElem hposition
      rw [List.getElem?_modify, hset, typesAt, typesAt, List.filter_cons]
      by_cases hat : witness.position = position
      · by_cases hflow : witness.flow = flow
        · simp [hat, hflow, BoundSet.side_add, Witnesses.addAll]
        · simp [hat, hflow, BoundSet.side_add]
      · simp [hat]

theorem typesAt_perm (h : found.Perm found') (position : Nat) (flow : Flow) :
    (typesAt found position flow).Perm (typesAt found' position flow) :=
  (h.filter _).map _

end Recording

namespace Collection

/-- With bounds for a given number of type parameters, the walk gives the same answer, or the same
fault, and records the same witnesses, whatever has been recorded before. -/
def Uniform {α : Type} (width : Nat) (walk : CollectM α) : Prop :=
  ∀ depth,
    (∃ fault, ∀ bounds, bounds.length = width → walk.run ⟨bounds, depth⟩ = .error fault) ∨
      ∃ a depth' found, ∀ bounds, bounds.length = width →
        walk.run ⟨bounds, depth⟩ = .ok (a, ⟨recordAll bounds found, depth'⟩)

section Walks

variable {α β : Type} {width : Nat}

theorem uniform_pure (a : α) : Uniform width (pure a) :=
  fun depth => Or.inr ⟨a, depth, [], fun _ _ => rfl⟩

theorem uniform_throw (fault : Fault) : Uniform width (throw fault : CollectM α) :=
  fun _ => Or.inl ⟨fault, fun _ _ => rfl⟩

theorem uniform_query (x : Query α) : Uniform width (liftM x) := by
  intro depth
  cases x with
  | error fault => exact Or.inl ⟨fault, fun _ _ => rfl⟩
  | ok a => exact Or.inr ⟨a, depth, [], fun _ _ => rfl⟩

theorem Uniform.bind {walk : CollectM α} {next : α → CollectM β} (h : Uniform width walk)
    (hnext : ∀ a, Uniform width (next a)) : Uniform width (walk >>= next) := by
  intro depth
  rcases h depth with ⟨fault, hfault⟩ | ⟨a, depth', found, hrun⟩
  · refine Or.inl ⟨fault, fun bounds hbounds => ?_⟩
    rw [StateT.run_bind, hfault bounds hbounds]
    rfl
  · have hgo : ∀ bounds, bounds.length = width → (walk >>= next).run ⟨bounds, depth⟩ =
        (next a).run ⟨recordAll bounds found, depth'⟩ := fun bounds hbounds => by
      rw [StateT.run_bind, hrun bounds hbounds, Query.ok_bind]
    rcases hnext a depth' with ⟨fault, hfault⟩ | ⟨b, depth'', found', hrun'⟩
    · refine Or.inl ⟨fault, fun bounds hbounds => ?_⟩
      rw [hgo bounds hbounds, hfault _ (length_recordAll.trans hbounds)]
    · refine Or.inr ⟨b, depth'', found ++ found', fun bounds hbounds => ?_⟩
      rw [hgo bounds hbounds, hrun' _ (length_recordAll.trans hbounds), recordAll_append]

/-- A walk that goes on from an answer of the store. -/
theorem uniform_read (x : Query α) {next : α → CollectM β} (hnext : ∀ a, Uniform width (next a)) :
    Uniform width (liftM x >>= next) :=
  (uniform_query x).bind hnext

theorem uniform_depth {f : DepthCounter → CollectM α} (hf : ∀ depth, Uniform width (f depth)) :
    Uniform width (get >>= fun collector => f collector.depth) :=
  fun depth => hf depth depth

theorem uniform_setDepth (depth : DepthCounter) :
    Uniform width (modify fun collector => { collector with depth } : CollectM PUnit) :=
  fun _ => Or.inr ⟨⟨⟩, depth, [], fun _ _ => rfl⟩

theorem uniform_allM {f : α → CollectM Bool} {as : List α}
    (h : ∀ a ∈ as, Uniform width (f a)) : Uniform width (as.allM f) := by
  induction as with
  | nil => exact uniform_pure true
  | cons a as ih =>
      rw [List.allM]
      refine (h a List.mem_cons_self).bind fun answer => ?_
      cases answer with
      | true => exact ih fun b hb => h b (List.mem_cons_of_mem a hb)
      | false => exact uniform_pure false

theorem record_uniform (position : Nat) (source : Handle) (flow : Flow) :
    Uniform width (record position source flow) := by
  intro depth
  by_cases hlt : position < width
  · refine Or.inr ⟨true, depth, [⟨position, source, flow⟩], fun bounds hbounds => ?_⟩
    rw [record]
    refine run_bind_eq_ok.mpr ⟨_, _, rfl, ?_⟩
    rw [if_pos (show position < bounds.length from hbounds ▸ hlt)]
    rfl
  · refine Or.inr ⟨false, depth, [], fun bounds hbounds => ?_⟩
    rw [record]
    refine run_bind_eq_ok.mpr ⟨_, _, rfl, ?_⟩
    rw [if_neg (show ¬ position < bounds.length from hbounds ▸ hlt)]
    rfl

end Walks

section Steps

variable {store : Store} {signature : Signature} {width : Nat}
  {collect : Handle → Handle → Flow → CollectM Bool}

theorem arrays_uniform (hcollect : ∀ source target flow, Uniform width (collect source target flow))
    (source target : Handle) (flow : Flow) :
    Uniform width (arrays store collect source target flow) := by
  unfold arrays
  split
  · refine uniform_read _ fun _ => uniform_read _ fun _ => ?_
    split
    · split
      · exact hcollect _ _ _
      · exact uniform_pure false
    · exact uniform_pure false
  · refine uniform_read _ fun shape => ?_
    split
    · exact uniform_pure false
    · refine uniform_read _ fun _ => uniform_read _ fun _ => ?_
      split
      · exact uniform_read _ fun _ => hcollect _ _ _
      · exact uniform_pure false

theorem arguments_uniform
    (hcollect : ∀ source target flow, Uniform width (collect source target flow))
    (definition : Handle) (sourceArgs targetArgs : List Handle) (flow : Flow) :
    Uniform width (arguments store collect definition sourceArgs targetArgs flow) := by
  unfold arguments
  split
  · refine uniform_allM fun p _ => ?_
    refine uniform_read _ fun _ => uniform_read _ fun _ => uniform_read _ fun _ => ?_
    split
    · exact hcollect _ _ _
    · exact uniform_query _
  · exact uniform_pure false

theorem implementation_uniform
    (hcollect : ∀ source target flow, Uniform width (collect source target flow))
    (source target : Handle) (flow : Flow) :
    Uniform width (implementation store collect source target flow) := by
  refine uniform_read _ fun _ => uniform_read _ fun _ => ?_
  cases flow with
  | invariant =>
      dsimp only
      split
      · exact uniform_read _ fun _ => uniform_read _ fun _ => arguments_uniform hcollect _ _ _ _
      · exact uniform_pure false
  | covariant | contravariant =>
      refine uniform_read _ fun result => ?_
      cases result with
      | found =>
          exact uniform_read _ fun _ => uniform_read _ fun _ => arguments_uniform hcollect _ _ _ _
      | ambiguous => exact uniform_pure true
      | notFound => exact uniform_pure false

theorem step_uniform (hcollect : ∀ source target flow, Uniform width (collect source target flow))
    (source target : Handle) (flow : Flow) :
    Uniform width (step store signature collect source target flow) := by
  refine uniform_read _ fun info? => ?_
  split
  · split
    · exact record_uniform _ _ _
    · exact uniform_read _ fun _ => uniform_query _
  · refine uniform_read _ fun isOpen => ?_
    split
    · refine uniform_read _ fun _ => uniform_read _ fun _ => ?_
      split
      · exact arrays_uniform hcollect _ _ _
      · exact implementation_uniform hcollect _ _ _
    · exact uniform_query _

/-- A step from a given depth. -/
theorem visitFrom_uniform
    (hcollect : ∀ source target flow, Uniform width (collect source target flow))
    (source target : Handle) (flow : Flow) (counter : DepthCounter) :
    Uniform width (do
      let (entered, depth) := counter.enter
      modify fun collector => { collector with depth }
      if entered then
        let matched ← step store signature collect source target flow
        let depth ← (← get).depth.leave
        modify fun collector => { collector with depth }
        return matched
      else
        return false) := by
  refine (uniform_setDepth _).bind fun _ => ?_
  split
  · refine (step_uniform hcollect _ _ _).bind fun matched => ?_
    refine uniform_depth (f := fun counter => do
      let depth ← counter.leave
      modify fun collector => { collector with depth }
      return matched) fun counter => ?_
    exact uniform_read _ fun _ => (uniform_setDepth _).bind fun _ => uniform_pure matched
  · exact uniform_pure false

theorem visit_uniform (hcollect : ∀ source target flow, Uniform width (collect source target flow))
    (source target : Handle) (flow : Flow) :
    Uniform width (visit store signature collect source target flow) :=
  uniform_depth fun counter => visitFrom_uniform hcollect source target flow counter

theorem collectWithin_uniform (fuel : Nat) (source target : Handle) (flow : Flow) :
    Uniform width (collectWithin store signature fuel source target flow) := by
  induction fuel generalizing source target flow with
  | zero => exact visit_uniform (fun _ _ _ => uniform_throw _) source target flow
  | succ fuel ih => exact visit_uniform ih source target flow

end Steps

/-- Matching types of the store gives one answer and records one list of witnesses. -/
theorem collect_records {store : Store} {signature : Signature} (hs : store.WellFormed)
    (hsignature : store.SignatureInRange signature) (width : Nat) {source target : Handle}
    (hsource : source < store.size) (htarget : target < store.size) (flow : Flow) :
    ∃ matched found, ∀ bounds, bounds.length = width →
      Collection.collect store signature source target flow bounds =
        .ok (matched, recordAll bounds found) := by
  have hends : ∀ bounds : List BoundSet, ∃ result,
      Collection.collect store signature source target flow bounds = .ok result := fun bounds => by
    obtain ⟨matched, bounds', hcollect, -⟩ :=
      collect_matches hs hsignature ⟨source, target, flow⟩ bounds hsource htarget
    exact ⟨_, hcollect⟩
  have huniform : Uniform width
      (collectWithin store signature Limits.collection.maxDepth source target flow) :=
    collectWithin_uniform _ _ _ _
  rcases huniform (.ofLimits Limits.collection) with
    ⟨fault, hfault⟩ | ⟨matched, depth, found, hrun⟩
  · obtain ⟨result, hresult⟩ := hends (List.replicate width {})
    rw [Collection.collect, hfault _ List.length_replicate] at hresult
    cases hresult
  · refine ⟨matched, found, fun bounds hbounds => ?_⟩
    obtain ⟨result, hresult⟩ := hends bounds
    rw [Collection.collect, hrun bounds hbounds, Query.ok_bind] at hresult ⊢
    obtain ⟨_, hrelease, -⟩ := Query.bind_eq_ok.mp hresult
    exact Query.bind_eq_ok.mpr ⟨_, hrelease, rfl⟩

end Collection

end NominalGenerics
