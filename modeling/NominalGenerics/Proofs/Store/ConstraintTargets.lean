import NominalGenerics.Proofs.Store.Reachable

/-!
# Targets of constraints

Constraints stand outside the forms of types, so coherence does not speak of them. This module adds
that the targets of base constraints denote types in every reachable store: only `addConstraint`
changes constraints, and type parameters are declared without any.
-/

namespace NominalGenerics.Store

variable {s s' : Store}

/-- The targets of base constraints are types of the store. -/
def ConstraintsInRange (store : Store) : Prop :=
  ∀ ⦃type : Handle⦄ ⦃entry info target⦄, store.types[type]? = some entry →
    entry.shape = .parameter info → .base target ∈ info.constraints → target < store.size

/-- `s'` has the constraints of `s`: types keep their shapes, and new type parameters have no
constraints. -/
structure SameConstraints (s s' : Store) : Prop where
  size : s.size ≤ s'.size
  shapes : ∀ {type : Handle} {entry' info}, s'.types[type]? = some entry' →
    entry'.shape = .parameter info → info.constraints = [] ∨
      ∃ entry, s.types[type]? = some entry ∧ entry.shape = .parameter info

namespace SameConstraints

theorem of_types (h : s'.types = s.types) : SameConstraints s s' :=
  ⟨by simp [Store.size, h], fun hentry hshape => Or.inr ⟨_, h ▸ hentry, hshape⟩⟩

theorem trans {a b c : Store} (hab : SameConstraints a b) (hbc : SameConstraints b c) :
    SameConstraints a c := by
  refine ⟨Nat.le_trans hab.size hbc.size, fun hentry hshape => ?_⟩
  rcases hbc.shapes hentry hshape with hnone | ⟨entry, hentry', hshape'⟩
  · exact Or.inl hnone
  · exact hab.shapes hentry' hshape'

theorem inRange (h : SameConstraints s s') (hs : s.ConstraintsInRange) :
    s'.ConstraintsInRange := by
  intro type entry info target hentry hshape hmem
  rcases h.shapes hentry hshape with hnone | ⟨entry', hentry', hshape'⟩
  · rw [hnone] at hmem
    cases hmem
  · exact Nat.lt_of_lt_of_le (hs hentry' hshape' hmem) h.size

theorem of_grown (h : Grown s s') : SameConstraints s s' := by
  refine ⟨h.size_le, fun hentry hshape => ?_⟩
  rcases h.old_or_fresh hentry with hold | ⟨-, hfresh, -⟩
  · exact Or.inr ⟨_, hold, hshape⟩
  · rcases hfresh.isInterned with ⟨_, _, hother⟩ | ⟨_, _, hother⟩
    · rw [hother] at hshape
      cases hshape
    · rw [hother] at hshape
      cases hshape

/-- Changing an entry outside its shape. -/
theorem of_modify {type : Handle} {change : Entry → Entry}
    (hchange : ∀ entry, (change entry).shape = entry.shape) :
    SameConstraints s { s with types := s.types.modify type change } := by
  refine ⟨by simp [Store.size], fun hentry hshape => Or.inr ?_⟩
  rcases modify_getElem? hentry with ⟨rfl, old, hold, rfl⟩ | ⟨-, hold⟩
  · exact ⟨old, hold, (hchange old).symm.trans hshape⟩
  · exact ⟨_, hold, hshape⟩

theorem of_modifyEntry {type : Handle} {change : Entry → Entry} {u : Unit}
    (hrun : (modifyEntry type change).run s = .ok (u, s'))
    (hchange : ∀ entry, (change entry).shape = entry.shape) : SameConstraints s s' := by
  obtain ⟨-, rfl⟩ := modifyEntry_run hrun
  exact of_modify hchange

theorem of_closing {frozen : List Handle} (h : Closing frozen s s') : SameConstraints s s' := by
  refine ⟨Nat.le_of_eq h.size.symm, fun hentry hshape => Or.inr ?_⟩
  obtain ⟨entry, hold, heq⟩ := h.old hentry
  rw [heq] at hshape
  exact ⟨entry, hold, hshape⟩

theorem of_appended {new : List Entry} {callables : Array Signature}
    (hnew : ∀ entry ∈ new, ∀ info, entry.shape = .parameter info → info.constraints = []) :
    SameConstraints s (s.appended new callables) := by
  refine ⟨by rw [size_appended]; exact Nat.le_add_right _ _, fun {type entry' info} hentry hshape => ?_⟩
  rw [appended_getElem?] at hentry
  split at hentry
  · exact Or.inr ⟨entry', hentry, hshape⟩
  · exact Or.inl (hnew entry' (List.mem_of_getElem? hentry) info hshape)

/-- Expanding pending types interns types and sets supertypes. -/
theorem of_drain {fuel : Nat} {types : List Handle} (hs : s.Draining)
    (hrun : (drain fuel).run s = .ok (types, s')) : SameConstraints s s' := by
  refine (hs.drain_keeps (I := SameConstraints s) (of_types rfl) ?_ hrun).2.2
  intro t t' type rest ht hsame hpending hexpand
  have hqueue : SameConstraints t { t with pending := rest } := of_types rfl
  refine hsame.trans (hqueue.trans ?_)
  rcases expand_run (ht.popped hpending) hexpand with
    ⟨rfl, -⟩ | ⟨grown, change, -, hgrown, -, rfl, -⟩
  · exact of_types rfl
  · exact (of_grown hgrown).trans (of_modify fun _ => rfl)

theorem of_close {u : Unit} (hs : s.Draining) (hrun : close.run s = .ok (u, s')) :
    SameConstraints s s' := by
  unfold close at hrun
  obtain ⟨types, mid, hdrain, hrun⟩ := run_bind_eq_ok.mp hrun
  obtain ⟨hmid, -⟩ := drain_run hs hdrain
  exact (of_drain hs hdrain).trans (of_closing (closeAll_run hmid.wellFormed hrun).2.1)

/-- Interning a type and closing it if the store is finished. -/
theorem of_intern {mid : Store} {u : Unit} (hs : s.Lawful) (hgrown : Grown s mid)
    (hmid : mid.Coherent) (hrun : closeIfFinished.run mid = .ok (u, s')) :
    SameConstraints s s' := by
  unfold closeIfFinished at hrun
  obtain ⟨_, _, hget, hrun⟩ := run_bind_eq_ok.mp hrun
  cases hget
  refine (of_grown hgrown).trans ?_
  split at hrun
  · exact of_close (hs.grown_draining hgrown hmid) hrun
  · obtain ⟨-, rfl⟩ := run_pure_eq_ok.mp hrun
    exact of_types rfl

theorem of_finish (hs : s.Lawful) (hunfinished : s.finished = false) {u : Unit}
    (hrun : Store.finish.run s = .ok (u, s')) : SameConstraints s s' := by
  obtain ⟨mid, last, hclose, hall, rfl⟩ := finish_run hrun
  have hbases : SameConstraints s s.withDefaultBases := by
    refine ⟨by simp [Store.size, withDefaultBases], fun hentry hshape => Or.inr ?_⟩
    obtain ⟨old, hold, rfl⟩ := entry_withDefaultBases hentry
    exact ⟨old, hold, hshape⟩
  have hdraining := (hs.withDefaultBases hunfinished).draining
  have hmid := (close_run hdraining hclose).1
  exact hbases.trans ((of_close hdraining hclose).trans
    ((of_closing (closeAll_run hmid.wellFormed hall).2.1).trans (of_types rfl)))

end SameConstraints

theorem ConstraintsInRange.addConstraint (hs : s.ConstraintsInRange) {param : Handle}
    {constraint : Constraint} {u : Unit}
    (htarget : ∀ target, constraint = .base target → target < s.size)
    (hrun : (Store.addConstraint param constraint).run s = .ok (u, s')) :
    s'.ConstraintsInRange := by
  obtain ⟨-, rfl⟩ := modifyEntry_run hrun
  intro type entry info target hentry hshape hmem
  have hold : ∀ entry, s.types[type]? = some entry → entry.shape = .parameter info →
      target < s.size := fun entry hentry hshape => hs hentry hshape hmem
  simp only [Store.size, Array.size_modify]
  rcases modify_getElem? hentry with ⟨rfl, old, hentry', rfl⟩ | ⟨-, hentry'⟩
  · split at hshape
    · next info' hshape' =>
        cases hshape
        rcases List.mem_append.mp hmem with hmem | hmem
        · exact hs hentry' hshape' hmem
        · exact htarget target (List.mem_singleton.mp hmem).symm
    · exact hold old hentry' hshape
  · exact hold entry hentry' hshape

theorem ConstraintsInRange.step (hs : s.Lawful) (hconstraints : s.ConstraintsInRange)
    {op : Operation} (hallowed : op.Allowed s) (hrun : op.run.run s = .ok ((), s')) :
    s'.ConstraintsInRange := by
  obtain ⟨hhandles, htime⟩ := hallowed
  -- A pushed type that is no parameter, a changed field and a changed role carry no constraints.
  have hpush : ∀ {entry : Entry}, entry.shape = .named →
      SameConstraints s (s.appended [entry] s.callables) := by
    intro entry hnamed
    refine .of_appended fun other hother info hshape => ?_
    rw [List.mem_singleton.mp hother, hnamed] at hshape
    cases hshape
  cases op with
  | declare kind name =>
      cases hrun
      exact (hpush rfl).inRange hconstraints
  | declareGeneric kind name params =>
      obtain ⟨_, hrun⟩ := run_discard_eq_ok hrun
      rw [declareGeneric_run hrun]
      refine SameConstraints.inRange (.of_appended fun entry hentry info hshape => ?_) hconstraints
      rcases List.mem_cons.mp hentry with rfl | hentry
      · cases hshape
      · obtain ⟨_, -, rfl⟩ := List.mem_map.mp hentry
        cases hshape
        rfl
  | declarePrimitive name kind =>
      cases hrun
      exact (hpush rfl).inRange hconstraints
  | declareEnum name underlying =>
      cases hrun
      exact (hpush rfl).inRange hconstraints
  | declarePointer name =>
      cases hrun
      exact (hpush rfl).inRange hconstraints
  | setBase type base =>
      exact (SameConstraints.of_modifyEntry hrun fun _ => rfl).inRange hconstraints
  | addInterface type interface =>
      exact (SameConstraints.of_modifyEntry hrun fun _ => rfl).inRange hconstraints
  | addFlags type flags =>
      exact (SameConstraints.of_modifyEntry hrun fun _ => rfl).inRange hconstraints
  | removeFlags type flags =>
      exact (SameConstraints.of_modifyEntry hrun fun _ => rfl).inRange hconstraints
  | setValueTypeRoot type =>
      cases hrun
      exact hconstraints
  | setArrayRoot type =>
      cases hrun
      exact hconstraints
  | setOptionalWrapper definition =>
      cases hrun
      exact hconstraints
  | addSequenceInterface definition =>
      cases hrun
      exact hconstraints
  | finish => exact (SameConstraints.of_finish hs (htime rfl) hrun).inRange hconstraints
  | instantiate definition args =>
      obtain ⟨mid, hgrown, hmid, hclose⟩ := hs.interning rfl hrun
      exact (SameConstraints.of_intern hs hgrown hmid hclose).inRange hconstraints
  | arrayOf element rank =>
      obtain ⟨mid, hgrown, hmid, hclose⟩ := hs.interning rfl hrun
      exact (SameConstraints.of_intern hs hgrown hmid hclose).inRange hconstraints
  | declareCallable name typeParams =>
      obtain ⟨_, hrun⟩ := run_discard_eq_ok hrun
      rw [declareCallable_run hrun]
      refine SameConstraints.inRange (.of_appended fun entry hentry info hshape => ?_) hconstraints
      obtain ⟨_, -, rfl⟩ := List.mem_map.mp hentry
      cases hshape
      rfl
  | addParameter id type mode =>
      cases hrun
      exact hconstraints
  | setReturnType id type =>
      cases hrun
      exact hconstraints
  | setDeclaringType id type =>
      cases hrun
      exact hconstraints
  | addConstraint param constraint =>
      refine hconstraints.addConstraint (fun target htarget => ?_) hrun
      subst htarget
      exact hhandles target (by simp [Operation.handles])

/-- In a reachable store the targets of constraints denote types. -/
theorem Reachable.constraintsInRange (hs : s.Reachable) : s.ConstraintsInRange := by
  induction hs with
  | ofRoot name =>
      intro type entry info target hentry hshape
      obtain ⟨rfl, rfl⟩ := entry_ofRoot hentry
      cases hshape
  | step hs hallowed hrun ih => exact ConstraintsInRange.step hs.lawful ih hallowed hrun

end NominalGenerics.Store
