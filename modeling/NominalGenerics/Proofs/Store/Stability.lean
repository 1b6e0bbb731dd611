import NominalGenerics.Proofs.Embedding
import NominalGenerics.Proofs.Store.Derivation
import NominalGenerics.Proofs.Store.Worklist

/-!
# Stability of finished stores

A finished store still grows: instantiations, arrays and callables are added, and signatures and
constraints change. As long as the walks that close types stay within their number of attempts,
every type of a finished store is closed, and then none of its types changes except in its
constraints. What is asked about the types that existed before has the same answer after any number
of operations.
-/

namespace NominalGenerics

namespace Store

/-- The attempts to visit a type that closing the pending types takes. -/
def pendingAttempts (store : Store) : Nat :=
  match (drain handleSpace).run store with
  | .ok (types, drained) => drained.closingAttempts types
  | .error _ => 0

/-- The attempts to visit a type that completing the declarations takes: in the walk over the
pending types, or in the walk over all types, whichever takes more. -/
def finishAttempts (store : Store) : Nat :=
  match close.run store.withDefaultBases with
  | .ok (_, closed) =>
      max store.withDefaultBases.pendingAttempts (closed.closingAttempts (List.range closed.size))
  | .error _ => 0

end Store

namespace Operation

/-- The attempts to visit a type that a walk of the operation makes. -/
def attempts (store : Store) (op : Operation) : Nat :=
  match op, op.prepare.run store with
  | .finish, _ => store.finishAttempts
  | _, .ok (_, start) => if op.expands store then start.pendingAttempts else 0
  | _, .error _ => 0

/-- Runs operations in order; there is no result if one is not allowed, faults or reaches the limit
on attempts. -/
def runWithinLimit : List Operation → Store → Option Store
  | [], store => some store
  | op :: rest, store =>
      if op.Allowed store ∧ op.attempts store ≤ Limits.supertypeClosure.maxIterations then
        match op.run.run store with
        | .ok (_, next) => runWithinLimit rest next
        | .error _ => none
      else
        none

/-- The first step of a run of several operations. -/
theorem runWithinLimit_cons {op : Operation} {rest : List Operation} {s s' : Store}
    (h : runWithinLimit (op :: rest) s = some s') :
    ∃ next, op.Allowed s ∧ op.attempts s ≤ Limits.supertypeClosure.maxIterations ∧
      op.run.run s = .ok ((), next) ∧ runWithinLimit rest next = some s' := by
  unfold runWithinLimit at h
  split at h
  · next hstep =>
      split at h
      · next next hnext => exact ⟨next, hstep.1, hstep.2, hnext, h⟩
      · cases h
  · cases h

end Operation

namespace Store

variable {s s' : Store}

/-- The interface set of every type has been computed. -/
def AllClosed (store : Store) : Prop := ∀ type, type < store.size → store.ClosedAt type

/-- `s'` holds the types of `s`, in the same roles, with other constraints at most. -/
structure Retains (s s' : Store) : Prop where
  entries : ∀ {type : Handle} {entry}, s.types[type]? = some entry →
    ∃ shape : Shape, s'.types[type]? = some { entry with shape } ∧ shape.bare = entry.shape.bare
  root : s'.root = s.root
  optionalWrapper : s'.optionalWrapper = s.optionalWrapper
  sequenceInterfaces : s'.sequenceInterfaces = s.sequenceInterfaces
  finished : s'.finished = s.finished

namespace Retains

theorem refl (s : Store) : Retains s s :=
  ⟨fun {_ entry} h => ⟨entry.shape, h, rfl⟩, rfl, rfl, rfl, rfl⟩

theorem trans {a b c : Store} (hab : Retains a b) (hbc : Retains b c) : Retains a c := by
  refine ⟨fun hentry => ?_, hbc.root.trans hab.root, hbc.optionalWrapper.trans hab.optionalWrapper,
    hbc.sequenceInterfaces.trans hab.sequenceInterfaces, hbc.finished.trans hab.finished⟩
  obtain ⟨shape, hb, hshape⟩ := hab.entries hentry
  obtain ⟨shape', hc, hshape'⟩ := hbc.entries hb
  exact ⟨shape', hc, hshape'.trans hshape⟩

theorem closedAt (h : Retains s s') {type : Handle} (hclosed : s.ClosedAt type) :
    s'.ClosedAt type := by
  obtain ⟨entry, hentry, hclosed⟩ := hclosed
  obtain ⟨shape, hentry', -⟩ := h.entries hentry
  exact ⟨_, hentry', hclosed⟩

/-- A store that keeps all types, and closes those that it adds, stays closed. -/
theorem allClosed (h : Retains s s') (hs : s.AllClosed)
    (hnew : ∀ type, s.size ≤ type → type < s'.size → s'.ClosedAt type) : s'.AllClosed := by
  intro type hlt
  rcases Nat.lt_or_ge type s.size with hold | hge
  · exact h.closedAt (hs type hold)
  · exact hnew type hge hlt

end Retains

/-- Growth that leaves closed types alone leaves a closed store alone. -/
theorem Later.retains (h : Later s s') (hs : s.AllClosed) : Retains s s' := by
  refine ⟨fun {type entry} hentry => ⟨entry.shape, ?_, rfl⟩, h.root, h.optionalWrapper,
    h.sequenceInterfaces, h.finished⟩
  obtain ⟨entry', hentry', hclosed⟩ := hs type (lt_of_entry hentry)
  obtain rfl : entry' = entry := Option.some.inj (hentry'.symm.trans hentry)
  exact h.closed hentry hclosed

section Steps

/-- Closing the pending types of a store closes them and all types that this adds. -/
theorem Draining.close_closes (hs : s.Draining) (hrun : close.run s = .ok ((), s'))
    (hwithin : s.pendingAttempts ≤ Limits.supertypeClosure.maxIterations) :
    ∀ type, type ∈ s.pending ∨ s.size ≤ type ∧ type < s'.size → s'.ClosedAt type := by
  obtain ⟨types, last, hdrains, hlast, -, hle, -, hmem⟩ :=
    hs.drains (within_ofStore s) (Nat.le_refl _)
  obtain ⟨types', mid, hdrain, -⟩ := run_bind_eq_ok.mp hrun
  have hfits : types.length ≤ handleSpace := by
    by_contra hlong
    rw [hdrains.run, if_neg hlong] at hdrain
    cases hdrain
  have hrange : ∀ t ∈ types, t < last.size := by
    intro t ht
    rcases (hmem t).mp ht with h | ⟨-, hlt⟩
    · exact Nat.lt_of_lt_of_le (hs.wellFormed.inRange.pending t h) hle
    · exact hlt
  have hattempts : s.pendingAttempts = last.closingAttempts types := by
    rw [pendingAttempts, hdrains.run, if_pos hfits]
  obtain ⟨_, closed, hclose, -, hclosing, hclosed⟩ :=
    close_returns hdrains hlast.wellFormed hrange hfits
  cases hclose.symm.trans hrun
  rw [hattempts] at hwithin
  intro type htype
  rw [hclosing.size] at htype
  exact hclosed hwithin type ((hmem type).mpr htype)

/-- Interning a type on a closed store closes it and all types that this adds. -/
theorem Lawful.intern_retains (hs : s.Lawful) (hclosed : s.AllClosed) (hfinished : s.finished = true)
    {mid : Store} (hgrown : Grown s mid) (hmid : mid.Coherent)
    (hrun : closeIfFinished.run mid = .ok ((), s'))
    (hwithin : mid.pendingAttempts ≤ Limits.supertypeClosure.maxIterations) :
    Retains s s' ∧ s'.AllClosed := by
  have hretains := (hs.intern hgrown hmid hrun).2.retains hclosed
  refine ⟨hretains, hretains.allClosed hclosed fun type hge hlt => ?_⟩
  obtain ⟨_, _, hget, hrun⟩ := run_bind_eq_ok.mp hrun
  cases hget
  rw [if_pos (hgrown.finished.trans hfinished)] at hrun
  refine (hs.grown_draining hgrown hmid).close_closes hrun hwithin type ?_
  obtain ⟨new, htypes, -, hpending⟩ := hgrown.types
  have hsize : mid.size = s.size + new.size := by simp [size, htypes]
  rcases Nat.lt_or_ge type mid.size with hold | hnew
  · refine Or.inl ?_
    rw [hpending, List.mem_append, List.mem_reverse, List.mem_range'_1]
    exact Or.inl ⟨hge, hsize ▸ hold⟩
  · exact Or.inr ⟨hnew, hlt⟩

/-- Completing the declarations closes every type. -/
theorem Lawful.finish_allClosed (hs : s.Lawful) (hunfinished : s.finished = false)
    (hrun : Store.finish.run s = .ok ((), s'))
    (hwithin : s.finishAttempts ≤ Limits.supertypeClosure.maxIterations) : s'.AllClosed := by
  obtain ⟨mid, last, hclose, hall, rfl⟩ := finish_run hrun
  have hattempts : mid.closingAttempts (List.range mid.size) ≤
      Limits.supertypeClosure.maxIterations := by
    rw [finishAttempts, hclose] at hwithin
    exact Nat.le_trans (Nat.le_max_right _ _) hwithin
  obtain ⟨hmid, -⟩ := close_run (hs.withDefaultBases hunfinished).draining hclose
  obtain ⟨_, last', hall', -, hclosing, hclosed⟩ :=
    closeAll_returns hmid.wellFormed fun t ht => List.mem_range.mp ht
  cases hall'.symm.trans hall
  intro type hlt
  exact hclosed hattempts type (List.mem_range.mpr (hclosing.size ▸ hlt))

theorem retains_addConstraint {param : Handle} {constraint : Constraint}
    (hrun : (addConstraint param constraint).run s = .ok ((), s')) :
    Retains s s' ∧ s'.size = s.size := by
  obtain ⟨-, rfl⟩ := modifyEntry_run hrun
  refine ⟨⟨fun {type entry} hentry => ?_, rfl, rfl, rfl, rfl⟩, by simp [size]⟩
  rw [Array.getElem?_modify, hentry]
  split
  · rw [Option.map_some]
    split
    · next info hshape => exact ⟨_, rfl, by rw [hshape]; rfl⟩
    · exact ⟨entry.shape, rfl, rfl⟩
  · exact ⟨entry.shape, rfl, rfl⟩

/-- Declaring a callable adds type parameters, which are closed from the start. -/
theorem declareCallable_retains {name : String} {typeParams : List String} {id : CallableId}
    (hrun : (declareCallable name typeParams).run s = .ok (id, s')) :
    Retains s s' ∧ ∀ (type : Handle) entry, s.size ≤ type → s'.types[type]? = some entry →
      entry.closed = true ∧ ∃ info, entry.shape = .parameter info := by
  obtain rfl := declareCallable_run hrun
  refine ⟨⟨fun {type entry} hentry => ⟨entry.shape, ?_, rfl⟩, rfl, rfl, rfl, rfl⟩,
    fun type entry hge hentry => ?_⟩
  · rw [appended_getElem?, if_pos (lt_of_entry hentry), hentry]
  · rw [appended_getElem?, if_neg (Nat.not_lt.mpr hge)] at hentry
    obtain ⟨_, -, rfl⟩ := List.mem_map.mp (List.mem_of_getElem? hentry)
    exact ⟨rfl, _, rfl⟩

theorem retains_declareCallable {name : String} {typeParams : List String} {id : CallableId}
    (hs : s.AllClosed) (hrun : (declareCallable name typeParams).run s = .ok (id, s')) :
    Retains s s' ∧ s'.AllClosed := by
  obtain ⟨hretains, hnew⟩ := declareCallable_retains hrun
  refine ⟨hretains, hretains.allClosed hs fun type hge hlt => ?_⟩
  obtain ⟨entry, hentry⟩ := entry_of_lt hlt
  exact ⟨entry, hentry, (hnew type entry hge hentry).1⟩

/-- Changing a signature changes no type. -/
theorem modifySignature_retains {id : CallableId} {change : Signature → Signature}
    (hrun : (modifySignature id change).run s = .ok ((), s')) :
    Retains s s' ∧ s'.size = s.size := by
  cases hrun
  exact ⟨⟨fun {_ entry} h => ⟨entry.shape, h, rfl⟩, rfl, rfl, rfl, rfl⟩, rfl⟩

theorem Retains.allClosed_of_size (h : Retains s s') (hs : s.AllClosed) (hsize : s'.size = s.size) :
    s'.AllClosed :=
  h.allClosed hs fun _ hge hlt => absurd (hsize ▸ hlt) (Nat.not_lt.mpr hge)

/-- What an operation on a finished and closed store does to it. -/
theorem Lawful.step_retains (hs : s.Lawful) (hclosed : s.AllClosed) (hfinished : s.finished = true)
    {op : Operation} (hallowed : op.Allowed s)
    (hwithin : op.attempts s ≤ Limits.supertypeClosure.maxIterations)
    (hrun : op.run.run s = .ok ((), s')) : Retains s s' ∧ s'.AllClosed := by
  have hdeclares : op.isDeclaration = false := by
    by_contra htrue
    have := hallowed.2 (by simpa using htrue)
    rw [hfinished] at this
    cases this
  cases op with
  | instantiate definition args =>
      obtain ⟨type, hrun⟩ := run_discard_eq_ok hrun
      obtain ⟨mid, hintern, hclose⟩ := run_instantiate_eq_ok hrun
      obtain ⟨hcoherent, hgrown, -⟩ := internInstance_run hs.wellFormed.coherent hintern
      refine hs.intern_retains hclosed hfinished hgrown hcoherent hclose ?_
      simpa [Operation.attempts, Operation.prepare, discard_run hintern, Operation.expands,
        hfinished] using hwithin
  | arrayOf element rank =>
      obtain ⟨type, hrun⟩ := run_discard_eq_ok hrun
      obtain ⟨mid, hintern, hclose⟩ := run_arrayOf_eq_ok hrun
      obtain ⟨hcoherent, hgrown, -⟩ := internArray_run hs.wellFormed.coherent hintern
      refine hs.intern_retains hclosed hfinished hgrown hcoherent hclose ?_
      simpa [Operation.attempts, Operation.prepare, discard_run hintern, Operation.expands,
        hfinished] using hwithin
  | declareCallable name typeParams =>
      obtain ⟨_, hrun⟩ := run_discard_eq_ok hrun
      exact retains_declareCallable hclosed hrun
  | addParameter id type mode =>
      obtain ⟨hretains, hsize⟩ := modifySignature_retains hrun
      exact ⟨hretains, hretains.allClosed_of_size hclosed hsize⟩
  | setReturnType id type =>
      obtain ⟨hretains, hsize⟩ := modifySignature_retains hrun
      exact ⟨hretains, hretains.allClosed_of_size hclosed hsize⟩
  | setDeclaringType id type =>
      obtain ⟨hretains, hsize⟩ := modifySignature_retains hrun
      exact ⟨hretains, hretains.allClosed_of_size hclosed hsize⟩
  | addConstraint param constraint =>
      obtain ⟨hretains, hsize⟩ := retains_addConstraint hrun
      exact ⟨hretains, hretains.allClosed_of_size hclosed hsize⟩
  | _ => cases hdeclares

end Steps

section Runs

/-- The invariant of operations within the limit: a finished store is closed. -/
structure Completed (store : Store) : Prop where
  lawful : store.Lawful
  closed : store.finished = true → store.AllClosed

theorem completed_ofRoot (name : String) : (ofRoot name).Completed :=
  ⟨Lawful.ofRoot name, fun h => by cases h⟩

theorem Completed.step (hs : s.Completed) {op : Operation} (hallowed : op.Allowed s)
    (hwithin : op.attempts s ≤ Limits.supertypeClosure.maxIterations)
    (hrun : op.run.run s = .ok ((), s')) : s'.Completed := by
  refine ⟨hs.lawful.step hallowed hrun, fun hfinished' => ?_⟩
  cases hfinished : s.finished with
  | true => exact (hs.lawful.step_retains (hs.closed hfinished) hfinished hallowed hwithin hrun).2
  | false =>
      by_cases hop : op = .finish
      · subst hop
        exact hs.lawful.finish_allClosed hfinished hrun hwithin
      · rw [finished_of_run hs.lawful hop hrun, hfinished] at hfinished'
        cases hfinished'

theorem Completed.run (hs : s.Completed) {ops : List Operation}
    (hrun : Operation.runWithinLimit ops s = some s') : s'.Completed := by
  induction ops generalizing s with
  | nil =>
      cases hrun
      exact hs
  | cons op rest ih =>
      obtain ⟨next, hallowed, hwithin, hstep, hrest⟩ := Operation.runWithinLimit_cons hrun
      exact ih (hs.step hallowed hwithin hstep) hrest

theorem Completed.retains (hs : s.Completed) (hfinished : s.finished = true) {ops : List Operation}
    (hrun : Operation.runWithinLimit ops s = some s') : Retains s s' := by
  induction ops generalizing s with
  | nil =>
      cases hrun
      exact Retains.refl _
  | cons op rest ih =>
      obtain ⟨next, hallowed, hwithin, hstep, hrest⟩ := Operation.runWithinLimit_cons hrun
      obtain ⟨hretains, -⟩ := hs.lawful.step_retains (hs.closed hfinished) hfinished hallowed
        hwithin hstep
      exact hretains.trans (ih (hs.step hallowed hwithin hstep)
        (hretains.finished.trans hfinished) hrest)

end Runs

section Answers

/-- A store is embedded as it is in one that retains its types. -/
theorem Retains.embeds (h : Retains s s') (hs : s.WellFormed) (hs' : s'.Coherent) :
    Embeds id s s' where
  wellFormed := hs
  coherent := hs'
  injective _ _ h := h
  entries hentry := by
    obtain ⟨shape, hentry', hshape⟩ := h.entries hentry
    exact ⟨_, hentry', rfl, rfl, by rw [Shape.rename_id]; exact hshape, by simp, by simp, rfl, rfl⟩
  root := h.root
  optionalWrapper _ := by rw [h.optionalWrapper]; rfl
  sequenceInterfaces _ := by rw [h.sequenceInterfaces]; rfl

theorem image_id {type : Handle} (h : type < s.size) : Image id s type type := ⟨h, rfl⟩

theorem image_id_eq {a b : Handle} (h : Image id s a b) : a = b := h.2.symm

theorem rel_image_id_eq {a b : Option Handle} (h : Option.Rel (Image id s) a b) : a = b := by
  cases h with
  | none => rfl
  | some h => rw [image_id_eq h]

theorem forall₂_image_id_eq {as bs : List Handle} (h : List.Forall₂ (Image id s) as bs) :
    as = bs := by
  rw [← List.forall₂_eq_eq_eq]
  exact h.imp fun _ _ => image_id_eq

theorem rel_pair_image_id_eq {a b : Option (Handle × Nat)}
    (h : Option.Rel (fun p q => Image id s p.1 q.1 ∧ p.2 = q.2) a b) : a = b := by
  cases h with
  | none => rfl
  | some h => rw [Prod.ext (image_id_eq h.1) h.2]

theorem implementationImage_id_eq {found found' : Implementation}
    (h : Embeds.ImplementationImage id s found found') : found = found' := by
  cases h with
  | found h => rw [image_id_eq h]
  | ambiguous h => rw [forall₂_image_id_eq h]
  | notFound => rfl

theorem Retains.names (h : Retains s s') : Names s s' := by
  intro type entry hentry
  obtain ⟨shape, hentry', hshape⟩ := h.entries hentry
  exact ⟨_, hentry', rfl, by simp only [Entry.form, hshape]⟩

end Answers

/-- A finished store is stable under growth. Whatever operations follow, as long as no walk reaches
the limit on attempts: nothing is pending and every type is closed, the types that existed before
keep their names, flags, supertypes and parts, names are found where they were, and assignability
and the search for an implementation answer as before. -/
theorem finished_stable {name : String} {building later : List Operation}
    (hbuild : Operation.runWithinLimit building (ofRoot name) = some s) (hfinished : s.finished = true)
    (hlater : Operation.runWithinLimit later s = some s') :
    s'.pending = [] ∧ (∀ type, type < s'.size → s'.ClosedAt type) ∧
      (∀ type, type < s.size → s'.typeName type = s.typeName type ∧
        s'.flags type = s.flags type ∧ s'.base? type = s.base? type ∧
        s'.interfaces type = s.interfaces type ∧ s'.definition? type = s.definition? type ∧
        s'.arguments type = s.arguments type ∧ s'.array? type = s.array? type) ∧
      (∀ text type, s.lookup? text = some type → s'.lookup? text = some type) ∧
      ∀ source target, source < s.size → target < s.size →
        s'.isAssignable source target = s.isAssignable source target ∧
          s'.findImplementation source target = s.findImplementation source target := by
  have hs : s.Completed := (completed_ofRoot name).run hbuild
  have hs' : s'.Completed := hs.run hlater
  have hretains := hs.retains hfinished hlater
  have hfinished' : s'.finished = true := hretains.finished.trans hfinished
  have hembeds := hretains.embeds hs.lawful.wellFormed hs'.lawful.wellFormed.coherent
  refine ⟨(hs'.lawful.finished hfinished').1, hs'.closed hfinished', fun type hlt => ?_,
    fun _ _ => hretains.names.lookup?, fun source target hsource htarget => ?_⟩
  · have himage := image_id hlt
    exact ⟨(hembeds.typeName himage).eq.symm, (hembeds.flags himage).eq.symm,
      ((hembeds.base? himage).eq_of fun _ _ => rel_image_id_eq).symm,
      ((hembeds.interfaces himage).eq_of fun _ _ => forall₂_image_id_eq).symm,
      ((hembeds.definition? himage).eq_of fun _ _ => rel_image_id_eq).symm,
      ((hembeds.arguments himage).eq_of fun _ _ => forall₂_image_id_eq).symm,
      ((hembeds.array? himage).eq_of fun _ _ => rel_pair_image_id_eq).symm⟩
  · have hfirst := image_id hsource
    have hsecond := image_id htarget
    exact ⟨(hembeds.isAssignable hfirst hsecond).eq.symm,
      ((hembeds.findImplementation hfirst hsecond).eq_of fun _ _ =>
        implementationImage_id_eq).symm⟩

/-- A covariant source, a class that implements it at its parameter, and two classes of which one
extends the other. -/
def sourceOperations : List Operation :=
  [.declareGeneric .interfaceType "ISource" [("T", .covariant)],
    .declareGeneric .classType "Store" [("T", .invariant)],
    .instantiate 1 [4],
    .addInterface 3 5,
    .declare .classType "Animal",
    .declare .classType "Dog",
    .setBase 7 6,
    .instantiate 3 [7],
    .instantiate 1 [6],
    .finish]

/-- An array, an instantiation of it and a callable whose parameter is constrained. -/
def laterOperations : List Operation :=
  [.arrayOf 7 1,
    .instantiate 3 [11],
    .declareCallable "Make" ["U"],
    .addConstraint 14 (.base 9),
    .addParameter 0 14 .byValue,
    .setReturnType 0 8]

/-- The store that `sourceOperations` build. -/
def sourceStore : Store :=
  (Operation.runWithinLimit sourceOperations (ofRoot "object")).getD {}

/-- The store after `laterOperations`. -/
def laterStore : Store := (Operation.runWithinLimit laterOperations sourceStore).getD {}

/-- A store of dogs is a source of animals, and has the source of dogs as its interface, before and
after further types and a callable are added. -/
theorem finished_stable_source :
    laterStore.pending = [] ∧ sourceStore.size < laterStore.size ∧
      laterStore.isAssignable 8 9 = .ok true ∧ laterStore.interfaces 8 = .ok [10] ∧
      laterStore.lookup? "ISource<Dog>" = some 10 := by
  have hbuild : Operation.runWithinLimit sourceOperations (ofRoot "object") = some sourceStore := by
    decide +kernel
  have hlater : Operation.runWithinLimit laterOperations sourceStore = some laterStore := by
    decide +kernel
  obtain ⟨hpending, -, hqueries, hlookup, hanswers⟩ :=
    finished_stable hbuild (by decide +kernel) hlater
  obtain ⟨-, -, -, hinterfaces, -⟩ := hqueries 8 (by decide +kernel)
  obtain ⟨hassignable, -⟩ := hanswers 8 9 (by decide +kernel) (by decide +kernel)
  refine ⟨hpending, by decide +kernel, ?_, ?_, hlookup _ _ (by decide +kernel)⟩
  · rw [hassignable]
    decide +kernel
  · rw [hinterfaces]
    decide +kernel

end Store

end NominalGenerics
