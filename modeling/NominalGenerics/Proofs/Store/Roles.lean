import NominalGenerics.Proofs.Store.Derivation

/-!
# Roles and integral types

The wrapper of optional values, the sequence interfaces and the integral types under enums are given
by handles that exist, and only declarations set them. So in every reachable store they denote
types.
-/

namespace NominalGenerics.Store

variable {s s' : Store}

/-- The types in a special role and the integral types under enums are types of the store. -/
structure RolesInRange (store : Store) : Prop where
  optionalWrapper : ∀ definition, store.optionalWrapper = some definition → definition < store.size
  sequenceInterfaces : ∀ definition ∈ store.sequenceInterfaces, definition < store.size
  underlying : ∀ {type : Handle} {entry}, store.types[type]? = some entry →
    ∀ integral, entry.underlying = some integral → integral < store.size

/-- `s'` has the integral types of `s`, and no more. -/
structure SameUnderlying (s s' : Store) : Prop where
  size : s.size ≤ s'.size
  underlying : ∀ {type : Handle} {entry'}, s'.types[type]? = some entry' →
    entry'.underlying = none ∨
      ∃ entry, s.types[type]? = some entry ∧ entry'.underlying = entry.underlying

namespace SameUnderlying

theorem of_types (h : s'.types = s.types) : SameUnderlying s s' :=
  ⟨by simp [Store.size, h], fun hentry => Or.inr ⟨_, h ▸ hentry, rfl⟩⟩

theorem of_appended {new : List Entry} {callables : Array Signature}
    (hnew : ∀ entry ∈ new, entry.underlying = none) :
    SameUnderlying s (s.appended new callables) := by
  refine ⟨by rw [size_appended]; exact Nat.le_add_right _ _, fun {type entry'} hentry => ?_⟩
  rw [appended_getElem?] at hentry
  split at hentry
  · exact Or.inr ⟨entry', hentry, rfl⟩
  · exact Or.inl (hnew entry' (List.mem_of_getElem? hentry))

theorem of_modifyEntry {type : Handle} {change : Entry → Entry} {u : Unit}
    (hrun : (modifyEntry type change).run s = .ok (u, s'))
    (hchange : ∀ entry, (change entry).underlying = entry.underlying) : SameUnderlying s s' := by
  obtain ⟨-, rfl⟩ := modifyEntry_run hrun
  refine ⟨by simp [Store.size], fun hentry => Or.inr ?_⟩
  rcases modify_getElem? hentry with ⟨rfl, old, hold, rfl⟩ | ⟨-, hold⟩
  · exact ⟨old, hold, hchange old⟩
  · exact ⟨_, hold, rfl⟩

/-- Interning and computing record no integral types. -/
theorem robust (s : Store) : Robust (SameUnderlying s) := by
  refine ⟨fun {t t' entry} ht hfresh _ htypes => ?_, fun {t t'} ht hcomputes hsize => ?_⟩
  · refine ⟨Nat.le_trans ht.size (by simp [Store.size, htypes]), fun {type entry'} hentry' => ?_⟩
    rw [htypes, Array.getElem?_push] at hentry'
    split at hentry'
    · cases hentry'
      exact Or.inl hfresh.underlying
    · exact ht.underlying hentry'
  · refine ⟨hsize ▸ ht.size, fun {type entry'} hentry' => ?_⟩
    obtain ⟨entry, hentry⟩ : ∃ entry, t.types[type]? = some entry :=
      entry_of_lt (hsize ▸ lt_of_entry hentry')
    obtain ⟨found, hfound, hcomputed⟩ := hcomputes type entry hentry
    obtain rfl : found = entry' := Option.some.inj (hfound.symm.trans hentry')
    rw [hcomputed.underlying]
    exact ht.underlying hentry

theorem rolesInRange (h : SameUnderlying s s') (hs : s.RolesInRange)
    (hwrapper : s'.optionalWrapper = s.optionalWrapper)
    (hsequences : s'.sequenceInterfaces = s.sequenceInterfaces) : s'.RolesInRange := by
  refine ⟨fun definition hd => ?_, fun definition hd => ?_, fun hentry integral hintegral => ?_⟩
  · exact Nat.lt_of_lt_of_le (hs.optionalWrapper definition (hwrapper ▸ hd)) h.size
  · exact Nat.lt_of_lt_of_le (hs.sequenceInterfaces definition (hsequences ▸ hd)) h.size
  · rcases h.underlying hentry with hnone | ⟨entry, hold, heq⟩
    · rw [hnone] at hintegral
      cases hintegral
    · exact Nat.lt_of_lt_of_le (hs.underlying hold integral (heq ▸ hintegral)) h.size

end SameUnderlying

theorem RolesInRange.of_types (hs : s.RolesInRange) (htypes : s'.types = s.types)
    (hwrapper : s'.optionalWrapper = s.optionalWrapper)
    (hsequences : s'.sequenceInterfaces = s.sequenceInterfaces) : s'.RolesInRange :=
  (SameUnderlying.of_types htypes).rolesInRange hs hwrapper hsequences

/-- Completing the declarations changes no role. -/
theorem Lawful.finish_roles (hs : s.Lawful) (hunfinished : s.finished = false)
    (hrun : Store.finish.run s = .ok ((), s')) :
    s'.optionalWrapper = s.optionalWrapper ∧ s'.sequenceInterfaces = s.sequenceInterfaces := by
  obtain ⟨mid, last, hclose, hall, rfl⟩ := finish_run hrun
  obtain ⟨hmid, -, hlater, -⟩ := close_run (hs.withDefaultBases hunfinished).draining hclose
  obtain ⟨-, hclosing, -⟩ := closeAll_run hmid.wellFormed hall
  exact ⟨hclosing.later.optionalWrapper.trans hlater.optionalWrapper,
    hclosing.later.sequenceInterfaces.trans hlater.sequenceInterfaces⟩

theorem RolesInRange.step (hs : s.Lawful) (hroles : s.RolesInRange) {op : Operation}
    (hallowed : op.Allowed s) (hrun : op.run.run s = .ok ((), s')) : s'.RolesInRange := by
  have hmodify : ∀ {type change}, (modifyEntry type change).run s = .ok ((), s') →
      (∀ entry, (change entry).underlying = entry.underlying) → s'.RolesInRange := by
    intro type change hrun hchange
    refine (SameUnderlying.of_modifyEntry hrun hchange).rolesInRange hroles ?_ ?_
    all_goals
      obtain ⟨-, rfl⟩ := modifyEntry_run hrun
      rfl
  have hpush : ∀ {entry : Entry}, entry.underlying = none →
      (s.appended [entry] s.callables).RolesInRange := by
    intro entry hnone
    refine SameUnderlying.rolesInRange (.of_appended fun other hother => ?_) hroles rfl rfl
    rwa [List.mem_singleton.mp hother]
  cases op with
  | declare kind name => cases hrun; exact hpush rfl
  | declareGeneric kind name params =>
      obtain ⟨_, hrun⟩ := run_discard_eq_ok hrun
      rw [declareGeneric_run hrun]
      refine SameUnderlying.rolesInRange (.of_appended fun entry hentry => ?_) hroles rfl rfl
      rcases List.mem_cons.mp hentry with rfl | hentry
      · rfl
      · obtain ⟨_, -, rfl⟩ := List.mem_map.mp hentry
        rfl
  | declarePrimitive name kind => cases hrun; exact hpush rfl
  | declareEnum name underlying =>
      cases hrun
      have hlt : underlying < s.size := hallowed.1 underlying (by simp [Operation.handles])
      refine ⟨fun definition hd => ?_, fun definition hd => ?_,
        fun {type entry} hentry integral hi => ?_⟩
      · exact Nat.lt_of_lt_of_le (hroles.optionalWrapper definition hd) (by simp [Store.size])
      · exact Nat.lt_of_lt_of_le (hroles.sequenceInterfaces definition hd) (by simp [Store.size])
      · refine Nat.lt_of_lt_of_le (?_ : integral < s.size) (by simp [Store.size])
        rw [Array.getElem?_push] at hentry
        split at hentry
        · cases hentry
          cases hi
          exact hlt
        · exact hroles.underlying hentry integral hi
  | declarePointer name => cases hrun; exact hpush rfl
  | setBase type base => exact hmodify hrun fun _ => rfl
  | addInterface type interface => exact hmodify hrun fun _ => rfl
  | addFlags type flags => exact hmodify hrun fun _ => rfl
  | removeFlags type flags => exact hmodify hrun fun _ => rfl
  | setValueTypeRoot type => cases hrun; exact hroles.of_types rfl rfl rfl
  | setArrayRoot type => cases hrun; exact hroles.of_types rfl rfl rfl
  | setOptionalWrapper definition =>
      cases hrun
      refine ⟨fun other hother => ?_, hroles.sequenceInterfaces, hroles.underlying⟩
      cases hother
      exact hallowed.1 definition (by simp [Operation.handles])
  | addSequenceInterface definition =>
      cases hrun
      refine ⟨hroles.optionalWrapper, fun other hother => ?_, hroles.underlying⟩
      rcases List.mem_cons.mp hother with rfl | hother
      · exact hallowed.1 other (by simp [Operation.handles])
      · exact hroles.sequenceInterfaces other hother
  | finish =>
      obtain ⟨hwrapper, hsequences⟩ := hs.finish_roles (hallowed.2 rfl) hrun
      exact ((SameUnderlying.robust s).finish (.of_types rfl) hs (hallowed.2 rfl) _ _
        hrun).rolesInRange hroles hwrapper hsequences
  | instantiate definition args =>
      have hlater := (hs.later_of_interns rfl hrun).2
      exact ((SameUnderlying.robust s).interning (.of_types rfl) hs rfl hrun).rolesInRange hroles
        hlater.optionalWrapper hlater.sequenceInterfaces
  | arrayOf element rank =>
      have hlater := (hs.later_of_interns rfl hrun).2
      exact ((SameUnderlying.robust s).interning (.of_types rfl) hs rfl hrun).rolesInRange hroles
        hlater.optionalWrapper hlater.sequenceInterfaces
  | declareCallable name typeParams =>
      obtain ⟨_, hrun⟩ := run_discard_eq_ok hrun
      rw [declareCallable_run hrun]
      refine SameUnderlying.rolesInRange (.of_appended fun entry hentry => ?_) hroles rfl rfl
      obtain ⟨_, -, rfl⟩ := List.mem_map.mp hentry
      rfl
  | addParameter id type mode =>
      cases hrun
      exact hroles.of_types rfl rfl rfl
  | setReturnType id type =>
      cases hrun
      exact hroles.of_types rfl rfl rfl
  | setDeclaringType id type =>
      cases hrun
      exact hroles.of_types rfl rfl rfl
  | addConstraint param constraint =>
      refine hmodify hrun fun entry => ?_
      split
      · rfl
      · rfl

/-- In a reachable store the types in a special role and the integral types under enums exist. -/
theorem Reachable.rolesInRange (hs : s.Reachable) : s.RolesInRange := by
  induction hs with
  | ofRoot name =>
      refine ⟨(fun _ h => nomatch h), (fun _ h => nomatch h),
        fun {type entry} hentry _ hintegral => ?_⟩
      obtain ⟨rfl, rfl⟩ := entry_ofRoot hentry
      cases hintegral
  | step hs hallowed hrun ih => exact ih.step hs.lawful hallowed hrun

end NominalGenerics.Store
