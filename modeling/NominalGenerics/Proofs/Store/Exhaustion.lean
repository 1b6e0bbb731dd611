import NominalGenerics.Proofs.Store.InterfaceSets

/-!
# Exhausted closing walks

A closing walk may try a limited number of types. When the attempts are used up, it refuses every
further type, which stays as it is. Where direct supertypes come before the types that declare them,
closing all types in the order of their handles takes one attempt for each type. So completing the
declarations of a store with too many types closes the first of them, as many as there are attempts,
and leaves the rest without interface sets.

Interning goes on, and with it closing. An array interned later has the root of arrays closed, if
that was left out.
-/

namespace NominalGenerics.Store

variable {s s' : Store} {g g₁ g' : Guard Handle} {type : Handle} {entry : Entry}

section Steps

variable {close : Handle → ClosureM Unit}

/-- The store with an interface set computed. -/
def sealed (s : Store) (type : Handle) (interfaces : List Handle) : Store :=
  { s with types := s.types.modify type fun entry => { entry with interfaces, closed := true } }

/-- A closed type is passed by. -/
theorem closeStep_closed (hentry : s.types[type]? = some entry) (hclosed : entry.closed = true) :
    ((closeStep close type).run g).run s = .ok (((), g), s) := by
  refine run_run_bind_eq_ok.mpr ⟨s, g, s, rfl, run_run_bind_eq_ok.mpr ⟨entry, g, s, ?_, ?_⟩⟩
  · exact run_run_query_eq_ok.mpr ⟨entry_eq_ok.mpr hentry, rfl, rfl⟩
  · rw [if_pos hclosed]
    rfl

theorem closeInterfaces_closed (depth : Nat) (hclosed : s.ClosedAt type) :
    ((closeInterfaces depth type).run g).run s = .ok (((), g), s) := by
  obtain ⟨entry, hentry, hclosed⟩ := hclosed
  cases depth with
  | zero => exact closeStep_closed hentry hclosed
  | succ depth => exact closeStep_closed hentry hclosed

/-- A refusal for a limit changes nothing. -/
theorem closeStep_refused {admission : Admission} (hentry : s.types[type]? = some entry)
    (hopen : entry.closed = false) (henter : g.enter type = (admission, g₁))
    (hrefused : admission.isExceeded = true) :
    ((closeStep close type).run g).run s = .ok (((), g₁), s) := by
  refine run_run_bind_eq_ok.mpr ⟨s, g, s, rfl, run_run_bind_eq_ok.mpr ⟨entry, g, s, ?_, ?_⟩⟩
  · exact run_run_query_eq_ok.mpr ⟨entry_eq_ok.mpr hentry, rfl, rfl⟩
  rw [if_neg (by simp [hopen])]
  refine run_run_bind_eq_ok.mpr ⟨admission, g₁, s, run_run_enter_eq_ok.mpr ⟨henter, rfl⟩, ?_⟩
  cases admission with
  | entered => cases hrefused
  | cycle => cases hrefused
  | depthExceeded => rfl
  | iterationExceeded => rfl

/-- What a walk passes by, it reads. -/
theorem inherit_passed {α : Type} (hpassed : ((close type).run g).run s = .ok (((), g), s))
    (hlt : type < s.size) (f : List Handle → ClosureM α) {result : (α × Guard Handle) × Store}
    (hf : ((f (s.interfaceSet type)).run g).run s = .ok result) :
    ((do
      close type
      let inherited ← (← getThe Store).interfaces type
      f inherited : ClosureM α).run g).run s = .ok result := by
  obtain ⟨⟨a, g'⟩, s'⟩ := result
  refine run_run_bind_eq_ok.mpr ⟨(), g, s, hpassed, run_run_bind_eq_ok.mpr ⟨s, g, s, rfl, ?_⟩⟩
  exact run_run_bind_eq_ok.mpr ⟨s.interfaceSet type, g, s,
    run_run_query_eq_ok.mpr ⟨interfaces_eq_interfaceSet hlt, rfl, rfl⟩, hf⟩

theorem closeDirect_passed {types : List Handle}
    (hpassed : ∀ t ∈ types, t < s.size ∧ ((close t).run g).run s = .ok (((), g), s))
    (all : List Handle) :
    ((types.foldlM
      (fun all interface => do
        close interface
        let inherited ← (← getThe Store).interfaces interface
        return inherited.foldl appendNew (appendNew all interface))
      all : ClosureM (List Handle)).run g).run s = .ok ((s.gatherDirect all types, g), s) := by
  induction types generalizing all with
  | nil => rfl
  | cons t types ih =>
      obtain ⟨⟨hlt, hfirst⟩, hrest⟩ := List.forall_mem_cons.mp hpassed
      rw [List.foldlM_cons]
      exact run_run_bind_eq_ok.mpr ⟨_, g, s, inherit_passed hfirst hlt _ rfl, ih hrest _⟩

/-- Closing a type whose supertypes are passed by stores what it gathers from them. -/
theorem closeStep_passed (hentry : s.types[type]? = some entry) (hopen : entry.closed = false)
    (henter : g.enter type = (.entered, g₁)) (hleave : g₁.leave type = .ok g')
    (hpassed : ∀ t, entry.base = some t ∨ t ∈ entry.directInterfaces →
      t < s.size ∧ ((close t).run g₁).run s = .ok (((), g₁), s)) :
    ((closeStep close type).run g).run s = .ok (((), g'), s.sealed type (s.gather entry)) := by
  have hseal : ((do
      liftM <| modifyEntry type fun e => { e with interfaces := s.gather entry, closed := true }
      set (← (← getThe (Guard Handle)).leave type) : ClosureM Unit).run g₁).run s =
        .ok (((), g'), s.sealed type (s.gather entry)) := by
    have hmodify : (modifyEntry type fun e =>
        { e with interfaces := s.gather entry, closed := true }).run s =
          .ok ((), s.sealed type (s.gather entry)) :=
      run_bind_eq_ok.mpr ⟨s, s, rfl, run_bind_eq_ok.mpr ⟨(), s, discard_run
        (run_lift_eq_ok.mpr ⟨entry_eq_ok.mpr hentry, rfl⟩), rfl⟩⟩
    refine run_run_bind_eq_ok.mpr ⟨(), g₁, _, run_run_lift_eq_ok.mpr ⟨hmodify, rfl⟩, ?_⟩
    refine run_run_bind_eq_ok.mpr ⟨g₁, g₁, _, rfl, run_run_bind_eq_ok.mpr ⟨g', g₁, _, ?_, rfl⟩⟩
    exact run_run_query_eq_ok.mpr ⟨hleave, rfl, rfl⟩
  refine run_run_bind_eq_ok.mpr ⟨s, g, s, rfl, run_run_bind_eq_ok.mpr ⟨entry, g, s, ?_, ?_⟩⟩
  · exact run_run_query_eq_ok.mpr ⟨entry_eq_ok.mpr hentry, rfl, rfl⟩
  rw [if_neg (by simp [hopen])]
  refine run_run_bind_eq_ok.mpr ⟨.entered, g₁, s, run_run_enter_eq_ok.mpr ⟨henter, rfl⟩, ?_⟩
  refine run_run_bind_eq_ok.mpr ⟨_, g₁, s,
    closeDirect_passed (fun t ht => hpassed t (Or.inr ht)) [], ?_⟩
  dsimp only
  split
  · next base hbase =>
      obtain ⟨hlt, hclose⟩ := hpassed base (Or.inl hbase)
      have hgather : s.gather entry = (s.interfaceSet base).foldl appendNew
          (s.gatherDirect [] entry.directInterfaces) := by
        rw [gather, hbase]
        rfl
      rw [hgather] at hseal ⊢
      exact inherit_passed hclose hlt _ hseal
  · next hbase =>
      have hgather : s.gather entry = s.gatherDirect [] entry.directInterfaces := by
        rw [gather, hbase]
        rfl
      rw [hgather] at hseal ⊢
      exact hseal

end Steps

section Walks

/-- The attempts of the guard are used up. -/
def UsedUp (g : Guard Handle) : Prop :=
  g.limits = Limits.supertypeClosure ∧ Limits.supertypeClosure.maxIterations ≤ g.iterations

theorem closeInterfaces_usedUp (hg : UsedUp g) (hentry : s.types[type]? = some entry)
    (hopen : entry.closed = false) (depth : Nat) :
    ((closeInterfaces depth type).run g).run s = .ok (((), { g with
      iterations := min (g.iterations + 1) Guard.iterationCeiling, exceeded := true }), s) := by
  have hceiling : g.limits.maxIterations < Guard.iterationCeiling := by
    rw [hg.1]
    decide
  have henter := Guard.enter_usedUp type (hg.1 ▸ hg.2) hceiling
  cases depth with
  | zero => exact closeStep_refused hentry hopen henter rfl
  | succ depth => exact closeStep_refused hentry hopen henter rfl

/-- A walk whose attempts are used up changes nothing. -/
theorem forM_usedUp {types : List Handle} (htypes : ∀ t ∈ types, t < s.size) (hg : UsedUp g)
    (depth : Nat) : ∃ g', ((types.forM (closeInterfaces depth)).run g).run s = .ok (((), g'), s) ∧
      g'.visiting = g.visiting := by
  induction types generalizing g with
  | nil => exact ⟨g, rfl, rfl⟩
  | cons t types ih =>
      obtain ⟨hlt, hrest⟩ := List.forall_mem_cons.mp htypes
      obtain ⟨entry, hentry⟩ := entry_of_lt hlt
      have hfirst : ∃ g₁, ((closeInterfaces depth t).run g).run s = .ok (((), g₁), s) ∧
          UsedUp g₁ ∧ g₁.visiting = g.visiting := by
        cases hclosed : entry.closed with
        | true => exact ⟨g, closeInterfaces_closed depth ⟨entry, hentry, hclosed⟩, hg, rfl⟩
        | false =>
            have hceiling : Limits.supertypeClosure.maxIterations ≤ Guard.iterationCeiling := by
              decide
            exact ⟨_, closeInterfaces_usedUp hg hentry hclosed depth,
              ⟨hg.1, le_min (hg.2.trans (Nat.le_succ _)) hceiling⟩, rfl⟩
      obtain ⟨g₁, hrun, hg₁, hvisiting⟩ := hfirst
      obtain ⟨g', hrun', hvisiting'⟩ := ih hrest hg₁
      exact ⟨g', run_run_bind_eq_ok.mpr ⟨(), g₁, s, hrun, hrun'⟩, hvisiting'.trans hvisiting⟩

/-- Direct supertypes come before the types that declare them. -/
def Descending (store : Store) : Prop :=
  ∀ (type : Handle) entry, store.types[type]? = some entry →
    ∀ super, entry.base = some super ∨ super ∈ entry.directInterfaces → super < type

/-- Where a walk over the types of `start` stands that has closed exactly the first `count`. -/
structure HasClosed (start : Store) (count : Nat) (g : Guard Handle) (s : Store) : Prop where
  limits : g.limits = Limits.supertypeClosure
  visiting : g.visiting = []
  depth : g.depth = 0
  iterations : g.iterations = count
  closed : ∀ type, type < count → s.ClosedAt type
  later : ∀ type, count ≤ type → s.types[type]? = start.types[type]?

theorem sealed_getElem? (s : Store) (type : Handle) (interfaces : List Handle) (other : Handle) :
    (s.sealed type interfaces).types[other]? = if type = other then
      (s.types[other]?).map fun entry => { entry with interfaces, closed := true }
    else s.types[other]? := by
  rw [sealed, Array.getElem?_modify]

theorem sealed_closedAt (hlt : type < s.size) (interfaces : List Handle) :
    (s.sealed type interfaces).ClosedAt type := by
  obtain ⟨entry, hentry⟩ := entry_of_lt hlt
  refine ⟨{ entry with interfaces, closed := true }, ?_, rfl⟩
  rw [sealed_getElem?, if_pos rfl, hentry]
  rfl

theorem sealed_getElem?_ne {other : Handle} (hne : type ≠ other) (interfaces : List Handle) :
    (s.sealed type interfaces).types[other]? = s.types[other]? := by
  rw [sealed_getElem?, if_neg hne]

/-- The next type is closed, which takes one attempt. -/
theorem HasClosed.step {start : Store} {count : Nat} (h : HasClosed start count g s)
    (hstart : start.Descending) (hentry : start.types[count]? = some entry)
    (hopen : entry.closed = false)
    (hroom : count < Limits.supertypeClosure.maxIterations) (depth : Nat) :
    ∃ g' s', ((closeInterfaces depth.succ count).run g).run s = .ok (((), g'), s') ∧
      HasClosed start (count + 1) g' s' := by
  have hhere : s.types[count]? = some entry := (h.later count (Nat.le_refl _)).trans hentry
  have hattempts : g.iterations < g.limits.maxIterations := by rwa [h.limits, h.iterations]
  have henter := Guard.enter_idle count h.visiting h.depth hattempts
    (by rw [h.limits]; decide) (by rw [h.limits]; decide)
  have hpassed : ∀ {g₁ : Guard Handle} t, entry.base = some t ∨ t ∈ entry.directInterfaces →
      t < s.size ∧ ((closeInterfaces depth t).run g₁).run s = .ok (((), g₁), s) := by
    intro g₁ t ht
    have hclosed := h.closed t (hstart count entry hentry t ht)
    obtain ⟨below, hbelow, -⟩ := id hclosed
    exact ⟨lt_of_entry hbelow, closeInterfaces_closed depth hclosed⟩
  refine ⟨_, _, closeStep_passed hhere hopen henter (Guard.leave_head rfl) hpassed, h.limits, rfl,
    rfl, congrArg (· + 1) h.iterations, fun other hlt => ?_, fun other hge => ?_⟩
  · rcases Nat.lt_succ_iff_lt_or_eq.mp hlt with hbelow | rfl
    · obtain ⟨below, hother, hclosed⟩ := h.closed other hbelow
      exact ⟨below, (sealed_getElem?_ne (Nat.ne_of_gt hbelow) _).trans hother, hclosed⟩
    · exact sealed_closedAt (lt_of_entry hhere) _
  · exact (sealed_getElem?_ne (Nat.ne_of_lt hge) _).trans (h.later other (Nat.le_of_succ_le hge))

/-- As many types as there are attempts left are closed one after the other. -/
theorem HasClosed.run {start : Store} {count n : Nat} (h : HasClosed start count g s)
    (hstart : start.Descending)
    (hopen : ∀ (type : Handle) entry, start.types[type]? = some entry → entry.closed = false)
    (hsize : count + n ≤ start.size)
    (hroom : count + n ≤ Limits.supertypeClosure.maxIterations) (depth : Nat) :
    ∃ g' s', (((List.range' count n).forM (closeInterfaces depth.succ)).run g).run s =
        .ok (((), g'), s') ∧ HasClosed start (count + n) g' s' := by
  induction n generalizing count g s with
  | zero => exact ⟨g, s, rfl, h⟩
  | succ n ih =>
      have hcount : count < start.size := by omega
      obtain ⟨entry, hentry⟩ := entry_of_lt hcount
      obtain ⟨g₁, s₁, hfirst, h₁⟩ :=
        h.step hstart hentry (hopen count entry hentry) (by omega) depth
      obtain ⟨g', s', hrest, h'⟩ := ih h₁ (by omega) (by omega)
      refine ⟨g', s', run_run_bind_eq_ok.mpr ⟨(), g₁, s₁, hfirst, hrest⟩, ?_⟩
      rwa [show count + (n + 1) = count + 1 + n by omega]

/-- Closing all types of a store that has more than there are attempts closes the first of them, as
many as there are attempts, and leaves the others alone. -/
theorem closeAll_exhausts (hs : s.Descending)
    (hopen : ∀ (type : Handle) entry, s.types[type]? = some entry → entry.closed = false)
    (hmany : Limits.supertypeClosure.maxIterations ≤ s.size) :
    ∃ s', (closeAll (List.range s.size)).run s = .ok ((), s') ∧
      (∀ type, type < Limits.supertypeClosure.maxIterations → s'.ClosedAt type) ∧
      ∀ type, Limits.supertypeClosure.maxIterations ≤ type → s'.types[type]? = s.types[type]? := by
  obtain ⟨more, hmore⟩ := Nat.exists_eq_add_of_le hmany
  have hbegin : HasClosed s 0 (Guard.ofLimits Limits.supertypeClosure) s :=
    ⟨rfl, rfl, rfl, rfl, fun _ hlt => absurd hlt (Nat.not_lt_zero _), fun _ _ => rfl⟩
  obtain ⟨g₁, s₁, hfirst, h₁⟩ := hbegin.run hs hopen
    (by rw [Nat.zero_add]; exact hmany) (Nat.zero_add _).le (Limits.supertypeClosure.maxDepth - 1)
  rw [Nat.zero_add] at h₁
  have hlater : ∀ t ∈ List.range' Limits.supertypeClosure.maxIterations more, t < s₁.size := by
    intro t ht
    obtain ⟨hge, hlt⟩ := List.mem_range'_1.mp ht
    obtain ⟨entry, hentry⟩ := entry_of_lt (hlt.trans_eq hmore.symm)
    exact lt_of_entry ((h₁.later t hge).trans hentry)
  obtain ⟨g', hrest, hvisiting⟩ :=
    forM_usedUp hlater ⟨h₁.limits, h₁.iterations.ge⟩ Limits.supertypeClosure.maxDepth
  refine ⟨s₁, ?_, h₁.closed, h₁.later⟩
  refine run_bind_eq_ok.mpr ⟨((), g'), s₁, ?_, run_lift_eq_ok.mpr ⟨?_, rfl⟩⟩
  · have hrange : List.range s.size = List.range' 0 Limits.supertypeClosure.maxIterations ++
        List.range' Limits.supertypeClosure.maxIterations more := by
      rw [List.range_eq_range', hmore, ← List.range'_append_1, Nat.zero_add]
    rw [hrange, List.forM_eq_forM, List.forM_append]
    exact run_run_bind_eq_ok.mpr ⟨(), g₁, s₁, hfirst, hrest⟩
  · simp [Guard.release, hvisiting, h₁.visiting]

end Walks

section Stores

/-- Closing no type ends at once. -/
theorem closeAll_nil (s : Store) : (closeAll []).run s = .ok ((), s) := rfl

/-- Completing the declarations of a store with more types than there are attempts leaves the later
ones without interface sets. -/
theorem Lawful.finish_exhausts (hs : s.Lawful) (hunfinished : s.finished = false)
    (hpending : s.pending = []) (hdescending : s.withDefaultBases.Descending)
    (hopen : ∀ (type : Handle) entry, s.types[type]? = some entry → entry.closed = false)
    (hmany : Limits.supertypeClosure.maxIterations ≤ s.size) :
    ∃ last, Store.finish.run s = .ok ((), { last with finished := true }) ∧
      Closing [] s.withDefaultBases last ∧
      (∀ type, type < Limits.supertypeClosure.maxIterations → last.ClosedAt type) ∧
      ∀ type, Limits.supertypeClosure.maxIterations ≤ type →
        last.types[type]? = s.withDefaultBases.types[type]? := by
  have hsize : s.withDefaultBases.size = s.size := Array.size_mapIdx
  obtain ⟨last, hall, hclosed, hlater⟩ := closeAll_exhausts hdescending
    (fun type entry hentry => by
      obtain ⟨old, hold, rfl⟩ := entry_withDefaultBases hentry
      exact hopen type old hold)
    (hsize.symm ▸ hmany)
  have hclose : close.run s.withDefaultBases = .ok ((), s.withDefaultBases) := by
    refine run_bind_eq_ok.mpr ⟨[], s.withDefaultBases, ?_, closeAll_nil _⟩
    have hdrains : Drains s.withDefaultBases [] s.withDefaultBases := drains_nil hpending
    rw [hdrains.run, List.length_nil, if_pos (Nat.zero_le _)]
  refine ⟨last, ?_, ?_, hclosed, hlater⟩
  · refine run_bind_eq_ok.mpr ⟨(), s.withDefaultBases, rfl, ?_⟩
    refine run_bind_eq_ok.mpr ⟨(), s.withDefaultBases, hclose, ?_⟩
    refine run_bind_eq_ok.mpr ⟨s.withDefaultBases, s.withDefaultBases, rfl, ?_⟩
    exact run_bind_eq_ok.mpr ⟨(), last, hall, rfl⟩
  · exact (closeAll_run (hs.withDefaultBases hunfinished).wellFormed hall).2.1

variable {element root : Handle} {rank start : Nat}

/-- Expanding an array takes the root of arrays for its base. -/
theorem expand_array_run {elementEntry : Entry}
    (hentry : s.types[type]? = some (arrayEntry element elementEntry rank))
    (hroot : s.arrayRoot = some root) :
    (expand type).run s =
      .ok ((), s.relink type fun entry => (some root, entry.directInterfaces)) := by
  have hread : (s.entry type) = .ok (arrayEntry element elementEntry rank) :=
    entry_eq_ok.mpr hentry
  refine run_bind_eq_ok.mpr ⟨s, s, rfl, ?_⟩
  refine run_bind_eq_ok.mpr ⟨_, s, run_lift_eq_ok.mpr ⟨hread, rfl⟩, ?_⟩
  refine run_bind_eq_ok.mpr ⟨s, s, rfl, ?_⟩
  refine run_bind_eq_ok.mpr ⟨(), s, discard_run (run_lift_eq_ok.mpr ⟨hread, rfl⟩), ?_⟩
  rw [hroot]
  rfl

/-- On a finished store, what is pending is expanded and closed. -/
theorem closeIfFinished_of_drain (hfinished : s.finished = true) {types : List Handle} {mid : Store}
    (hdrain : (drain handleSpace).run s = .ok (types, mid))
    (hclose : (closeAll types).run mid = .ok ((), s')) :
    closeIfFinished.run s = .ok ((), s') := by
  refine run_bind_eq_ok.mpr ⟨s, s, rfl, ?_⟩
  rw [if_pos hfinished]
  exact run_bind_eq_ok.mpr ⟨types, mid, hdrain, hclose⟩

/-- A new array whose supertypes are computed adds nothing further. -/
theorem drains_array {elementEntry : Entry} {arrays : List ((Handle × Nat) × Handle)}
    (hpending : s.pending = []) (hroot : s.arrayRoot = some root) :
    ∃ last array, Drains (s.interned (arrayEntry element elementEntry rank) s.instances arrays)
        [s.size] last ∧
      last.size = s.size + 1 ∧ last.types[s.size]? = some array ∧ array.base = some root ∧
      array.directInterfaces = [] ∧
      ∀ type, type < s.size → last.types[type]? = s.types[type]? := by
  have hsame : ∀ pending : List Handle, ({ s.interned (arrayEntry element elementEntry rank)
      s.instances arrays with pending } : Store).types[s.size]? =
        some (arrayEntry element elementEntry rank) := fun _ => Array.getElem?_push_size
  refine ⟨_, { arrayEntry element elementEntry rank with base := some root },
    drains_cons (congrArg (s.size :: ·) hpending) (expand_array_run (hsame []) hroot)
      (drains_nil rfl), ?_, ?_, ?_⟩
  · rw [size_relink]
    exact Array.size_push _
  · rw [relink, Array.getElem?_modify, if_pos rfl, hsame]
    rfl
  · refine ⟨rfl, rfl, fun type hlt => ?_⟩
    rw [relink, Array.getElem?_modify, if_neg (Nat.ne_of_gt hlt)]
    exact (Array.getElem?_push_lt hlt).trans (Array.getElem?_eq_getElem hlt).symm

/-- Ranks fall where only one type has direct supertypes from `start` on. -/
theorem ranksFall_of_top {top : Handle}
    (h : ∀ (type : Handle) entry, s.types[type]? = some entry → ∀ super,
      entry.base = some super ∨ super ∈ entry.directInterfaces → start ≤ super →
        type = top ∧ super ≠ top) :
    s.RanksFall start fun type => if type = top then 1 else 0 := by
  have hfalls : ∀ (type : Handle) entry, s.types[type]? = some entry → ∀ super,
      entry.base = some super ∨ super ∈ entry.directInterfaces → start ≤ super →
        (if super = top then 1 else 0) < if type = top then 1 else 0 := by
    intro type entry hentry super hlink hge
    obtain ⟨htop, hne⟩ := h type entry hentry super hlink hge
    rw [if_pos htop, if_neg hne]
    exact Nat.zero_lt_one
  exact ⟨fun type entry _ hentry super hbase => hfalls type entry hentry super (Or.inl hbase),
    fun type entry _ hentry super hmem => hfalls type entry hentry super (Or.inr hmem)⟩

/-- Interning an array closes the root of arrays, if that was left out, from supertypes that are
closed. -/
theorem Lawful.arrayOf_closes_root (hs : s.Lawful) (hfinished : s.finished = true)
    (hclosed : ∀ type, type < start → s.ClosedAt type)
    (hsupers : ∀ (type : Handle) entry, s.types[type]? = some entry →
      ∀ super, entry.base = some super ∨ super ∈ entry.directInterfaces → super < start)
    (hfits : s.size < start + Limits.supertypeClosure.maxIterations)
    (hroot : s.arrayRoot = some root) (hopen : ¬ s.ClosedAt root) (helement : element < s.size)
    (hnew : s.arrays.lookup (element, max rank 1) = none) :
    ∃ type s', (Store.arrayOf element rank).run s = .ok (type, s') ∧
      s'.links root = s.links root ∧ ∃ entry, s'.CompleteAt root entry := by
  have hrootlt : root < s.size := hs.wellFormed.inRange.arrayRoot root hroot
  obtain ⟨type, mid, hintern, hmid, hgrown, -⟩ :=
    internArray_returns hs.wellFormed.coherent helement (Nat.le_max_right rank 1)
  have hdraining := hs.grown_draining hgrown hmid
  rcases internArray_cases hintern with ⟨-, hfound⟩ | ⟨-, rfl, -, elementEntry, -, rfl⟩
  · rw [hnew] at hfound
    cases hfound
  obtain ⟨last, array, hdrains, hsize, harray, hbase, hdirect, hold⟩ :=
    drains_array (hs.finished hfinished).1 hroot
  have hdrain := hdrains.run handleSpace
  rw [List.length_singleton, if_pos (by decide)] at hdrain
  obtain ⟨hlast, -, hlater, -⟩ := drain_run hdraining hdrain
  have hnow : ∀ t ∈ [s.size], t < last.size := by simp [hsize]
  obtain ⟨_, s', hclose, -, hclosing, -⟩ := closeAll_returns hlast.wellFormed hnow
  have hfall : last.RanksFall start fun t => if t = s.size then 1 else 0 := by
    refine ranksFall_of_top fun t e hentry super hlink hge => ?_
    rcases Nat.lt_succ_iff_lt_or_eq.mp (hsize ▸ lt_of_entry hentry) with hlt | rfl
    · rw [hold t hlt] at hentry
      exact absurd (hsupers t e hentry super hlink) (Nat.not_lt.mpr hge)
    · obtain rfl := Option.some.inj (harray.symm.trans hentry)
      rw [hbase, hdirect] at hlink
      rcases hlink with h | h
      · obtain rfl := Option.some.inj h
        exact ⟨rfl, Nat.ne_of_lt hrootlt⟩
      · cases h
  obtain ⟨harrayClosed, hcomplete⟩ := hfall.closeAll hlast.wellFormed
    (by omega) (fun t ht => hlater.closedAt (hgrown.later.closedAt (hclosed t ht)))
    (fun t _ _ => by split <;> decide) hclose
  have hbefore : ∀ {t : Handle}, last.ClosedAt t → s.ClosedAt t := fun h =>
    hgrown.closedAt (hdraining.closedAt_of_drain hdrain h)
  have hnewOpen : ¬ last.ClosedAt s.size := by
    intro h
    obtain ⟨entry, hentry, -⟩ := hbefore h
    exact Nat.lt_irrefl _ (lt_of_entry hentry)
  obtain ⟨entry, hentry⟩ := hcomplete s.size hnewOpen (harrayClosed s.size List.mem_cons_self)
  obtain ⟨interfaces, closed, hsealed, -⟩ := hclosing.entries harray
  obtain rfl := Option.some.inj (hsealed.symm.trans hentry.found)
  have hends := closeIfFinished_of_drain (hgrown.finished.trans hfinished) hdrain hclose
  refine ⟨s.size, s', ?_, hs.intern_links hfinished hgrown hmid hends hrootlt,
    hcomplete root (fun h => hopen (hbefore h)) (hentry.base root hbase)⟩
  exact run_bind_eq_ok.mpr ⟨_, _, hintern, run_bind_eq_ok.mpr ⟨(), s', hends, rfl⟩⟩

end Stores

section Crowds

variable {count : Nat}

/-- The entry of a declared type that is not generic. -/
def declaredEntry (kind : TypeKind) (name : String) : Entry where
  name := name
  flags := kind.flags
  shape := .named

/-- A root, an interface and so many classes. -/
def crowd (count : Nat) : Store :=
  (ofRoot "object").appended
    (declaredEntry .interfaceType "I" :: List.replicate count (declaredEntry .classType "C")) #[]

/-- A crowd whose last class implements the interface and is the root of arrays. -/
def ledCrowd (count : Nat) : Store :=
  { crowd count with
    types := (crowd count).types.modify (count + 1) fun entry =>
      { entry with directInterfaces := appendNew entry.directInterfaces 1 }
    arrayRoot := some (count + 1) }

theorem crowd_size (count : Nat) : (crowd count).size = count + 2 := by
  rw [crowd, size_appended, List.length_cons, List.length_replicate]
  exact Nat.add_comm 1 (count + 1)

theorem ledCrowd_size (count : Nat) : (ledCrowd count).size = count + 2 := by
  rw [← crowd_size count]
  exact Array.size_modify

theorem crowd_reachable (count : Nat) : (crowd count).Reachable := by
  have hdeclare : ∀ {s : Store} (kind : TypeKind) (name : String), s.Reachable →
      s.finished = false → (s.appended [declaredEntry kind name] s.callables).Reachable := by
    intro s kind name hs hunfinished
    have hallowed : (Operation.declare kind name).Allowed s :=
      ⟨by simp [Operation.handles], fun _ => hunfinished⟩
    exact hs.step hallowed (discard_run (push_run _))
  induction count with
  | zero => exact hdeclare .interfaceType "I" (.ofRoot "object") rfl
  | succ count ih =>
      have hnext := hdeclare .classType "C" ih rfl
      rw [crowd, appended_appended, List.cons_append, ← List.replicate_succ'] at hnext
      exact hnext

theorem ledCrowd_reachable (count : Nat) : (ledCrowd count).Reachable := by
  have hlast : count + 1 < (crowd count).size := by rw [crowd_size]; omega
  have hfirst : 1 < (crowd count).size := by rw [crowd_size]; omega
  obtain ⟨_, s, hadd, rfl⟩ := modifyEntry_returns hlast fun entry =>
    { entry with directInterfaces := appendNew entry.directInterfaces 1 }
  have hallowed : (Operation.addInterface (count + 1) 1).Allowed (crowd count) :=
    ⟨by simpa [Operation.handles] using ⟨hlast, hfirst⟩, fun _ => rfl⟩
  have hadded := (crowd_reachable count).step hallowed hadd
  have hallowed' : (Operation.setArrayRoot (count + 1)).Allowed
      { crowd count with
        types := (crowd count).types.modify (count + 1) fun entry =>
          { entry with directInterfaces := appendNew entry.directInterfaces 1 } } :=
    ⟨by simpa [Operation.handles, size] using hlast, fun _ => rfl⟩
  exact hadded.step hallowed' rfl

theorem crowd_entry (h : (crowd count).types[type]? = some entry) :
    type = 0 ∧ entry = declaredEntry .classType "object" ∨
      type = 1 ∧ entry = declaredEntry .interfaceType "I" ∨
      2 ≤ type ∧ entry = declaredEntry .classType "C" := by
  rw [crowd, appended_getElem?] at h
  split at h
  · exact Or.inl (entry_ofRoot h)
  · next hge =>
      have hsize : (ofRoot "object").size = 1 := rfl
      rw [hsize] at h hge
      obtain ⟨position, rfl⟩ := Nat.exists_eq_add_of_le' (Nat.le_of_not_lt hge)
      rw [Nat.add_sub_cancel] at h
      cases position with
      | zero =>
          cases h
          exact Or.inr (Or.inl ⟨rfl, rfl⟩)
      | succ position =>
          have hclass := List.eq_of_mem_replicate (List.mem_of_getElem? h)
          exact Or.inr (Or.inr ⟨Nat.le_add_left 2 position, hclass⟩)

/-- The types of a crowd, and which interfaces they declare. -/
theorem ledCrowd_entry (hcount : 0 < count) (h : (ledCrowd count).types[type]? = some entry) :
    type = 0 ∧ entry = declaredEntry .classType "object" ∨
      type = 1 ∧ entry = declaredEntry .interfaceType "I" ∨
      2 ≤ type ∧ ∃ directInterfaces, (directInterfaces = [] ∨ directInterfaces = [1]) ∧
        entry = { declaredEntry .classType "C" with directInterfaces } := by
  rcases modify_getElem? h with ⟨rfl, old, hold, rfl⟩ | ⟨-, hold⟩
  · rcases crowd_entry hold with ⟨h, -⟩ | ⟨h, -⟩ | ⟨hge, rfl⟩
    · exact absurd h (Nat.succ_ne_zero count)
    · exact absurd (Nat.succ.inj h) hcount.ne'
    · exact Or.inr (Or.inr ⟨hge, [1], Or.inr rfl, rfl⟩)
  · rcases crowd_entry hold with hroot | hinterface | ⟨hge, rfl⟩
    · exact Or.inl hroot
    · exact Or.inr (Or.inl hinterface)
    · exact Or.inr (Or.inr ⟨hge, [], Or.inl rfl, rfl⟩)

/-- The last class of a crowd. -/
theorem ledCrowd_last (hcount : 0 < count) : (ledCrowd count).types[count + 1]? =
    some { declaredEntry .classType "C" with directInterfaces := [1] } := by
  obtain ⟨old, hold⟩ : ∃ old, (crowd count).types[count + 1]? = some old :=
    entry_of_lt (by rw [crowd_size]; exact Nat.lt_succ_self (count + 1))
  rw [ledCrowd, Array.getElem?_modify, if_pos rfl, hold]
  rcases crowd_entry hold with ⟨h, -⟩ | ⟨h, -⟩ | ⟨-, rfl⟩
  · exact absurd h (Nat.succ_ne_zero count)
  · exact absurd (Nat.succ.inj h) hcount.ne'
  · rfl

/-- With default bases, the direct supertypes of a crowd are its root and its interface. -/
theorem ledCrowd_super (hcount : 0 < count)
    (h : (ledCrowd count).withDefaultBases.types[type]? = some entry) {super : Handle}
    (hsuper : entry.base = some super ∨ super ∈ entry.directInterfaces) :
    super < 2 ∧ super < type := by
  obtain ⟨old, hold, rfl⟩ := entry_withDefaultBases h
  rcases ledCrowd_entry hcount hold with
    ⟨rfl, rfl⟩ | ⟨rfl, rfl⟩ | ⟨hge, directInterfaces, hdirect, rfl⟩
  · rcases hsuper with hbase | hmem
    · cases hbase
    · cases hmem
  · rcases hsuper with hbase | hmem
    · cases hbase
    · cases hmem
  · rcases hsuper with hbase | hmem
    · have hcases : none = some super ∨ (ledCrowd count).valueTypeRoot = some super ∨
          (ledCrowd count).root = super := by
        grind [defaultBase, declaredEntry]
      rcases hcases with h | h | rfl
      · cases h
      · cases h
      · exact ⟨Nat.two_pos, Nat.lt_of_lt_of_le Nat.two_pos hge⟩
    · rcases hdirect with rfl | rfl
      · cases hmem
      · obtain rfl := List.mem_singleton.mp hmem
        exact ⟨Nat.one_lt_two, hge⟩

/-- Completing the declarations of a crowd with one more type than a closing walk may try leaves
the last class without interface set. -/
theorem ledCrowd_finish (hcount : count + 1 = Limits.supertypeClosure.maxIterations) :
    ∃ last, finish.run (ledCrowd count) = .ok ((), { last with finished := true }) ∧
      ({ last with finished := true } : Store).Reachable ∧
      Closing [] (ledCrowd count).withDefaultBases last ∧
      (∀ type, type < 2 → last.ClosedAt type) ∧
      last.types[count + 1]? = (ledCrowd count).withDefaultBases.types[count + 1]? := by
  have hmax : 2 < Limits.supertypeClosure.maxIterations := by decide
  have hpos : 0 < count := by omega
  have hmany : Limits.supertypeClosure.maxIterations ≤ (ledCrowd count).size := by
    rw [ledCrowd_size, ← hcount]
    exact Nat.le_succ _
  have hopen : ∀ (type : Handle) entry, (ledCrowd count).types[type]? = some entry →
      entry.closed = false := by
    intro type entry hentry
    rcases ledCrowd_entry hpos hentry with ⟨-, rfl⟩ | ⟨-, rfl⟩ | ⟨-, _, -, rfl⟩
    · rfl
    · rfl
    · rfl
  obtain ⟨last, hfinish, hclosing, hclosed, hlater⟩ :=
    (ledCrowd_reachable count).lawful.finish_exhausts rfl rfl
      (fun type entry hentry super hsuper => (ledCrowd_super hpos hentry hsuper).2) hopen hmany
  have hallowed : Operation.finish.Allowed (ledCrowd count) :=
    ⟨by simp [Operation.handles], fun _ => rfl⟩
  exact ⟨last, hfinish, (ledCrowd_reachable count).step hallowed hfinish, hclosing,
    fun type hlt => hclosed type (hlt.trans hmax), hlater (count + 1) hcount.ge⟩

/-- The interface of a crowd is found by its name. -/
theorem ledCrowd_lookup? (hcount : 0 < count) {last : Store}
    (h : Closing [] (ledCrowd count).withDefaultBases last) : last.lookup? "I" = some 1 := by
  have hold : ∀ {type : Handle} {entry : Entry}, last.types[type]? = some entry →
      (entry.name = "I" ↔ type = 1) ∧ entry.isParameter = false := by
    intro type entry hentry
    obtain ⟨declared, hdeclared, heq⟩ := h.old hentry
    obtain ⟨old, hold, rfl⟩ := entry_withDefaultBases hdeclared
    have hname : entry.name = old.name := by rw [heq]
    have hparam : entry.isParameter = old.isParameter := by
      rw [heq]
      rfl
    rw [hname, hparam]
    rcases ledCrowd_entry hcount hold with ⟨rfl, rfl⟩ | ⟨rfl, rfl⟩ | ⟨hge, _, -, rfl⟩
    · exact ⟨by decide, rfl⟩
    · exact ⟨by decide, rfl⟩
    · exact ⟨iff_of_false (by decide : ¬ "C" = "I") (Nat.ne_of_gt hge), rfl⟩
  have hlt : 1 < last.size := by
    have hsize : (ledCrowd count).withDefaultBases.size = (ledCrowd count).size := Array.size_mapIdx
    rw [h.size, hsize, ledCrowd_size]
    omega
  obtain ⟨entry, hentry⟩ := entry_of_lt hlt
  obtain ⟨hname, hparam⟩ := hold hentry
  have hsome := lookup?_isSome hentry (hname.mpr rfl) hparam
  obtain ⟨type, htype⟩ := Option.isSome_iff_exists.mp hsome
  obtain ⟨found, hfound, hnamed, -⟩ := lookup?_entry htype
  rw [htype, (hold hfound).1.mp hnamed]

/-- The last class of the finished crowd lists no interfaces until an array is interned. -/
theorem ledCrowd_array (hcount : count + 1 = Limits.supertypeClosure.maxIterations) :
    ∃ s type s', finish.run (ledCrowd count) = .ok ((), s) ∧ s.Reachable ∧
      s.lookup? "I" = some 1 ∧ s.interfaces (count + 1) = .ok [] ∧
      (arrayOf 1 1).run s = .ok (type, s') ∧
      ∃ interfaces, s'.interfaces (count + 1) = .ok interfaces ∧ 1 ∈ interfaces := by
  have hmax : 1 < Limits.supertypeClosure.maxIterations := by decide
  have hpos : 0 < count := by omega
  obtain ⟨last, hfinish, hreachable, hclosing, hclosed, hlast⟩ := ledCrowd_finish hcount
  have hentry : ({ last with finished := true } : Store).types[count + 1]? =
      some { declaredEntry .classType "C" with
        base := (ledCrowd count).defaultBase (count + 1)
          { declaredEntry .classType "C" with directInterfaces := [1] }
        directInterfaces := [1] } := by
    rw [hlast, withDefaultBases, Array.getElem?_mapIdx, ledCrowd_last hpos]
    rfl
  have hopen : ¬ ({ last with finished := true } : Store).ClosedAt (count + 1) := by
    rintro ⟨entry, hsome, hclosed⟩
    obtain rfl := Option.some.inj (hentry.symm.trans hsome)
    cases hclosed
  have hsupers : ∀ (type : Handle) entry, last.types[type]? = some entry →
      ∀ super, entry.base = some super ∨ super ∈ entry.directInterfaces → super < 2 := by
    intro type entry htype super hsuper
    obtain ⟨old, hold, heq⟩ := hclosing.old htype
    rw [heq] at hsuper
    exact (ledCrowd_super hpos hold hsuper).1
  have hsize : last.size = count + 2 :=
    hclosing.size.trans (Array.size_mapIdx.trans (ledCrowd_size count))
  have hinterface : 1 < last.size := by omega
  have hfits : last.size < 2 + Limits.supertypeClosure.maxIterations := by omega
  have hnew : last.arrays.lookup (1, max 1 1) = none :=
    congrArg (·.arrays.lookup (1, max 1 1)) hclosing.rest
  have hlookup := ledCrowd_lookup? hpos hclosing
  obtain ⟨type, s', harray, hlinks, entry, hcomplete⟩ :=
    hreachable.lawful.arrayOf_closes_root rfl hclosed hsupers hfits
      (congrArg Store.arrayRoot hclosing.rest) hopen hinterface hnew
  refine ⟨_, type, s', hfinish, hreachable, hlookup, query_of_entry hentry (·.interfaces), harray,
    entry.interfaces, query_of_entry hcomplete.found (·.interfaces), ?_⟩
  rw [links_of_entry hcomplete.found, links_of_entry hentry] at hlinks
  obtain ⟨-, hdirect⟩ := Prod.mk.inj (Option.some.inj hlinks)
  rw [hcomplete.interfaces, mem_gather]
  exact Or.inl ⟨1, hdirect ▸ List.mem_cons_self, Or.inl rfl⟩

end Crowds

end NominalGenerics.Store
