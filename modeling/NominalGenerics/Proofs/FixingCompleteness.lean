import NominalGenerics.Proofs.UniformCollection

/-!
# Completeness of fixing

Fixing looks at few candidates: the only exact witness, else the least upper witness, else the
greatest lower one, and where a candidate fails it does not go on to the next rule. Nothing is lost
by that. If assignability is transitive and any witness meets the bounds, the candidate meets them
too, because all lower witnesses are below the witness that does, and it is below all upper ones.

`BoundSet.fix?_ofAdds` states this, and that fixing is sound, in terms of the types that were
recorded.
-/

namespace NominalGenerics.BoundSet

variable {assignable : Handle → Handle → Query Bool} {bounds : BoundSet} {type : Handle}

section Completeness

variable {below : Handle → Handle → Bool}

/-- The first rule that offers a candidate finds one that meets the bounds, if any witness does. -/
theorem exists_pick {candidate : Handle} (hwitness : ∃ flow, candidate ∈ bounds.side flow)
    (hexact : ∀ witness ∈ bounds.exact, witness = candidate) (hcompact : bounds.exact.Compact)
    (hlower : ∀ witness ∈ bounds.lower, below witness candidate = true)
    (hupper : ∀ witness ∈ bounds.upper, below candidate witness = true)
    (hbetween : ∀ lower ∈ bounds.lower, ∀ upper ∈ bounds.upper, below lower upper = true) :
    ∃ type, bounds.pick below = some type := by
  have hallUpper : bounds.upper.all (below candidate) = true := List.all_eq_true.mpr hupper
  have hallLower : bounds.lower.all (below · candidate) = true := List.all_eq_true.mpr hlower
  unfold pick
  rcases hcompact candidate hexact with hnone | hone
  · rw [hnone]
    dsimp only
    cases hleast : bounds.upper.find? fun upper => bounds.upper.all (below upper) with
    | some upper =>
        have hmem := List.mem_of_find?_eq_some hleast
        have hall : bounds.lower.all (below · upper) = true :=
          List.all_eq_true.mpr fun lower hl => hbetween lower hl upper hmem
        exact ⟨upper, if_pos hall⟩
    | none =>
        -- The candidate is below all upper witnesses, so it is none of them.
        have hmem : candidate ∈ bounds.lower := by
          obtain ⟨flow, hmem⟩ := hwitness
          cases flow with
          | covariant => exact hmem
          | contravariant =>
              exact absurd hallUpper (List.find?_eq_none.mp hleast candidate hmem)
          | invariant =>
              rw [side, hnone] at hmem
              cases hmem
        cases hgreatest : bounds.lower.find? fun lower => bounds.lower.all (below · lower) with
        | some lower =>
            have hlmem := List.mem_of_find?_eq_some hgreatest
            have hall : bounds.upper.all (below lower) = true :=
              List.all_eq_true.mpr fun upper hu => hbetween lower hlmem upper hu
            exact ⟨lower, if_pos hall⟩
        | none => exact absurd hallLower (List.find?_eq_none.mp hgreatest candidate hmem)
  · rw [hone]
    exact ⟨candidate, if_pos (by rw [hallUpper, hallLower]; rfl)⟩

/-- Fixing picks a type if any witness meets the bounds. -/
theorem exists_fix? (hcompact : bounds.exact.Compact)
    (htotal : ∀ flow flow' a b, a ∈ bounds.side flow → b ∈ bounds.side flow' →
      ∃ answer, assignable a b = .ok answer)
    (htrans : ∀ flow, ∀ a ∈ bounds.lower, ∀ b ∈ bounds.side flow, ∀ c ∈ bounds.upper,
      assignable a b = .ok true → assignable b c = .ok true → assignable a c = .ok true)
    (hmeets : bounds.Meets assignable type) :
    ∃ type, bounds.fix? assignable = .ok (some type) := by
  have hbelow : ∀ flow flow' a b, a ∈ bounds.side flow → b ∈ bounds.side flow' →
      assignable a b = .ok (assignable a b).holds :=
    fun flow flow' a b ha hb => Query.eq_ok_holds (htotal flow flow' a b ha hb)
  obtain ⟨flow, hmem⟩ := hmeets.witness
  obtain ⟨picked, hpicked⟩ : ∃ picked, bounds.pick (fun a b => (assignable a b).holds) =
      some picked := by
    refine exists_pick hmeets.witness hmeets.exact hcompact ?_ ?_ ?_
    · intro witness hwitness
      rw [hmeets.lower witness hwitness]
      rfl
    · intro witness hwitness
      rw [hmeets.upper witness hwitness]
      rfl
    · intro lower hl upper hu
      rw [htrans flow lower hl type hmem upper hu (hmeets.lower lower hl) (hmeets.upper upper hu)]
      rfl
  exact ⟨picked, by rw [fix?_eq_pick hbelow, hpicked]⟩

end Completeness

/-- The bound set after types were recorded one after the other, each with its flow. -/
def ofAdds (adds : List (Handle × Flow)) : BoundSet :=
  adds.foldl (fun bounds entry => bounds.add entry.1 entry.2) {}

variable {adds : List (Handle × Flow)}

theorem mem_side_foldl_add {flow : Flow} :
    type ∈ (adds.foldl (fun bounds entry => bounds.add entry.1 entry.2) bounds).side flow ↔
      type ∈ bounds.side flow ∨ (type, flow) ∈ adds := by
  induction adds generalizing bounds with
  | nil => simp
  | cons entry adds ih =>
      obtain ⟨added, flow'⟩ := entry
      rw [List.foldl_cons, ih, mem_side_add, List.mem_cons, Prod.mk.injEq, or_assoc,
        eq_comm (a := flow)]

/-- The witnesses on a side are the types that were recorded there. -/
theorem mem_side_ofAdds (flow : Flow) :
    type ∈ (ofAdds adds).side flow ↔ (type, flow) ∈ adds := by
  rw [ofAdds, mem_side_foldl_add]
  cases flow <;> simp [side]

theorem compact_foldl_add (h : bounds.exact.Compact) :
    (adds.foldl (fun bounds entry => bounds.add entry.1 entry.2) bounds).exact.Compact := by
  induction adds generalizing bounds with
  | nil => exact h
  | cons entry adds ih =>
      obtain ⟨added, flow⟩ := entry
      refine ih ?_
      cases flow with
      | covariant | contravariant => exact h
      | invariant => exact h.add added

/-- A recorded type that equals all types recorded as exact and lies between those recorded as lower
and as upper bounds. -/
structure Admits (assignable : Handle → Handle → Query Bool) (adds : List (Handle × Flow))
    (type : Handle) : Prop where
  added : ∃ flow, (type, flow) ∈ adds
  exact : ∀ other, (other, .invariant) ∈ adds → other = type
  lower : ∀ other, (other, .covariant) ∈ adds → assignable other type = .ok true
  upper : ∀ other, (other, .contravariant) ∈ adds → assignable type other = .ok true

theorem meets_ofAdds : (ofAdds adds).Meets assignable type ↔ Admits assignable adds type := by
  have hlower : ∀ other, other ∈ (ofAdds adds).lower ↔ (other, .covariant) ∈ adds :=
    fun _ => mem_side_ofAdds .covariant
  have hupper : ∀ other, other ∈ (ofAdds adds).upper ↔ (other, .contravariant) ∈ adds :=
    fun _ => mem_side_ofAdds .contravariant
  have hexact : ∀ other, other ∈ (ofAdds adds).exact ↔ (other, .invariant) ∈ adds :=
    fun _ => mem_side_ofAdds .invariant
  constructor
  · intro h
    refine ⟨?_, ?_, ?_, ?_⟩
    · simpa only [mem_side_ofAdds] using h.witness
    · simpa only [hexact] using h.exact
    · simpa only [hlower] using h.lower
    · simpa only [hupper] using h.upper
  · intro h
    refine ⟨?_, ?_, ?_, ?_⟩
    · simpa only [mem_side_ofAdds] using h.added
    · simpa only [hexact] using h.exact
    · simpa only [hlower] using h.lower
    · simpa only [hupper] using h.upper

/-- Exact witnesses that differ cannot be fixed, whatever is assignable. -/
theorem fix?_conflict {a b : Handle} (ha : a ∈ bounds.exact) (hb : b ∈ bounds.exact)
    (hne : a ≠ b) : bounds.fix? assignable = .ok none := by
  unfold fix?
  rcases hexact : bounds.exact with - | ⟨exact, - | ⟨other, rest⟩⟩
  · rw [hexact] at ha
    cases ha
  · rw [hexact, List.mem_singleton] at ha hb
    exact absurd (ha.trans hb.symm) hne
  · rfl

/-- Whatever types were recorded: fixing picks one that they admit, exact ones that differ leave
nothing to pick, and if assignability answers on the recorded types and is transitive there, a type
is picked as soon as one of them is admitted. -/
theorem fix?_ofAdds (assignable : Handle → Handle → Query Bool) (adds : List (Handle × Flow)) :
    (∀ type, (ofAdds adds).fix? assignable = .ok (some type) → Admits assignable adds type) ∧
      (∀ a b, (a, .invariant) ∈ adds → (b, .invariant) ∈ adds → a ≠ b →
        (ofAdds adds).fix? assignable = .ok none) ∧
      ((∀ a ∈ adds, ∀ b ∈ adds, ∃ answer, assignable a.1 b.1 = .ok answer) →
        (∀ a ∈ adds, ∀ b ∈ adds, ∀ c ∈ adds, assignable a.1 b.1 = .ok true →
          assignable b.1 c.1 = .ok true → assignable a.1 c.1 = .ok true) →
        (∃ type, Admits assignable adds type) →
        ∃ type, (ofAdds adds).fix? assignable = .ok (some type)) := by
  have hside : ∀ flow other, other ∈ (ofAdds adds).side flow ↔ (other, flow) ∈ adds :=
    fun flow _ => mem_side_ofAdds flow
  refine ⟨fun type hfix => meets_ofAdds.mp (meets_of_fix? hfix), fun a b ha hb hne => ?_, ?_⟩
  · exact fix?_conflict ((hside .invariant a).mpr ha) ((hside .invariant b).mpr hb) hne
  · rintro htotal htrans ⟨type, hadmits⟩
    refine exists_fix? (compact_foldl_add Witnesses.compact_nil) ?_ ?_ (meets_ofAdds.mpr hadmits)
    · intro flow flow' a b ha hb
      exact htotal _ ((hside flow a).mp ha) _ ((hside flow' b).mp hb)
    · intro flow a ha b hb c hc
      exact htrans _ ((hside .covariant a).mp ha) _ ((hside flow b).mp hb) _
        ((hside .contravariant c).mp hc)

/-- Two interfaces that extend a third, and a class that implements both. -/
def petOperations : List Operation :=
  [.declare .interfaceType "Animal",
    .declare .interfaceType "Swims",
    .declare .interfaceType "Purrs",
    .declare .classType "Tiger",
    .addInterface 2 1,
    .addInterface 3 1,
    .addInterface 4 2,
    .addInterface 4 3,
    .finish]

/-- The store that `petOperations` build: `Tiger : Swims, Purrs` where both extend `Animal`. -/
def petStore : Store := (Operation.runAll petOperations (.ofRoot "object")).getD {}

/-- Upper bounds none of which is below the others, and lower bounds the greatest of which is below
all of them. -/
def petAdds : List (Handle × Flow) :=
  [(2, .contravariant), (4, .covariant), (3, .contravariant), (1, .contravariant), (4, .covariant)]

/-- No upper bound of `petAdds` is a candidate; `Tiger` is fixed. -/
theorem fix?_ofAdds_pets :
    Admits petStore.isAssignable petAdds 4 ∧
      (ofAdds [(2, .invariant), (4, .covariant), (3, .invariant), (2, .invariant)]).fix?
        petStore.isAssignable = .ok none ∧
      ∃ type, (ofAdds petAdds).fix? petStore.isAssignable = .ok (some type) := by
  have hadmits : Admits petStore.isAssignable petAdds 4 :=
    (fix?_ofAdds petStore.isAssignable petAdds).1 4 (by decide +kernel)
  refine ⟨hadmits, ?_, ?_⟩
  · exact (fix?_ofAdds petStore.isAssignable _).2.1 2 3 (by decide) (by decide) (by decide)
  · exact (fix?_ofAdds petStore.isAssignable petAdds).2.2 (by decide +kernel) (by decide +kernel)
      ⟨4, hadmits⟩

end NominalGenerics.BoundSet
