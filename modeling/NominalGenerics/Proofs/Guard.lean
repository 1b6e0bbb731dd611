import NominalGenerics.Guard

/-!
# Guards

What a guard answers and how it changes: entering puts the key on the path, a refusal leaves the
path alone, and only a limit sets `exceeded`.
-/

namespace NominalGenerics.Guard

variable {κ : Type} [DecidableEq κ] {guard guard' : Guard κ} {key : κ}

/-- The three answers of a guard. -/
theorem enter_cases {admission : Admission} (h : guard.enter key = (admission, guard')) :
    guard'.limits = guard.limits ∧
      ((admission = .entered ∧ key ∉ guard.visiting ∧ guard.depth < guard.limits.maxDepth ∧
          guard'.visiting = key :: guard.visiting ∧ guard'.depth = guard.depth + 1 ∧
          guard'.exceeded = guard.exceeded) ∨
        (admission = .cycle ∧ key ∈ guard.visiting ∧ guard'.visiting = guard.visiting ∧
          guard'.depth = guard.depth ∧ guard'.exceeded = guard.exceeded) ∨
        (admission.isExceeded = true ∧ guard'.visiting = guard.visiting ∧
          guard'.depth = guard.depth ∧ guard'.exceeded = true)) := by
  unfold enter at h
  simp only at h
  split at h
  · obtain ⟨rfl, rfl⟩ := Prod.mk.inj h
    exact ⟨rfl, Or.inr (Or.inr ⟨rfl, rfl, rfl, rfl⟩)⟩
  · split at h
    · obtain ⟨rfl, rfl⟩ := Prod.mk.inj h
      exact ⟨rfl, Or.inr (Or.inr ⟨rfl, rfl, rfl, rfl⟩)⟩
    · next hdepth =>
        split at h
        · next hmem =>
            obtain ⟨rfl, rfl⟩ := Prod.mk.inj h
            exact ⟨rfl, Or.inr (Or.inl ⟨rfl, hmem, rfl, rfl, rfl⟩)⟩
        · next hmem =>
            obtain ⟨rfl, rfl⟩ := Prod.mk.inj h
            exact ⟨rfl, Or.inl ⟨rfl, hmem, Nat.not_le.mp hdepth, rfl, rfl, rfl⟩⟩

/-- A refused attempt changes neither the path nor its length. -/
theorem enter_refused {admission : Admission} (h : guard.enter key = (admission, guard'))
    (hrefused : admission ≠ .entered) :
    guard'.visiting = guard.visiting ∧ guard'.depth = guard.depth := by
  obtain ⟨-, ⟨hentered, -⟩ | ⟨-, -, hvisiting, hdepth, -⟩ | ⟨-, hvisiting, hdepth, -⟩⟩ :=
    enter_cases h
  · exact absurd hentered hrefused
  · exact ⟨hvisiting, hdepth⟩
  · exact ⟨hvisiting, hdepth⟩

/-- Every attempt is counted, and a guard refuses for one of its limits only if it is hit. -/
theorem enter_limits {admission : Admission} (h : guard.enter key = (admission, guard')) :
    guard'.iterations = min (guard.iterations + 1) iterationCeiling ∧
      (admission = .iterationExceeded ↔ guard.limits.maxIterations < guard'.iterations) ∧
      (admission = .depthExceeded → guard.limits.maxDepth ≤ guard.depth) := by
  unfold enter at h
  simp only at h
  split at h
  · next hiterations =>
      obtain ⟨rfl, rfl⟩ := Prod.mk.inj h
      exact ⟨rfl, by simpa using hiterations, by simp⟩
  · next hiterations =>
      split at h
      · next hdepth =>
          obtain ⟨rfl, rfl⟩ := Prod.mk.inj h
          exact ⟨rfl, by simpa using hiterations, fun _ => hdepth⟩
      · split at h
        · obtain ⟨rfl, rfl⟩ := Prod.mk.inj h
          exact ⟨rfl, by simpa using hiterations, by simp⟩
        · obtain ⟨rfl, rfl⟩ := Prod.mk.inj h
          exact ⟨rfl, by simpa using hiterations, by simp⟩

/-- A guard that visits nothing enters any key while attempts are left. -/
theorem enter_idle (key : κ) (hvisiting : guard.visiting = []) (hdepth : guard.depth = 0)
    (hattempts : guard.iterations < guard.limits.maxIterations)
    (hceiling : guard.limits.maxIterations ≤ iterationCeiling) (hroom : 0 < guard.limits.maxDepth) :
    guard.enter key = (.entered,
      { guard with visiting := [key], depth := 1, iterations := guard.iterations + 1 }) := by
  have hcount : min (guard.iterations + 1) iterationCeiling = guard.iterations + 1 := by omega
  rw [enter, hcount]
  dsimp only
  rw [if_neg (by omega), if_neg (by omega), if_neg (by simp [hvisiting]), hvisiting, hdepth]

/-- A guard whose attempts are used up refuses every key. -/
theorem enter_usedUp (key : κ) (hused : guard.limits.maxIterations ≤ guard.iterations)
    (hceiling : guard.limits.maxIterations < iterationCeiling) :
    guard.enter key = (.iterationExceeded, { guard with
      iterations := min (guard.iterations + 1) iterationCeiling, exceeded := true }) := by
  rw [enter]
  dsimp only
  rw [if_pos (by omega)]

/-- A guard leaves the key that it entered last. -/
theorem leave_head {rest : List κ} (h : guard.visiting = key :: rest) :
    guard.leave key = .ok { guard with visiting := rest, depth := guard.depth - 1 } := by
  have hmem : key ∈ guard.visiting := by simp [h]
  rw [leave, if_pos hmem, h, List.erase_cons_head]

end NominalGenerics.Guard
