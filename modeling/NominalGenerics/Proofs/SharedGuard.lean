import Mathlib.Algebra.GroupWithZero.Nat
import NominalGenerics.ConstraintCheck
import NominalGenerics.Proofs.Computation
import NominalGenerics.Proofs.Guard

/-!
# Walks on a shared guard

One guard serves all assignability walks of a constraint check. What a walk leaves behind on it is
the number of attempts that it made: the path and its length are as they were, also if the walk was
refused somewhere. So a walk that hits no limit answers as it does on a guard of its own, and a
sequence of walks that hits none is the conjunction of their own answers, in any order.

`Steady` is what all this rests on. It holds of every walk, by one pass over the rules of
assignability, and needs nothing of the store.
-/

namespace NominalGenerics

/-- Two guards are at the same place of a walk, whatever they have spent. -/
structure SamePlace (g h : PairGuard) : Prop where
  limits : h.limits = g.limits
  visiting : h.visiting = g.visiting
  depth : h.depth = g.depth

namespace SamePlace

variable {g h k : PairGuard}

theorem refl (g : PairGuard) : SamePlace g g := ⟨rfl, rfl, rfl⟩

theorem symm (hgh : SamePlace g h) : SamePlace h g :=
  ⟨hgh.limits.symm, hgh.visiting.symm, hgh.depth.symm⟩

theorem trans (hgh : SamePlace g h) (hhk : SamePlace h k) : SamePlace g k :=
  ⟨hhk.limits.trans hgh.limits, hhk.visiting.trans hgh.visiting, hhk.depth.trans hgh.depth⟩

/-- What a guard has spent does not change its place. -/
theorem spend (hgh : SamePlace g h) (iterations : Nat) :
    SamePlace g { h with iterations } := ⟨hgh.limits, hgh.visiting, hgh.depth⟩

end SamePlace

/-- The attempts that an assignability walk may make. -/
abbrev maxAttempts : Nat := Limits.assignability.maxIterations

/-- A guard of an assignability walk that has not spent more attempts than there are. -/
structure InBudget (g : PairGuard) : Prop where
  limits : g.limits = Limits.assignability
  iterations : g.iterations ≤ maxAttempts

/-- The walk ends at the place where it started. If it hits no limit there is a number of attempts
that it costs from this place, and wherever that many are left it runs in the same way. -/
structure Replays {α : Type} (walk : RelationM α) : Prop where
  place : ∀ {g g' : PairGuard} {a : α}, walk.run g = .ok (a, g') →
    SamePlace g g' ∧ (g.exceeded = true → g'.exceeded = true)
  replay : ∀ {g g' : PairGuard} {a : α}, walk.run g = .ok (a, g') → InBudget g →
    g'.exceeded = false → InBudget g' ∧ ∃ cost, g'.iterations = g.iterations + cost ∧
      ∀ h, SamePlace g h → h.iterations + cost ≤ maxAttempts →
        walk.run h = .ok (a, { h with iterations := h.iterations + cost })

section Replaying

variable {α β : Type}

/-- A limit that was not hit at the end was not hit before. -/
theorem Replays.within {walk : RelationM α} (hw : Replays walk) {g g' : PairGuard} {a : α}
    (hrun : walk.run g = .ok (a, g')) (h : g'.exceeded = false) : g.exceeded = false := by
  cases hg : g.exceeded with
  | false => rfl
  | true => rw [(hw.place hrun).2 hg] at h; cases h

theorem replays_pure (a : α) : Replays (pure a) where
  place hrun := by
    cases hrun
    exact ⟨.refl _, id⟩
  replay hrun hg _ := by
    cases hrun
    exact ⟨hg, 0, rfl, fun h _ _ => rfl⟩

theorem replays_query (x : Query α) : Replays (liftM x) where
  place hrun := by
    obtain ⟨-, rfl⟩ := run_lift_eq_ok.mp hrun
    exact ⟨.refl _, id⟩
  replay hrun hg _ := by
    obtain ⟨hx, rfl⟩ := run_lift_eq_ok.mp hrun
    exact ⟨hg, 0, rfl, fun h _ _ => run_lift_eq_ok.mpr ⟨hx, rfl⟩⟩

theorem Replays.bind {walk : RelationM α} {next : α → RelationM β} (hw : Replays walk)
    (hnext : ∀ a, Replays (next a)) : Replays (walk >>= next) where
  place hrun := by
    obtain ⟨a, mid, hfirst, hrest⟩ := run_bind_eq_ok.mp hrun
    obtain ⟨hplace, hsticky⟩ := hw.place hfirst
    obtain ⟨hplace', hsticky'⟩ := (hnext a).place hrest
    exact ⟨hplace.trans hplace', hsticky' ∘ hsticky⟩
  replay {g g' b} hrun hg hwithin := by
    obtain ⟨a, mid, hfirst, hrest⟩ := run_bind_eq_ok.mp hrun
    obtain ⟨hmid, cost, hcost, hagain⟩ :=
      hw.replay hfirst hg ((hnext a).within hrest hwithin)
    obtain ⟨hg', cost', hcost', hagain'⟩ := (hnext a).replay hrest hmid hwithin
    refine ⟨hg', cost + cost', by omega, fun h hplace hroom => run_bind_eq_ok.mpr
      ⟨a, { h with iterations := h.iterations + cost }, hagain h hplace (by omega), ?_⟩⟩
    have hrest' := hagain' { h with iterations := h.iterations + cost }
      (((hw.place hfirst).1.symm.trans hplace).spend _) (by simp only; omega)
    rw [hrest']
    simp only [Nat.add_assoc]

end Replaying

/-- The walk replays, and a limit can only turn its answer from `true` to `false`: if it answers
`true` from some place, then any run from there that hits no limit does so too. -/
structure Steady (walk : RelationM Bool) : Prop extends Replays walk where
  confirms : ∀ {g g' h h' : PairGuard} {b : Bool}, SamePlace g h → walk.run g = .ok (true, g') →
    walk.run h = .ok (b, h') → h'.exceeded = false → b = true

section Combining

variable {α : Type}

theorem steady_pure (b : Bool) : Steady (pure b) where
  toReplays := replays_pure b
  confirms _ hg hh _ := by
    cases hg
    cases hh
    rfl

theorem steady_fault (fault : Fault) : Steady (throw fault) where
  place hrun := nomatch hrun
  replay hrun := nomatch hrun
  confirms _ hrun := nomatch hrun

/-- A walk that goes on after an answer of the store, which does not depend on the guard. -/
theorem steady_read {x : Query α} {next : α → RelationM Bool} (hnext : ∀ a, Steady (next a)) :
    Steady (liftM x >>= next) where
  toReplays := (replays_query x).bind fun a => (hnext a).toReplays
  confirms hplace hg hh hwithin := by
    obtain ⟨a, _, hread, hg⟩ := run_bind_eq_ok.mp hg
    obtain ⟨hx, rfl⟩ := run_lift_eq_ok.mp hread
    obtain ⟨a', _, hread', hh⟩ := run_bind_eq_ok.mp hh
    obtain ⟨hx', rfl⟩ := run_lift_eq_ok.mp hread'
    obtain rfl := Except.ok.inj (hx.symm.trans hx')
    exact (hnext a).confirms hplace hg hh hwithin

theorem steady_query (x : Query Bool) : Steady (liftM x) := by
  have h := steady_read (x := x) steady_pure
  rwa [bind_pure] at h

/-- A second walk is tried if the first one refuses. -/
theorem Steady.orElse {first second : RelationM Bool} (hfirst : Steady first)
    (hsecond : Steady second) : Steady (do if ← first then return true else second) where
  toReplays := hfirst.toReplays.bind fun b => by
    cases b with
    | true => exact replays_pure true
    | false => exact hsecond.toReplays
  confirms {g g' h h' b} hplace hg hh hwithin := by
    obtain ⟨b, g₁, hg₁, hg⟩ := run_bind_eq_ok.mp hg
    obtain ⟨b', h₁, hh₁, hh⟩ := run_bind_eq_ok.mp hh
    cases b' with
    | true => exact (run_pure_eq_ok.mp hh).1.symm
    | false =>
        have hh : second.run h₁ = .ok (_, h') := hh
        cases b with
        | true => cases hfirst.confirms hplace hg₁ hh₁ (hsecond.within hh hwithin)
        | false =>
            have hplace₁ := ((hfirst.place hg₁).1.symm.trans hplace).trans (hfirst.place hh₁).1
            exact hsecond.confirms hplace₁ hg hh hwithin

/-- A second walk has to accept what the first one accepts. -/
theorem Steady.andThen {first second : RelationM Bool} (hfirst : Steady first)
    (hsecond : Steady second) : Steady (do if ← first then second else return false) where
  toReplays := hfirst.toReplays.bind fun b => by
    cases b with
    | true => exact hsecond.toReplays
    | false => exact replays_pure false
  confirms {g g' h h' b} hplace hg hh hwithin := by
    obtain ⟨b, g₁, hg₁, hg⟩ := run_bind_eq_ok.mp hg
    obtain ⟨b', h₁, hh₁, hh⟩ := run_bind_eq_ok.mp hh
    cases b with
    | false => cases (run_pure_eq_ok.mp hg).1
    | true =>
        have hplace₁ := ((hfirst.place hg₁).1.symm.trans hplace).trans (hfirst.place hh₁).1
        cases b' with
        | true => exact hsecond.confirms hplace₁ hg hh hwithin
        | false =>
            obtain ⟨-, rfl⟩ := run_pure_eq_ok.mp hh
            cases hfirst.confirms hplace hg₁ hh₁ hwithin

theorem allM_cons_eq {f : α → RelationM Bool} {a : α} {as : List α} :
    (a :: as).allM f = (do if ← f a then as.allM f else return false) :=
  bind_congr fun b => by cases b <;> rfl

theorem anyM_cons_eq {f : α → RelationM Bool} {a : α} {as : List α} :
    (a :: as).anyM f = (do if ← f a then return true else as.anyM f) :=
  bind_congr fun b => by cases b <;> rfl

theorem steady_allM {f : α → RelationM Bool} {as : List α} (h : ∀ a ∈ as, Steady (f a)) :
    Steady (as.allM f) := by
  induction as with
  | nil => exact steady_pure true
  | cons a as ih =>
      rw [allM_cons_eq]
      exact (h a List.mem_cons_self).andThen (ih fun b hb => h b (List.mem_cons_of_mem a hb))

theorem steady_anyM {f : α → RelationM Bool} {as : List α} (h : ∀ a ∈ as, Steady (f a)) :
    Steady (as.anyM f) := by
  induction as with
  | nil => exact steady_pure false
  | cons a as ih =>
      rw [anyM_cons_eq]
      exact (h a List.mem_cons_self).orElse (ih fun b hb => h b (List.mem_cons_of_mem a hb))

end Combining

section Visiting

variable {pair : Handle × Handle} {body : RelationM Bool}

/-- The walk `body` between entering and leaving a pair, if the guard admits it. -/
def visit (pair : Handle × Handle) (body : RelationM Bool) : RelationM Bool := do
  match ← modifyGet (·.enter pair) with
  | .entered =>
      let answer ← body
      set (← (← get).leave pair)
      return answer
  | _ => return false

/-- The guard inside a pair. -/
def inside (g : PairGuard) (pair : Handle × Handle) : PairGuard :=
  { g with
    visiting := pair :: g.visiting
    depth := g.depth + 1
    iterations := g.iterations + 1 }

/-- A guard of the walk admits a pair unless it is on the path, or a limit is hit. -/
theorem enter_eq {g : PairGuard} (hlimits : g.limits = Limits.assignability)
    (hroom : g.iterations + 1 ≤ maxAttempts) (pair : Handle × Handle) :
    g.enter pair =
      if Limits.assignability.maxDepth ≤ g.depth then
        (.depthExceeded, { g with iterations := g.iterations + 1, exceeded := true })
      else if pair ∈ g.visiting then
        (.cycle, { g with iterations := g.iterations + 1 })
      else
        (.entered, inside g pair) := by
  have hceiling : min (g.iterations + 1) Guard.iterationCeiling = g.iterations + 1 :=
    Nat.min_eq_left (Nat.le_trans hroom (by decide))
  have hattempts : ¬ Limits.assignability.maxIterations < g.iterations + 1 := Nat.not_lt.mpr hroom
  simp only [Guard.enter, hceiling, hlimits, hattempts, if_false, inside]

theorem SamePlace.inside {g h : PairGuard} (hplace : SamePlace g h) :
    SamePlace (inside g pair) (NominalGenerics.inside h pair) where
  limits := hplace.limits
  visiting := by simp only [NominalGenerics.inside, hplace.visiting]
  depth := by simp only [NominalGenerics.inside, hplace.depth]

section Entering

variable {g entered : PairGuard} {admission : Admission}

/-- If no limit is hit there was an attempt left. -/
theorem room_of_enter (hlimits : g.limits = Limits.assignability)
    (henter : g.enter pair = (admission, entered)) (hexceeded : entered.exceeded = false) :
    g.iterations + 1 ≤ maxAttempts := by
  obtain ⟨hiterations, hattempts, -⟩ := Guard.enter_limits henter
  have hadmission : admission ≠ .iterationExceeded := by
    rintro rfl
    obtain ⟨-, ⟨⟨⟩, -⟩ | ⟨⟨⟩, -⟩ | ⟨-, -, -, h⟩⟩ := Guard.enter_cases henter
    cases h.symm.trans hexceeded
  rw [ne_eq, hattempts, hiterations, hlimits] at hadmission
  have hceiling : Limits.assignability.maxIterations < Guard.iterationCeiling := by decide
  simp only [maxAttempts]
  omega

/-- A pair that is refused although no limit is hit is on the path. -/
theorem cycle_of_enter (hlimits : g.limits = Limits.assignability)
    (henter : g.enter pair = (admission, entered)) (hrefused : admission ≠ .entered)
    (hexceeded : entered.exceeded = false) :
    pair ∈ g.visiting ∧ g.depth < Limits.assignability.maxDepth ∧
      entered = { g with iterations := g.iterations + 1 } := by
  rw [enter_eq hlimits (room_of_enter hlimits henter hexceeded)] at henter
  split at henter
  · cases henter
    cases hexceeded
  · split at henter
    · next hdepth hmem =>
        cases henter
        exact ⟨hmem, Nat.lt_of_not_le hdepth, rfl⟩
    · cases henter
      exact absurd rfl hrefused

/-- A pair that is entered was not on the path. -/
theorem inside_of_enter (hlimits : g.limits = Limits.assignability)
    (hroom : g.iterations + 1 ≤ maxAttempts) (henter : g.enter pair = (.entered, entered)) :
    pair ∉ g.visiting ∧ g.depth < Limits.assignability.maxDepth ∧ entered = inside g pair := by
  rw [enter_eq hlimits hroom] at henter
  split at henter
  · cases henter
  · split at henter
    · cases henter
    · next hdepth hmem =>
        cases henter
        exact ⟨hmem, Nat.lt_of_not_le hdepth, rfl⟩

theorem enter_inside (hlimits : g.limits = Limits.assignability)
    (hroom : g.iterations + 1 ≤ maxAttempts) (hdepth : g.depth < Limits.assignability.maxDepth)
    (hmem : pair ∉ g.visiting) : g.enter pair = (.entered, inside g pair) := by
  rw [enter_eq hlimits hroom, if_neg (Nat.not_le.mpr hdepth), if_neg hmem]

theorem run_visit_cycle (hlimits : g.limits = Limits.assignability)
    (hroom : g.iterations + 1 ≤ maxAttempts) (hdepth : g.depth < Limits.assignability.maxDepth)
    (hmem : pair ∈ g.visiting) :
    (visit pair body).run g = .ok (false, { g with iterations := g.iterations + 1 }) := by
  have henter : g.enter pair = (.cycle, { g with iterations := g.iterations + 1 }) := by
    rw [enter_eq hlimits hroom, if_neg (Nat.not_le.mpr hdepth), if_pos hmem]
  have hrefused : (modifyGet (·.enter pair) : RelationM Admission).run g =
      .ok (.cycle, { g with iterations := g.iterations + 1 }) := congrArg Except.ok henter
  exact run_bind_eq_ok.mpr ⟨.cycle, _, hrefused, rfl⟩

end Entering

/-- What a visit that comes to an end has done: it was refused, or it went through its body, after
which the pair was left. -/
theorem visit_run (hbody : Replays body) {g g' : PairGuard} {b : Bool}
    (hrun : (visit pair body).run g = .ok (b, g')) :
    ∃ admission entered, g.enter pair = (admission, entered) ∧
      ((admission ≠ .entered ∧ b = false ∧ g' = entered) ∨
        (admission = .entered ∧ ∃ left, body.run entered = .ok (b, left) ∧
          g' = { left with visiting := g.visiting, depth := g.depth })) := by
  obtain ⟨admission, entered, henter⟩ : ∃ admission entered,
      g.enter pair = (admission, entered) := ⟨_, _, rfl⟩
  refine ⟨admission, entered, henter, ?_⟩
  have hentered : (modifyGet (·.enter pair) : RelationM Admission).run g =
      .ok (admission, entered) := congrArg Except.ok henter
  obtain ⟨_, _, hfirst, hrest⟩ := run_bind_eq_ok.mp hrun
  cases hentered.symm.trans hfirst
  cases admission with
  | entered =>
      obtain ⟨-, ⟨-, -, -, hvisiting, hdepth, -⟩ | ⟨⟨⟩, -⟩ | ⟨⟨⟩, -⟩⟩ := Guard.enter_cases henter
      obtain ⟨answer, left, hanswer, hend⟩ := run_bind_eq_ok.mp hrest
      obtain ⟨_, _, hget, hend⟩ := run_bind_eq_ok.mp hend
      cases hget
      obtain ⟨after, _, hlift, hend⟩ := run_bind_eq_ok.mp hend
      obtain ⟨hleave, rfl⟩ := run_lift_eq_ok.mp hlift
      cases hend
      have hplace := (hbody.place hanswer).1
      rw [Guard.leave_head (hplace.visiting.trans hvisiting), Except.ok.injEq] at hleave
      refine Or.inr ⟨rfl, left, hanswer, ?_⟩
      rw [← hleave, hplace.depth, hdepth, Nat.add_sub_cancel]
  | cycle =>
      cases hrest
      exact Or.inl ⟨by simp, rfl, rfl⟩
  | depthExceeded =>
      cases hrest
      exact Or.inl ⟨by simp, rfl, rfl⟩
  | iterationExceeded =>
      cases hrest
      exact Or.inl ⟨by simp, rfl, rfl⟩

/-- A visit goes through its body and leaves the pair. -/
theorem run_visit {g entered left : PairGuard} {b : Bool}
    (henter : g.enter pair = (.entered, entered)) (hplace : SamePlace entered left)
    (hbody : body.run entered = .ok (b, left)) :
    (visit pair body).run g = .ok (b, { left with visiting := g.visiting, depth := g.depth }) := by
  obtain ⟨-, ⟨-, -, -, hvisiting, hdepth, -⟩ | ⟨⟨⟩, -⟩ | ⟨⟨⟩, -⟩⟩ := Guard.enter_cases henter
  have hentered : (modifyGet (·.enter pair) : RelationM Admission).run g =
      .ok (.entered, entered) := congrArg Except.ok henter
  have hleave : left.leave pair =
      .ok { left with visiting := g.visiting, depth := g.depth } := by
    rw [Guard.leave_head (hplace.visiting.trans hvisiting), hplace.depth, hdepth,
      Nat.add_sub_cancel]
  refine run_bind_eq_ok.mpr ⟨.entered, entered, hentered, run_bind_eq_ok.mpr ⟨b, left, hbody,
    run_bind_eq_ok.mpr ⟨left, left, rfl, run_bind_eq_ok.mpr ⟨_, left, ?_, rfl⟩⟩⟩⟩
  exact run_lift_eq_ok.mpr ⟨hleave, rfl⟩

theorem replays_visit (hbody : Replays body) : Replays (visit pair body) where
  place {g g' b} hrun := by
    obtain ⟨admission, entered, henter, ⟨hrefused, -, rfl⟩ | ⟨rfl, left, hleft, rfl⟩⟩ :=
      visit_run hbody hrun
    · obtain ⟨hlimits, ⟨rfl, -⟩ | ⟨-, -, hvisiting, hdepth, hexceeded⟩ |
        ⟨-, hvisiting, hdepth, hexceeded⟩⟩ := Guard.enter_cases henter
      · exact absurd rfl hrefused
      · exact ⟨⟨hlimits, hvisiting, hdepth⟩, fun h => hexceeded.trans h⟩
      · exact ⟨⟨hlimits, hvisiting, hdepth⟩, fun _ => hexceeded⟩
    · obtain ⟨hlimits, ⟨-, -, -, -, -, hexceeded⟩ | ⟨⟨⟩, -⟩ | ⟨⟨⟩, -⟩⟩ := Guard.enter_cases henter
      obtain ⟨hplace, hsticky⟩ := hbody.place hleft
      exact ⟨⟨hplace.limits.trans hlimits, rfl, rfl⟩, fun h => hsticky (hexceeded.trans h)⟩
  replay {g g' b} hrun hg hwithin := by
    obtain ⟨admission, entered, henter, hend⟩ := visit_run hbody hrun
    have hexceeded : entered.exceeded = false := by
      rcases hend with ⟨-, -, rfl⟩ | ⟨-, left, hleft, rfl⟩
      · exact hwithin
      · exact hbody.within hleft hwithin
    have hroom : g.iterations + 1 ≤ maxAttempts := room_of_enter hg.limits henter hexceeded
    rcases hend with ⟨hrefused, rfl, rfl⟩ | ⟨rfl, left, hleft, rfl⟩
    · obtain ⟨hmem, hdepth, rfl⟩ := cycle_of_enter hg.limits henter hrefused hexceeded
      refine ⟨⟨hg.limits, hroom⟩, 1, rfl, fun h hplace hroom' => ?_⟩
      exact run_visit_cycle (hplace.limits.trans hg.limits) hroom' (hplace.depth ▸ hdepth)
        (hplace.visiting ▸ hmem)
    · obtain ⟨hmem, hdepth, rfl⟩ := inside_of_enter hg.limits hroom henter
      obtain ⟨hleftBudget, cost, hcost, hagain⟩ := hbody.replay hleft ⟨hg.limits, hroom⟩ hwithin
      refine ⟨⟨hleftBudget.limits, hleftBudget.iterations⟩, 1 + cost, ?_, fun h hplace hroom' => ?_⟩
      · simp only [inside] at hcost
        simp only [hcost, Nat.add_assoc]
      · have henter' := enter_inside (hplace.limits.trans hg.limits) (by omega)
          (hplace.depth ▸ hdepth) (hplace.visiting ▸ hmem)
        have hbody' := hagain (inside h pair) hplace.inside (by simp only [inside]; omega)
        rw [run_visit henter' (.spend (.refl _) _) hbody']
        simp [inside, Nat.add_assoc]

/-- If a pair is entered from some place, then a visit from there that hits no limit enters it. -/
theorem steady_visit (hbody : Steady body) : Steady (visit pair body) where
  toReplays := replays_visit hbody.toReplays
  confirms {g g' h h' b} hplace hg hh hwithin := by
    obtain ⟨_, entered, henter, ⟨-, ⟨⟩, -⟩ | ⟨rfl, left, hleft, -⟩⟩ :=
      visit_run hbody.toReplays hg
    obtain ⟨admission, entered', henter', hend⟩ := visit_run hbody.toReplays hh
    obtain ⟨hlimits, ⟨-, hmem, -, hvisiting, hdepth, -⟩ | ⟨⟨⟩, -⟩ | ⟨⟨⟩, -⟩⟩ :=
      Guard.enter_cases henter
    obtain ⟨hlimits', ⟨rfl, -, -, hvisiting', hdepth', -⟩ | ⟨-, hcycle, -⟩ |
      ⟨hrefused, -, -, hexceeded⟩⟩ := Guard.enter_cases henter'
    · obtain ⟨hne, -⟩ | ⟨-, left', hleft', rfl⟩ := hend
      · exact absurd rfl hne
      · refine hbody.confirms ⟨?_, ?_, ?_⟩ hleft hleft' hwithin
        · rw [hlimits', hlimits, hplace.limits]
        · rw [hvisiting', hvisiting, hplace.visiting]
        · rw [hdepth', hdepth, hplace.depth]
    · exact absurd (hplace.visiting ▸ hcycle) hmem
    · obtain ⟨-, -, rfl⟩ | ⟨rfl, -⟩ := hend
      · cases hexceeded.symm.trans hwithin
      · cases hrefused

end Visiting

namespace Assignability

section Rules

variable {store : Store} {sub : Substitution} {rel : Handle → Handle → RelationM Bool}

theorem steady_element (hrel : ∀ a b, Steady (rel a b)) (source target : Handle) :
    Steady (element store sub rel source target) := by
  refine (steady_query (sub.equal store source target)).orElse ?_
  refine steady_read fun source' => steady_read fun target' => ?_
  refine (steady_query (store.isReferenceType source')).andThen ?_
  exact (steady_query (store.isReferenceType target')).andThen (hrel source' target')

theorem steady_argument (hrel : ∀ a b, Steady (rel a b)) (definition source target : Handle)
    (position : Nat) : Steady (argument store sub rel definition source target position) := by
  refine steady_read fun variance => ?_
  cases variance with
  | invariant => exact steady_query _
  | covariant => exact steady_element hrel source target
  | contravariant => exact steady_element hrel target source

theorem steady_arguments (hrel : ∀ a b, Steady (rel a b)) (definition source target : Handle) :
    Steady (arguments store sub rel definition source target) := by
  refine steady_read fun sourceArgs => steady_read fun targetArgs => ?_
  split
  · exact steady_allM fun p _ => steady_argument hrel definition p.1.1 p.1.2 p.2
  · exact steady_pure false

theorem steady_sequence (hrel : ∀ a b, Steady (rel a b)) (sourceElement target : Handle) :
    Steady (sequence store sub rel sourceElement target) := by
  refine (steady_query (isSequenceInstance store target)).andThen ?_
  refine steady_read fun args => ?_
  split
  · exact steady_element hrel sourceElement _
  · exact steady_pure false

theorem steady_nominal (hrel : ∀ a b, Steady (rel a b)) (source target : Handle) :
    Steady (nominal store sub rel source target) := by
  refine steady_read fun definition => steady_read fun supers => ?_
  refine steady_anyM fun candidate _ => steady_read fun candidateDefinition => ?_
  split
  · exact steady_arguments hrel definition candidate target
  · exact steady_pure false

theorem steady_rules (hrel : ∀ a b, Steady (rel a b)) (source target : Handle) :
    Steady (rules store sub rel source target) := by
  have hnominal : Steady (nominal store sub rel source target) :=
    steady_nominal hrel source target
  rw [rules]
  split
  · exact steady_pure true
  refine (steady_query (wraps store sub source target)).orElse ?_
  refine steady_read fun sourceArray => steady_read fun targetArray => ?_
  split
  · split
    · exact steady_element hrel _ _
    · exact steady_pure false
  · split
    · exact (steady_sequence hrel _ target).orElse hnominal
    · exact hnominal
  · exact steady_pure false
  · exact hnominal

theorem steady_step (hrel : ∀ a b, Steady (rel a b)) (source target : Handle) :
    Steady (step store sub rel source target) := by
  refine steady_read fun source' => steady_read fun target' => ?_
  split
  · exact steady_pure true
  · exact steady_visit (steady_rules hrel source' target')

theorem steady_relate (store : Store) (sub : Substitution) (fuel : Nat) (source target : Handle) :
    Steady (relate store sub fuel source target) := by
  induction fuel generalizing source target with
  | zero => exact steady_step (fun _ _ => steady_fault .outOfFuel) source target
  | succ fuel ih => exact steady_step ih source target

/-- Every assignability walk is steady, whatever the store and the substitution. -/
theorem steady_check (store : Store) (sub : Substitution) (source target : Handle) :
    Steady (check store sub source target) :=
  steady_relate store sub _ source target

end Rules

end Assignability

section Sequences

variable {α : Type}

/-- The guard with which every walk starts that shares it with no other. -/
abbrev freshGuard : PairGuard := Guard.ofLimits Limits.assignability

theorem inBudget_fresh : InBudget freshGuard := ⟨rfl, Nat.zero_le _⟩

/-- On a guard of its own the walk gives the answer and hits no limit. -/
def AnswersAlone (walk : RelationM Bool) (answer : Bool) : Prop :=
  ∃ attempts, walk.run freshGuard = .ok (answer, { freshGuard with iterations := attempts })

/-- The attempts that the walk makes on a guard of its own. -/
def spent (walk : RelationM Bool) : Nat :=
  match walk.run freshGuard with
  | .ok (_, guard) => guard.iterations
  | .error _ => 0

variable {walk : RelationM Bool} {answer : Bool} {g g' : PairGuard}

theorem AnswersAlone.runFresh (h : AnswersAlone walk answer) : walk.runFresh = .ok answer := by
  obtain ⟨attempts, hrun⟩ := h
  rw [RelationM.runFresh, hrun]
  rfl

/-- A walk that hits no limit on a shared guard answers as it does alone, and spends as much. -/
theorem Replays.alone (hwalk : Replays walk) (hplace : SamePlace freshGuard g) (hg : InBudget g)
    (hrun : walk.run g = .ok (answer, g')) (hwithin : g'.exceeded = false) :
    AnswersAlone walk answer ∧ InBudget g' ∧ SamePlace freshGuard g' ∧
      g'.iterations = g.iterations + spent walk := by
  obtain ⟨hg', cost, hcost, hagain⟩ := hwalk.replay hrun hg hwithin
  have hroom : freshGuard.iterations + cost ≤ maxAttempts := by
    have := hg'.iterations
    simp only [Guard.ofLimits]
    omega
  have hfresh := hagain freshGuard hplace.symm hroom
  have hspent : spent walk = cost := by
    rw [spent, hfresh]
    exact Nat.zero_add cost
  exact ⟨⟨_, hfresh⟩, hg', hplace.trans (hwalk.place hrun).1, by rw [hcost, hspent]⟩

/-- A walk that answers alone answers in the same way on every shared guard that has enough attempts
left for it. -/
theorem AnswersAlone.run (h : AnswersAlone walk answer) (hwalk : Replays walk)
    (hplace : SamePlace freshGuard g) (hroom : g.iterations + spent walk ≤ maxAttempts) :
    walk.run g = .ok (answer, { g with iterations := g.iterations + spent walk }) := by
  obtain ⟨attempts, hrun⟩ := h
  obtain ⟨-, cost, hcost, hagain⟩ := hwalk.replay hrun inBudget_fresh rfl
  have hspent : spent walk = cost := by
    rw [spent, hrun]
    exact hcost.trans (Nat.zero_add cost)
  exact hspent ▸ hagain g hplace (hspent ▸ hroom)

variable {f : α → RelationM Bool} {as bs : List α}

/-- A sequence of walks that hits no limit: all its walks answer `true` alone, or one of them, which
is as far as the sequence went, answers `false`. -/
theorem allM_alone (hf : ∀ a ∈ as, Steady (f a)) (hplace : SamePlace freshGuard g)
    (hg : InBudget g) (hrun : (as.allM f).run g = .ok (answer, g'))
    (hwithin : g'.exceeded = false) :
    (answer = true ∧ (∀ a ∈ as, AnswersAlone (f a) true) ∧ g'.iterations ≤ maxAttempts ∧
        g'.iterations = g.iterations + (as.map fun a => spent (f a)).sum) ∨
      (answer = false ∧ ∃ a ∈ as, AnswersAlone (f a) false) := by
  induction as generalizing g with
  | nil =>
      cases hrun
      exact Or.inl ⟨rfl, by simp, hg.iterations, rfl⟩
  | cons a as ih =>
      rw [allM_cons_eq] at hrun
      obtain ⟨first, mid, hfirst, hrest⟩ := run_bind_eq_ok.mp hrun
      have hsteady := hf a List.mem_cons_self
      have hsteadies : ∀ b ∈ as, Steady (f b) := fun b hb => hf b (List.mem_cons_of_mem a hb)
      cases first with
      | false =>
          obtain ⟨rfl, rfl⟩ := run_pure_eq_ok.mp hrest
          obtain ⟨halone, -⟩ := hsteady.alone hplace hg hfirst hwithin
          exact Or.inr ⟨rfl, a, List.mem_cons_self, halone⟩
      | true =>
          have hrest : (as.allM f).run mid = .ok (answer, g') := hrest
          obtain ⟨halone, hmid, hplace', hspent⟩ :=
            hsteady.alone hplace hg hfirst ((steady_allM hsteadies).within hrest hwithin)
          rcases ih hsteadies hplace' hmid hrest with
            ⟨rfl, hall, hbudget, hsum⟩ | ⟨rfl, b, hb, hfalse⟩
          · refine Or.inl ⟨rfl, List.forall_mem_cons.mpr ⟨halone, hall⟩, hbudget, ?_⟩
            rw [hsum, hspent, List.map_cons, List.sum_cons, Nat.add_assoc]
          · exact Or.inr ⟨rfl, b, List.mem_cons_of_mem a hb, hfalse⟩

/-- Walks that all answer `true` alone do so one after the other, if there are enough attempts. -/
theorem run_allM_of_alone (hf : ∀ a ∈ as, Steady (f a)) (hall : ∀ a ∈ as, AnswersAlone (f a) true)
    (hplace : SamePlace freshGuard g)
    (hroom : g.iterations + (as.map fun a => spent (f a)).sum ≤ maxAttempts) :
    (as.allM f).run g =
      .ok (true, { g with iterations := g.iterations + (as.map fun a => spent (f a)).sum }) := by
  induction as generalizing g with
  | nil => rfl
  | cons a as ih =>
      rw [List.map_cons, List.sum_cons] at hroom ⊢
      have hfirst := (hall a List.mem_cons_self).run (hf a List.mem_cons_self).toReplays hplace
        (by omega)
      have hrest := ih (fun b hb => hf b (List.mem_cons_of_mem a hb))
        (fun b hb => hall b (List.mem_cons_of_mem a hb))
        (hplace.spend (g.iterations + spent (f a))) (by simp only; omega)
      simp only [Nat.add_assoc] at hrest
      rw [allM_cons_eq]
      exact run_bind_eq_ok.mpr ⟨true, _, hfirst, hrest⟩

/-- A walk that answers `false` alone keeps every sequence that it is in from answering `true`. -/
theorem allM_ne_true (hf : ∀ a ∈ as, Steady (f a)) {a : α} (ha : a ∈ as)
    (hfalse : AnswersAlone (f a) false) (hplace : SamePlace freshGuard g) :
    (as.allM f).run g ≠ .ok (true, g') := by
  intro hrun
  induction as generalizing g with
  | nil => cases ha
  | cons b as ih =>
      rw [allM_cons_eq] at hrun
      obtain ⟨first, mid, hfirst, hrest⟩ := run_bind_eq_ok.mp hrun
      cases first with
      | false => cases (run_pure_eq_ok.mp hrest).1
      | true =>
          have hsteady := hf b List.mem_cons_self
          rcases List.mem_cons.mp ha with rfl | ha
          · obtain ⟨_, halone⟩ := hfalse
            cases hsteady.confirms hplace.symm hfirst halone rfl
          · exact ih (fun c hc => hf c (List.mem_cons_of_mem b hc)) ha
              (hplace.trans (hsteady.place hfirst).1) hrest

/-- The order of a sequence of walks does not matter, if it hits no limit in one of the orders. -/
theorem allM_perm (hf : ∀ a ∈ as, Steady (f a)) (hperm : as.Perm bs)
    (hrun : (as.allM f).run freshGuard = .ok (answer, g)) (hwithin : g.exceeded = false)
    {answer' : Bool} (hrun' : (bs.allM f).run freshGuard = .ok (answer', g')) :
    answer' = answer := by
  have hf' : ∀ b ∈ bs, Steady (f b) := fun b hb => hf b (hperm.mem_iff.mpr hb)
  rcases allM_alone hf (.refl _) inBudget_fresh hrun hwithin with
    ⟨rfl, hall, hbudget, hsum⟩ | ⟨rfl, a, ha, hfalse⟩
  · have hsame : (bs.map fun b => spent (f b)).sum = (as.map fun a => spent (f a)).sum :=
      (hperm.map _).sum_nat.symm
    have hagain := run_allM_of_alone hf' (fun b hb => hall b (hperm.mem_iff.mpr hb)) (.refl _)
      (by rw [hsame, ← hsum]; exact hbudget)
    cases hagain.symm.trans hrun'
    rfl
  · cases answer' with
    | false => rfl
    | true => exact absurd hrun' (allM_ne_true hf' (hperm.mem_iff.mp ha) hfalse (.refl _))

end Sequences

namespace ConstraintCheck

/-- Checks of single constraints are steady. -/
theorem steady_satisfies (store : Store) (sub : Substitution) (arg : Handle)
    (constraint : Constraint) : Steady (satisfies store sub arg constraint) := by
  cases constraint with
  | valueType =>
      refine (steady_query (store.isValueType arg)).andThen ?_
      exact steady_read fun wraps => steady_pure !wraps
  | referenceType => exact steady_query _
  | defaultConstructible => exact steady_query _
  | base target => exact Assignability.steady_check store sub arg target

end ConstraintCheck

end NominalGenerics
