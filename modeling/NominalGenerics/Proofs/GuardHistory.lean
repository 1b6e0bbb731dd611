import Mathlib.Data.Finset.Card
import Mathlib.Tactic.IntervalCases
import NominalGenerics.Proofs.Computation
import NominalGenerics.Proofs.Guard

/-!
# Histories of a guard

A guard is called to enter keys and to leave them again, in any order and nesting, with refused
attempts in between. A `Guard.History` is what a caller sees of this: the calls and their answers.
It tells which keys are being visited, how many attempts there were and what the next one is due to
be answered, without a look at the guard.

`Guard.InStep` says that the guard has counted what its history tells. It holds of a new guard and
every call keeps it, so the two stay in step over every sequence of calls that leaves only keys that
are being visited (`Guard.run_inStep`).
-/

namespace NominalGenerics.Guard

/-- A call on a guard. -/
inductive Call (κ : Type) where
  | enter (key : κ)
  | leave (key : κ)
  deriving DecidableEq

/-- A call that was made, an attempt to enter with its answer. -/
inductive Event (κ : Type) where
  | attempt (key : κ) (admission : Admission)
  | left (key : κ)
  deriving DecidableEq

variable {κ : Type}

/-- The call that an event records. -/
def Event.call : Event κ → Call κ
  | .attempt key _ => .enter key
  | .left key => .leave key

def Event.isAttempt : Event κ → Bool
  | .attempt _ _ => true
  | .left _ => false

def Event.isEntered : Event κ → Bool
  | .attempt _ admission => admission = .entered
  | .left _ => false

/-- Whether the event is an attempt that hit a limit. -/
def Event.isExceeded : Event κ → Bool
  | .attempt _ admission => admission.isExceeded
  | .left _ => false

/-- What happened to a guard since it was made, most recent first. -/
abbrev History (κ : Type) := List (Event κ)

namespace History

/-- The number of attempts to enter a key. -/
def attempts (history : History κ) : Nat := history.countP Event.isAttempt

/-- The number of attempts that succeeded. -/
def admitted (history : History κ) : Nat := history.countP Event.isEntered

@[simp] theorem attempts_attempt (history : History κ) (key : κ) (admission : Admission) :
    History.attempts (.attempt key admission :: history) = history.attempts + 1 :=
  List.countP_cons_of_pos rfl

@[simp] theorem admitted_entered (history : History κ) (key : κ) :
    History.admitted (.attempt key .entered :: history) = history.admitted + 1 :=
  List.countP_cons_of_pos rfl

theorem admitted_refused (history : History κ) (key : κ) {admission : Admission}
    (h : admission ≠ .entered) :
    History.admitted (.attempt key admission :: history) = history.admitted :=
  List.countP_cons_of_neg (by simpa [Event.isEntered] using h)

/-- At most every attempt succeeded. -/
theorem admitted_le_attempts (history : History κ) : history.admitted ≤ history.attempts := by
  refine List.countP_mono_left fun event _ hentered => ?_
  cases event with
  | attempt key admission => rfl
  | left key => exact hentered

variable [DecidableEq κ]

/-- The keys that were entered and not left since. -/
def visited : History κ → Finset κ
  | [] => ∅
  | .attempt key admission :: earlier =>
      if admission = .entered then insert key (visited earlier) else visited earlier
  | .left key :: earlier => (visited earlier).erase key

@[simp] theorem visited_entered (history : History κ) (key : κ) :
    visited (.attempt key .entered :: history) = insert key history.visited := if_pos rfl

theorem visited_refused (history : History κ) (key : κ) {admission : Admission}
    (h : admission ≠ .entered) :
    visited (.attempt key admission :: history) = history.visited := if_neg h

/-- What the next attempt to enter `key` is answered. The iteration limit goes before the depth
limit, and both go before a key that is being visited. -/
def due (history : History κ) (limits : Limits) (key : κ) : Admission :=
  if limits.maxIterations < min (history.attempts + 1) iterationCeiling then .iterationExceeded
  else if limits.maxDepth ≤ history.visited.card then .depthExceeded
  else if key ∈ history.visited then .cycle
  else .entered

end History

variable [DecidableEq κ]

/-- The guard has counted what its history tells. -/
structure InStep (bounds : Limits) (history : History κ) (guard : Guard κ) : Prop where
  limits : guard.limits = bounds
  /-- The path lists the keys that are being visited, each once. -/
  visiting : guard.visiting.toFinset = history.visited
  nodup : guard.visiting.Nodup
  depth : guard.depth = history.visited.card
  depth_le : guard.depth ≤ bounds.maxDepth
  iterations : guard.iterations = min history.attempts iterationCeiling
  exceeded : guard.exceeded = true ↔ ∃ event ∈ history, event.isExceeded = true
  /-- Attempts beyond the limit are refused, unless their count stops at its ceiling before. -/
  admitted_le : bounds.maxIterations < iterationCeiling → history.admitted ≤ bounds.maxIterations

namespace InStep

variable {bounds : Limits} {history : History κ} {guard : Guard κ}

theorem mem_visiting (h : InStep bounds history guard) {key : κ} :
    key ∈ guard.visiting ↔ key ∈ history.visited := by
  rw [← h.visiting, List.mem_toFinset]

theorem start (bounds : Limits) : InStep bounds [] (ofLimits bounds : Guard κ) where
  limits := rfl
  visiting := rfl
  nodup := List.nodup_nil
  depth := rfl
  depth_le := Nat.zero_le _
  iterations := rfl
  exceeded := by simp [ofLimits]
  admitted_le _ := Nat.zero_le _

/-- The guard answers what is due. -/
theorem enter_eq_due (h : InStep bounds history guard) (key : κ) :
    (guard.enter key).1 = history.due bounds key := by
  have hcount : min (guard.iterations + 1) iterationCeiling =
      min (history.attempts + 1) iterationCeiling := by
    rw [h.iterations]
    omega
  simp only [enter, History.due, hcount, h.limits, h.depth, h.mem_visiting]
  split_ifs <;> rfl

/-- An attempt that is refused is counted, and sets `exceeded` if it hit a limit. -/
theorem refused (h : InStep bounds history guard) {guard' : Guard κ} {key : κ}
    {admission : Admission} (hrefused : admission ≠ .entered)
    (hlimits : guard'.limits = guard.limits) (hvisiting : guard'.visiting = guard.visiting)
    (hdepth : guard'.depth = guard.depth)
    (hiterations : guard'.iterations = min (history.attempts + 1) iterationCeiling)
    (hexceeded : guard'.exceeded = true ↔ admission.isExceeded = true ∨ guard.exceeded = true) :
    InStep bounds (.attempt key admission :: history) guard' where
  limits := hlimits.trans h.limits
  visiting := by rw [hvisiting, h.visiting, history.visited_refused key hrefused]
  nodup := hvisiting ▸ h.nodup
  depth := by rw [hdepth, h.depth, history.visited_refused key hrefused]
  depth_le := hdepth ▸ h.depth_le
  iterations := by rw [hiterations, History.attempts_attempt]
  exceeded := by rw [hexceeded, h.exceeded, List.exists_mem_cons_iff, Event.isExceeded]
  admitted_le hceiling := by
    rw [history.admitted_refused key hrefused]
    exact h.admitted_le hceiling

theorem enter (h : InStep bounds history guard) (key : κ) :
    InStep bounds (.attempt key (guard.enter key).1 :: history) (guard.enter key).2 := by
  rcases hanswer : guard.enter key with ⟨admission, guard'⟩
  obtain ⟨hcount, hlimit, -⟩ := enter_limits hanswer
  obtain ⟨hlimits, hcases⟩ := enter_cases hanswer
  have hiterations : guard'.iterations = min (history.attempts + 1) iterationCeiling := by
    rw [hcount, h.iterations]
    omega
  rcases hcases with ⟨rfl, hnew, hroom, hvisiting, hdepth, hexceeded⟩ |
    ⟨rfl, -, hvisiting, hdepth, hexceeded⟩ | ⟨hrefused, hvisiting, hdepth, hexceeded⟩
  · have hkey : key ∉ history.visited := mt h.mem_visiting.mpr hnew
    refine ⟨hlimits.trans h.limits, ?_, ?_, ?_, ?_, ?_, ?_, fun hceiling => ?_⟩
    · rw [hvisiting, List.toFinset_cons, h.visiting, History.visited_entered]
    · exact hvisiting ▸ h.nodup.cons hnew
    · rw [hdepth, h.depth, History.visited_entered, Finset.card_insert_of_notMem hkey]
    · rw [hdepth, ← h.limits]
      exact hroom
    · rw [hiterations, History.attempts_attempt]
    · simp [hexceeded, h.exceeded, Event.isExceeded, Admission.isExceeded]
    · -- The attempt was within the limit, and at most all attempts before it succeeded.
      have hwithin : ¬ guard.limits.maxIterations < guard'.iterations := by simp [← hlimit]
      have hbefore := history.admitted_le_attempts
      rw [h.limits, hiterations] at hwithin
      rw [History.admitted_entered]
      omega
  · exact h.refused nofun hlimits hvisiting hdepth hiterations
      (by simp [hexceeded, Admission.isExceeded])
  · have hne : admission ≠ .entered := by
      rintro rfl
      cases hrefused
    exact h.refused hne hlimits hvisiting hdepth hiterations (by simp [hexceeded, hrefused])

/-- A key that is being visited can be left. -/
theorem leave (h : InStep bounds history guard) {key : κ} (hkey : key ∈ history.visited) :
    ∃ guard', guard.leave key = .ok guard' ∧ InStep bounds (.left key :: history) guard' := by
  have hmem : key ∈ guard.visiting := h.mem_visiting.mpr hkey
  refine ⟨_, if_pos hmem, h.limits, ?_, h.nodup.erase key, ?_, ?_, h.iterations, ?_, ?_⟩
  · rw [History.visited, ← h.visiting]
    ext other
    simp [h.nodup.mem_erase_iff]
  · rw [History.visited, Finset.card_erase_of_mem hkey, h.depth]
  · exact (Nat.sub_le _ _).trans h.depth_le
  · simpa [Event.isExceeded] using h.exceeded
  · simpa [History.admitted, Event.isEntered] using h.admitted_le

end InStep

/-- Makes a call. -/
def perform (guard : Guard κ) : Call κ → Query (Event κ × Guard κ)
  | .enter key => return (.attempt key (guard.enter key).1, (guard.enter key).2)
  | .leave key => return (.left key, ← guard.leave key)

/-- Makes calls on a new guard, up to the first fault. -/
def run (limits : Limits) (calls : List (Call κ)) : Query (History κ × Guard κ) :=
  calls.foldlM (fun (history, guard) call => do
    let (event, guard) ← guard.perform call
    return (event :: history, guard)) ([], ofLimits limits)

theorem run_concat (limits : Limits) (calls : List (Call κ)) (call : Call κ) :
    run limits (calls ++ [call]) = (do
      let (history, guard) ← run limits calls
      let (event, guard) ← guard.perform call
      return (event :: history, guard)) := by
  simp only [run, List.foldlM_append, List.foldlM_cons, List.foldlM_nil, bind_pure]

/-- Only keys that are being visited are left. -/
def LeavesVisited (limits : Limits) (calls : List (Call κ)) : Prop :=
  ∀ (n : Nat) key, calls[n]? = some (.leave key) →
    ∀ history guard, run limits (calls.take n) = .ok (history, guard) → key ∈ history.visited

theorem LeavesVisited.init {limits : Limits} {calls : List (Call κ)} {call : Call κ}
    (h : LeavesVisited limits (calls ++ [call])) : LeavesVisited limits calls := by
  intro n key hkey history guard hrun
  have hn : n < calls.length := (List.getElem?_eq_some_iff.mp hkey).1
  refine h n key ?_ history guard ?_
  · rwa [List.getElem?_append_left hn]
  · rwa [List.take_append_of_le_length hn.le]

theorem run_concat_eq_ok {limits : Limits} {calls : List (Call κ)} {call : Call κ}
    {history : History κ} {guard guard' : Guard κ} {event : Event κ}
    (hrun : run limits calls = .ok (history, guard))
    (hcall : guard.perform call = .ok (event, guard')) :
    run limits (calls ++ [call]) = .ok (event :: history, guard') := by
  rw [run_concat, hrun, Query.ok_bind]
  dsimp only
  rw [hcall, Query.ok_bind]
  rfl

/-- No call faults over a sequence of calls that leaves only keys that are being visited. -/
theorem exists_run_inStep {limits : Limits} {calls : List (Call κ)}
    (hleaves : LeavesVisited limits calls) :
    ∃ history guard, run limits calls = .ok (history, guard) ∧
      history.reverse.map Event.call = calls ∧ InStep limits history guard := by
  induction calls using List.reverseRecOn with
  | nil => exact ⟨[], ofLimits limits, rfl, rfl, .start limits⟩
  | append_singleton calls call ih =>
      obtain ⟨history, guard, hrun, hcalls, hstep⟩ := ih hleaves.init
      cases call with
      | enter key =>
          refine ⟨_, _, run_concat_eq_ok hrun rfl, ?_, hstep.enter key⟩
          simp [hcalls, Event.call]
      | leave key =>
          have hkey : key ∈ history.visited :=
            hleaves calls.length key (by simp) history guard (by simpa using hrun)
          obtain ⟨guard', hleave, hnext⟩ := hstep.leave hkey
          have hcall : guard.perform (.leave key) = .ok (.left key, guard') := by
            rw [perform, hleave]
            rfl
          refine ⟨_, guard', run_concat_eq_ok hrun hcall, ?_, hnext⟩
          simp [hcalls, Event.call]

/-- A guard stays in step with its history. Over any sequence of calls that leaves only keys that
are being visited, no call faults and the guard has counted what the answers tell. The next attempt
is answered what is due, and changes the path and its length only if it succeeds. -/
theorem run_inStep (limits : Limits) (calls : List (Call κ))
    (hleaves : LeavesVisited limits calls) :
    ∃ history guard, run limits calls = .ok (history, guard) ∧
      history.reverse.map Event.call = calls ∧ InStep limits history guard ∧
      ∀ key, (guard.enter key).1 = history.due limits key ∧
        ((guard.enter key).1 ≠ .entered → (guard.enter key).2.visiting = guard.visiting ∧
          (guard.enter key).2.depth = guard.depth) := by
  obtain ⟨history, guard, hrun, hcalls, hstep⟩ := exists_run_inStep hleaves
  refine ⟨history, guard, hrun, hcalls, hstep, fun key => ⟨hstep.enter_eq_due key, ?_⟩⟩
  exact fun hrefused => enter_refused rfl hrefused

/-- Two keys on a path that allows no third. After one is left, an attempt at the other is a cycle,
and the attempt after the next is one too many. -/
def nestedCalls : List (Call Nat) :=
  [.enter 1, .enter 2, .enter 3, .leave 2, .enter 1, .enter 3, .enter 4]

/-- What `nestedCalls` are answered under limits of two keys and five attempts. -/
def nestedHistory : History Nat :=
  [.attempt 4 .iterationExceeded, .attempt 3 .entered, .attempt 1 .cycle, .left 2,
    .attempt 3 .depthExceeded, .attempt 2 .entered, .attempt 1 .entered]

theorem leavesVisited_nested : LeavesVisited ⟨2, 5⟩ nestedCalls := by
  intro n key hkey history guard hrun
  have hn : n < 7 := (List.getElem?_eq_some_iff.mp hkey).1
  obtain ⟨rfl, rfl⟩ : n = 3 ∧ key = 2 := by
    interval_cases n <;> simp [nestedCalls] at hkey ⊢
    exact hkey.symm
  cases hrun
  decide

theorem run_inStep_nested : LeavesVisited ⟨2, 5⟩ nestedCalls ∧
    ∃ guard, run ⟨2, 5⟩ nestedCalls = .ok (nestedHistory, guard) ∧ guard.depth = 2 ∧
      guard.iterations = 6 ∧ guard.exceeded = true ∧ History.admitted nestedHistory ≤ 5 ∧
      (guard.enter 1).1 = .iterationExceeded := by
  refine ⟨leavesVisited_nested, ?_⟩
  obtain ⟨history, guard, hrun, -, hstep, hnext⟩ :=
    run_inStep ⟨2, 5⟩ nestedCalls leavesVisited_nested
  obtain rfl : nestedHistory = history := by
    cases hrun
    rfl
  refine ⟨guard, hrun, hstep.depth, hstep.iterations, hstep.exceeded.mpr ?_,
    hstep.admitted_le (by decide), (hnext 1).1⟩
  exact ⟨_, List.mem_cons_self, rfl⟩

end NominalGenerics.Guard
