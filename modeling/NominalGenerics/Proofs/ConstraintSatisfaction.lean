import NominalGenerics.ConstraintCheck
import NominalGenerics.Proofs.AssignabilityCheck
import NominalGenerics.Proofs.Store.ConstraintTargets

/-!
# Constraint checks decide satisfaction

`Satisfied` says what each kind of constraint asks of a type argument. A base constraint asks for
assignability under the substitution of the check. All constraints of a declaration are checked on
one guard, so the answer of the check is exact if none of its walks hits a limit.
-/

namespace NominalGenerics

open Assignability

variable {store : Store} {sub : Substitution} {arg : Handle}

theorem Query.answers_self {x : Query Bool} (h : ∃ b, x = .ok b) : Answers x (x = .ok true) := by
  obtain ⟨b, rfl⟩ := h
  exact ⟨b, rfl, by simp⟩

/-- Queries that answer one question are the same. -/
theorem Query.Answers.eq {x y : Query Bool} {P Q : Prop} (hx : Answers x P) (hy : Answers y Q)
    (hPQ : P ↔ Q) : x = y := by
  obtain ⟨b, rfl, hb⟩ := hx
  obtain ⟨b', rfl, hb'⟩ := hy
  rw [Bool.eq_iff_iff.mpr (hb.trans (hPQ.trans hb'.symm))]

namespace ConstraintCheck

/-- The type argument satisfies the constraint, whose target is read under the substitution. -/
def Satisfied (store : Store) (sub : Substitution) (arg : Handle) : Constraint → Prop
  | .valueType => store.isValueType arg = .ok true ∧ store.isOptionalWrapper arg = .ok false
  | .referenceType => store.isReferenceType arg = .ok true
  | .defaultConstructible => isDefaultConstructible store arg = .ok true
  | .base target => Sub store sub arg target

/-- Each type argument satisfies the constraints of the parameter at its position. -/
def AllSatisfied (store : Store) (sub : Substitution) (params args : List Handle) : Prop :=
  ∀ (i : Nat) param arg info, params[i]? = some param → args[i]? = some arg →
    store.param? param = .ok (some info) →
      ∀ constraint ∈ info.constraints, Satisfied store sub arg constraint

/-- The walks of a constraint check, which share one guard, hit no limit. -/
def WithinLimits (store : Store) (declaration : Declaration) (args : List Handle) : Prop :=
  ∀ params sub, binding? store declaration args = .ok (some (params, sub)) →
    ∀ answer guard, ((params.zip args).allM fun (param, arg) =>
      satisfiesAll store sub param arg).run (Guard.ofLimits Limits.assignability) =
        .ok (answer, guard) → guard.exceeded = false

/-- Whether the walks of a constraint check hit no limit. -/
def isWithinLimits (store : Store) (declaration : Declaration) (args : List Handle) : Bool :=
  match binding? store declaration args with
  | .ok (some (params, sub)) =>
      match ((params.zip args).allM fun (param, arg) =>
        satisfiesAll store sub param arg).run (Guard.ofLimits Limits.assignability) with
      | .ok (_, guard) => !guard.exceeded
      | .error _ => true
  | _ => true

theorem withinLimits_of_check {declaration : Declaration} {args : List Handle}
    (h : isWithinLimits store declaration args = true) : WithinLimits store declaration args := by
  intro params sub hbinding answer guard hrun
  simp only [isWithinLimits, hbinding, hrun] at h
  simpa using h

theorem satisfies_decides (hs : store.WellFormed) (hsub : sub.BindsClosed store)
    (harg : arg < store.size) {constraint : Constraint}
    (htarget : ∀ target, constraint = .base target → target < store.size) :
    Decides Limits.assignability [] (satisfies store sub arg constraint)
      (Satisfied store sub arg constraint) (Satisfied store sub arg constraint) := by
  obtain ⟨entry, hentry⟩ := Store.entry_of_lt harg
  have hflags : store.flags arg = .ok entry.flags := Store.query_of_entry hentry (·.flags)
  cases constraint with
  | valueType =>
      have hvalue : store.isValueType arg = .ok entry.flags.valueType := by
        rw [Store.isValueType, hflags]
        rfl
      obtain ⟨b, hb⟩ := isOptionalWrapper_total harg
      refine decides_read hvalue ?_
      cases hkind : entry.flags.valueType with
      | false => exact decides_pure (by simp) (by simp [Satisfied, hvalue, hkind])
      | true =>
          exact decides_read hb (decides_pure (by simp [Satisfied, hvalue, hkind, hb])
            (by simp [Satisfied, hvalue, hkind, hb]))
  | referenceType => exact decides_query (Query.answers_self (isReferenceType_total harg))
  | defaultConstructible =>
      refine decides_query (Query.answers_self ⟨!entry.flags.abstract &&
        (entry.flags.valueType || entry.flags.defaultConstructor), ?_⟩)
      rw [isDefaultConstructible, hflags]
      rfl
  | base target =>
      exact (relate_decides hs hsub (Nat.le_add_left _ _) harg (htarget target rfl)).imp id
        Sub.avoiding_nil

theorem satisfiesAll_decides (hs : store.WellFormed) (hconstraints : store.ConstraintsInRange)
    (hsub : sub.BindsClosed store) {param : Handle} (hparam : param < store.size)
    (harg : arg < store.size) :
    Decides Limits.assignability [] (satisfiesAll store sub param arg)
      (∀ info, store.param? param = .ok (some info) →
        ∀ constraint ∈ info.constraints, Satisfied store sub arg constraint)
      (∀ info, store.param? param = .ok (some info) →
        ∀ constraint ∈ info.constraints, Satisfied store sub arg constraint) := by
  obtain ⟨entry, hentry⟩ := Store.entry_of_lt hparam
  have hinfo : store.param? param = .ok entry.param? := Store.query_of_entry hentry (·.param?)
  refine decides_read hinfo ?_
  rw [hinfo]
  cases hshape : entry.shape with
  | parameter info =>
      simp only [Entry.param?, hshape]
      have hall : Decides Limits.assignability []
          (info.constraints.allM (satisfies store sub arg))
          (∀ constraint ∈ info.constraints, Satisfied store sub arg constraint)
          (∀ constraint ∈ info.constraints, Satisfied store sub arg constraint) := by
        refine decides_allM fun constraint hconstraint => satisfies_decides hs hsub harg ?_
        rintro target rfl
        exact hconstraints hentry hshape hconstraint
      refine hall.imp ?_ fun h => h info rfl
      rintro h info ⟨⟩
      exact h
  | _ =>
      simp only [Entry.param?, hshape]
      exact decides_pure (by simp) (by simp)

end ConstraintCheck

/-- Within the limits, a constraint check under closed type arguments answers whether they satisfy the
constraints. -/
theorem Store.satisfiesConstraints_answers (hs : store.WellFormed)
    (hconstraints : store.ConstraintsInRange) {declaration : Declaration} {params args : List Handle}
    (hbinding : ConstraintCheck.binding? store declaration args = .ok (some (params, sub)))
    (hparams : ∀ param ∈ params, param < store.size) (hsub : sub.BindsClosed store)
    (hargs : ∀ arg ∈ args, arg < store.size)
    (hlimits : ConstraintCheck.WithinLimits store declaration args) :
    Query.Answers (store.satisfiesConstraints declaration args)
      (params.length = args.length ∧ ConstraintCheck.AllSatisfied store sub params args) := by
  rw [Store.satisfiesConstraints, hbinding, Query.ok_bind]
  dsimp only
  split
  · next hlength =>
      have hdecides := decides_allM fun pair (hpair : pair ∈ params.zip args) =>
        ConstraintCheck.satisfiesAll_decides hs hconstraints hsub
          (hparams _ (List.of_mem_zip (show (pair.1, pair.2) ∈ _ from hpair)).1)
          (hargs _ (List.of_mem_zip (show (pair.1, pair.2) ∈ _ from hpair)).2)
      have hfresh : OnPath Limits.assignability [] (Guard.ofLimits Limits.assignability) :=
        ⟨rfl, rfl, rfl⟩
      obtain ⟨answer, guard, hrun, hon, -, hsound, hcomplete⟩ := hdecides _ hfresh
      have hexceeded := hlimits params sub hbinding answer guard hrun
      refine ⟨answer, ?_, ?_, ?_⟩
      · rw [RelationM.runFresh, hrun, Query.ok_bind]
        simp [Guard.release, hon.visiting, pure, Except.pure]
      · intro hanswer
        refine ⟨hlength, fun i param arg info hparam harg hinfo => ?_⟩
        have hpair : (param, arg) ∈ params.zip args :=
          List.mem_of_getElem? (List.getElem?_zip_eq_some.mpr ⟨hparam, harg⟩)
        exact hsound hanswer (param, arg) hpair info hinfo
      · rintro ⟨-, hall⟩
        cases answer with
        | true => rfl
        | false =>
            refine absurd (fun pair hpair info hinfo => ?_) (hcomplete rfl hexceeded)
            obtain ⟨i, hi⟩ := List.mem_iff_getElem?.mp hpair
            obtain ⟨hparam, harg⟩ := List.getElem?_zip_eq_some.mp
              (show (params.zip args)[i]? = some (pair.1, pair.2) from hi)
            exact hall i pair.1 pair.2 info hparam harg hinfo
  · next hlength => exact Query.answers_false fun h => hlength h.1

end NominalGenerics
