import NominalGenerics.Proofs.ConstraintSatisfaction
import NominalGenerics.Proofs.ConstraintTermination
import NominalGenerics.Proofs.SharedGuard
import NominalGenerics.Proofs.Store.Outgrowth
import Mathlib.Data.List.Perm.Basic

/-!
# Constraint checks are conjunctions

A constraint check runs the checks of single constraints one after the other on one guard. If it
hits no limit it accepts its arguments exactly if there are as many as parameters and each
constraint of each parameter holds when it is checked by itself, so the order of the constraints of
a type parameter does not change the answer. In an open type it decides whether there is an answer:
a constraint that does not hold may keep the check from another that has no end.

A store with its constraints in another order is `Store.mapConstraints`. Only the constraint check
itself reads the constraints of a type parameter, so all walks are the same in both stores.
-/

namespace NominalGenerics

open Assignability

namespace Entry

/-- The entry with other constraints, if it is a type parameter. -/
def mapConstraints (f : List Constraint → List Constraint) (entry : Entry) : Entry :=
  match entry.shape with
  | .parameter info =>
      { entry with shape := .parameter { info with constraints := f info.constraints } }
  | _ => entry

variable {f : List Constraint → List Constraint} {entry : Entry}

@[simp] theorem flags_mapConstraints : (entry.mapConstraints f).flags = entry.flags := by
  unfold mapConstraints
  split <;> rfl

@[simp] theorem base_mapConstraints : (entry.mapConstraints f).base = entry.base := by
  unfold mapConstraints
  split <;> rfl

@[simp] theorem interfaces_mapConstraints :
    (entry.mapConstraints f).interfaces = entry.interfaces := by
  unfold mapConstraints
  split <;> rfl

@[simp] theorem isOpen_mapConstraints : (entry.mapConstraints f).isOpen = entry.isOpen := by
  unfold mapConstraints
  split <;> rfl

@[simp] theorem definition?_mapConstraints {self : Handle} :
    (entry.mapConstraints f).definition? self = entry.definition? self := by
  unfold mapConstraints
  split
  · next h => simp only [definition?, h]
  · rfl

@[simp] theorem arguments_mapConstraints :
    (entry.mapConstraints f).arguments = entry.arguments := by
  unfold mapConstraints
  split
  · next h => simp only [arguments, h]
  · rfl

@[simp] theorem array?_mapConstraints : (entry.mapConstraints f).array? = entry.array? := by
  unfold mapConstraints
  split
  · next h => simp only [array?, h]
  · rfl

@[simp] theorem isParameter_mapConstraints :
    (entry.mapConstraints f).isParameter = entry.isParameter := by
  unfold mapConstraints
  split
  · next h => simp only [isParameter, h]
  · rfl

@[simp] theorem param?_mapConstraints :
    (entry.mapConstraints f).param? =
      entry.param?.map fun info => { info with constraints := f info.constraints } := by
  unfold mapConstraints
  split
  · next h => simp only [param?, h, Option.map_some]
  · next h =>
      unfold param?
      split
      · next info hinfo => exact absurd hinfo (h info)
      · rfl

end Entry

namespace Store

variable {store : Store} {f : Handle → List Constraint → List Constraint} {type : Handle}

/-- The store with other constraints on its type parameters. -/
def mapConstraints (store : Store) (f : Handle → List Constraint → List Constraint) : Store :=
  { store with types := store.types.mapIdx fun type entry => entry.mapConstraints (f type) }

theorem types_mapConstraints :
    (store.mapConstraints f).types[type]? = store.types[type]?.map (·.mapConstraints (f type)) := by
  simp [mapConstraints]

/-- What an entry says apart from its constraints is the same. -/
theorem query_mapConstraints {α : Type} {field : Entry → α}
    (h : ∀ entry, field (entry.mapConstraints (f type)) = field entry) :
    (return field (← (store.mapConstraints f).entry type) : Query α) =
      (return field (← store.entry type)) := by
  rw [entry, entry, types_mapConstraints]
  cases store.types[type]? with
  | none => rfl
  | some entry => exact congrArg Except.ok (h entry)

@[simp] theorem size_mapConstraints : (store.mapConstraints f).size = store.size := by
  simp [mapConstraints, size]

@[simp] theorem definition?_mapConstraints :
    (store.mapConstraints f).definition? type = store.definition? type :=
  query_mapConstraints fun _ => Entry.definition?_mapConstraints

@[simp] theorem arguments_mapConstraints :
    (store.mapConstraints f).arguments type = store.arguments type :=
  query_mapConstraints fun _ => Entry.arguments_mapConstraints

@[simp] theorem array?_mapConstraints :
    (store.mapConstraints f).array? type = store.array? type :=
  query_mapConstraints fun _ => Entry.array?_mapConstraints

@[simp] theorem isOpen_mapConstraints :
    (store.mapConstraints f).isOpen type = store.isOpen type :=
  query_mapConstraints fun _ => Entry.isOpen_mapConstraints

@[simp] theorem flags_mapConstraints : (store.mapConstraints f).flags type = store.flags type :=
  query_mapConstraints fun _ => Entry.flags_mapConstraints

@[simp] theorem base?_mapConstraints : (store.mapConstraints f).base? type = store.base? type :=
  query_mapConstraints fun _ => Entry.base_mapConstraints

@[simp] theorem interfaces_mapConstraints :
    (store.mapConstraints f).interfaces type = store.interfaces type :=
  query_mapConstraints fun _ => Entry.interfaces_mapConstraints

@[simp] theorem isValueType_mapConstraints :
    (store.mapConstraints f).isValueType type = store.isValueType type := by
  simp [isValueType]

@[simp] theorem isReferenceType_mapConstraints :
    (store.mapConstraints f).isReferenceType type = store.isReferenceType type :=
  query_mapConstraints fun _ => by simp

@[simp] theorem definitionOrSelf_mapConstraints :
    (store.mapConstraints f).definitionOrSelf type = store.definitionOrSelf type := by
  simp [definitionOrSelf]

@[simp] theorem isOptionalWrapper_mapConstraints :
    (store.mapConstraints f).isOptionalWrapper type = store.isOptionalWrapper type := by
  simp only [isOptionalWrapper, definition?_mapConstraints]
  rfl

@[simp] theorem isSequenceInterface_mapConstraints :
    (store.mapConstraints f).isSequenceInterface type = store.isSequenceInterface type := rfl

@[simp] theorem root_mapConstraints : (store.mapConstraints f).root = store.root := rfl

theorem param?_mapConstraints :
    (store.mapConstraints f).param? type = (do
      return (← store.param? type).map fun info =>
        { info with constraints := f type info.constraints }) := by
  rw [param?, param?, entry, entry, types_mapConstraints]
  cases store.types[type]? with
  | none => rfl
  | some entry => exact congrArg Except.ok Entry.param?_mapConstraints

/-- A query that reads a type parameter apart from its constraints. -/
theorem query_param?_mapConstraints {α : Type} {field : Option TypeParam → α}
    (h : ∀ info : Option TypeParam, field (info.map fun info =>
      { info with constraints := f type info.constraints }) = field info) :
    (return field (← (store.mapConstraints f).param? type) : Query α) =
      (return field (← store.param? type)) := by
  rw [param?_mapConstraints]
  cases store.param? type with
  | error fault => rfl
  | ok info => exact congrArg Except.ok (h info)

@[simp] theorem declaredVariance_mapConstraints {definition : Handle} {position : Nat} :
    (store.mapConstraints f).declaredVariance definition position =
      store.declaredVariance definition position := by
  simp only [declaredVariance, arguments_mapConstraints]
  refine bind_congr fun params => ?_
  cases params[position]? with
  | none => rfl
  | some param =>
      exact query_param?_mapConstraints fun info => by cases info <;> rfl

@[simp] theorem chainFrom_mapConstraints {room : Nat} {seen : List Handle} :
    (store.mapConstraints f).chainFrom room seen type = store.chainFrom room seen type := by
  induction room generalizing seen type with
  | zero => rfl
  | succ room ih => simp only [chainFrom, base?_mapConstraints, ih]

@[simp] theorem supertypes_mapConstraints :
    (store.mapConstraints f).supertypes type = store.supertypes type := by
  simp [supertypes, baseChain]

end Store

section Walks

variable {store : Store} {f : Handle → List Constraint → List Constraint} {sub : Substitution}

@[simp] theorem Substitution.resolve_mapConstraints {type : Handle} :
    sub.resolve (store.mapConstraints f) type = sub.resolve store type :=
  Store.query_param?_mapConstraints fun info => by cases info <;> rfl

@[simp] theorem Substitution.equalWithin_mapConstraints {fuel : Nat} {a b : Handle} :
    sub.equalWithin (store.mapConstraints f) fuel a b = sub.equalWithin store fuel a b := by
  induction fuel generalizing a b with
  | zero => rfl
  | succ fuel ih => simp only [equalWithin, resolve_mapConstraints, Store.isOpen_mapConstraints,
      Store.array?_mapConstraints, Store.definition?_mapConstraints,
      Store.arguments_mapConstraints, ih]

@[simp] theorem Substitution.equal_mapConstraints {a b : Handle} :
    sub.equal (store.mapConstraints f) a b = sub.equal store a b := by
  simp [equal]

variable {rel : Handle → Handle → RelationM Bool}

@[simp] theorem isSequenceInstance_mapConstraints {type : Handle} :
    isSequenceInstance (store.mapConstraints f) type = isSequenceInstance store type := by
  simp [isSequenceInstance]

@[simp] theorem wraps_mapConstraints :
    wraps (store.mapConstraints f) sub = wraps store sub := by
  funext source target
  simp [wraps]

@[simp] theorem element_mapConstraints :
    element (store.mapConstraints f) sub rel = element store sub rel := by
  funext source target
  simp [element]

@[simp] theorem argument_mapConstraints :
    argument (store.mapConstraints f) sub rel = argument store sub rel := by
  funext definition source target position
  simp [argument]

@[simp] theorem arguments_mapConstraints :
    arguments (store.mapConstraints f) sub rel = arguments store sub rel := by
  funext definition source target
  simp [arguments]

@[simp] theorem sequence_mapConstraints :
    sequence (store.mapConstraints f) sub rel = sequence store sub rel := by
  funext sourceElement target
  simp [Assignability.sequence]

@[simp] theorem nominal_mapConstraints :
    nominal (store.mapConstraints f) sub rel = nominal store sub rel := by
  funext source target
  simp [nominal]

@[simp] theorem rules_mapConstraints :
    rules (store.mapConstraints f) sub rel = rules store sub rel := by
  funext source target
  simp [rules]

@[simp] theorem step_mapConstraints :
    step (store.mapConstraints f) sub rel = step store sub rel := by
  funext source target
  simp [step]

/-- Assignability does not depend on the constraints of type parameters. -/
theorem relate_mapConstraints {fuel : Nat} :
    relate (store.mapConstraints f) sub fuel = relate store sub fuel := by
  induction fuel with
  | zero => exact step_mapConstraints
  | succ fuel ih => rw [relate, relate, step_mapConstraints, ih]

theorem satisfies_mapConstraints {arg : Handle} {constraint : Constraint} :
    ConstraintCheck.satisfies (store.mapConstraints f) sub arg constraint =
      ConstraintCheck.satisfies store sub arg constraint := by
  cases constraint with
  | base target => simp only [ConstraintCheck.satisfies, check, relate_mapConstraints]
  | _ => simp [ConstraintCheck.satisfies, ConstraintCheck.isDefaultConstructible]

theorem binding?_mapConstraints {declaration : Declaration} {args : List Handle} :
    ConstraintCheck.binding? (store.mapConstraints f) declaration args =
      ConstraintCheck.binding? store declaration args := by
  simp [ConstraintCheck.binding?]

end Walks

namespace ConstraintCheck

variable {store : Store} {sub : Substitution} {declaration : Declaration}
  {params args : List Handle}

/-- The arguments are as many as the parameters, and each constraint of each parameter holds of its
argument when it is checked on a guard of its own. A declaration that is not generic has no
parameters. -/
def HoldSeparately (store : Store) (declaration : Declaration) (args : List Handle) : Prop :=
  ∃ binding, binding? store declaration args = .ok binding ∧
    match binding with
    | none => args = []
    | some (params, sub) =>
        params.length = args.length ∧
          ∀ (i : Nat) param arg info, params[i]? = some param → args[i]? = some arg →
            store.param? param = .ok (some info) →
              ∀ constraint ∈ info.constraints,
                (satisfies store sub arg constraint).runFresh = .ok true

/-- The constraints of a type parameter; other types have none. -/
def constraintsOf (store : Store) (param : Handle) : List Constraint :=
  match store.param? param with
  | .ok (some info) => info.constraints
  | _ => []

/-- The single checks of a constraint check, in order. -/
def tests (store : Store) (params args : List Handle) : List (Handle × Constraint) :=
  (params.zip args).flatMap fun (param, arg) =>
    (constraintsOf store param).map fun constraint => (arg, constraint)

/-- One single check. -/
def test (store : Store) (sub : Substitution) (p : Handle × Constraint) : RelationM Bool :=
  satisfies store sub p.1 p.2

theorem test_mapConstraints {f : Handle → List Constraint → List Constraint} :
    test (store.mapConstraints f) sub = test store sub :=
  funext fun _ => satisfies_mapConstraints

theorem mem_tests {arg : Handle} {constraint : Constraint} :
    (arg, constraint) ∈ tests store params args ↔
      ∃ (i : Nat) (param : Handle) (info : TypeParam), params[i]? = some param ∧
        args[i]? = some arg ∧ store.param? param = .ok (some info) ∧
          constraint ∈ info.constraints := by
  have hof : ∀ param, constraint ∈ constraintsOf store param ↔
      ∃ info, store.param? param = .ok (some info) ∧ constraint ∈ info.constraints := by
    intro param
    unfold constraintsOf
    split
    · next info hinfo => simp [hinfo]
    · next hnone => simpa using fun info hinfo => absurd hinfo (hnone info)
  simp only [tests, List.mem_flatMap, List.mem_map, Prod.mk.injEq]
  constructor
  · rintro ⟨⟨param, arg'⟩, hpair, _, hconstraint, rfl, rfl⟩
    obtain ⟨i, hi⟩ := List.getElem?_of_mem hpair
    obtain ⟨hparam, harg⟩ := List.getElem?_zip_eq_some.mp hi
    obtain ⟨info, hinfo, hmem⟩ := (hof param).mp hconstraint
    exact ⟨i, param, info, hparam, harg, hinfo, hmem⟩
  · rintro ⟨i, param, info, hparam, harg, hinfo, hmem⟩
    exact ⟨(param, arg), List.mem_of_getElem? (List.getElem?_zip_eq_some.mpr ⟨hparam, harg⟩),
      constraint, (hof param).mpr ⟨info, hinfo, hmem⟩, rfl, rfl⟩

theorem constraintsOf_mapConstraints_perm {f : Handle → List Constraint → List Constraint}
    (hf : ∀ type constraints, (f type constraints).Perm constraints) (param : Handle) :
    (constraintsOf (store.mapConstraints f) param).Perm (constraintsOf store param) := by
  rw [constraintsOf, constraintsOf, Store.param?_mapConstraints]
  cases store.param? param with
  | error fault => exact .refl _
  | ok info? =>
      cases info? with
      | none => exact .refl _
      | some info => exact hf param info.constraints

theorem tests_mapConstraints_perm {f : Handle → List Constraint → List Constraint}
    (hf : ∀ type constraints, (f type constraints).Perm constraints) :
    (tests (store.mapConstraints f) params args).Perm (tests store params args) :=
  .flatMap_left _ fun p _ => (constraintsOf_mapConstraints_perm hf p.1).map _

section Rows

variable {α β : Type} {f : β → RelationM Bool}

theorem allM_append {as bs : List β} :
    (as ++ bs).allM f = (do if ← as.allM f then bs.allM f else return false) := by
  induction as with
  | nil => rfl
  | cons a as ih =>
      rw [List.cons_append, allM_cons_eq, allM_cons_eq, ih, bind_assoc]
      refine bind_congr fun b => ?_
      cases b <;> rfl

theorem allM_map {g : α → β} {as : List α} : (as.map g).allM f = as.allM fun a => f (g a) := by
  induction as with
  | nil => rfl
  | cons a as ih => rw [List.map_cons, allM_cons_eq, allM_cons_eq, ih]

theorem allM_flatMap {g : α → List β} {h : α → RelationM Bool} {as : List α}
    (hg : ∀ a ∈ as, h a = (g a).allM f) : as.allM h = (as.flatMap g).allM f := by
  induction as with
  | nil => rfl
  | cons a as ih =>
      rw [List.flatMap_cons, allM_append, allM_cons_eq, hg a List.mem_cons_self,
        ih fun b hb => hg b (List.mem_cons_of_mem a hb)]

end Rows

/-- The checks of all parameters are the single checks in a row. -/
theorem allM_satisfiesAll (hparams : ∀ param ∈ params, param < store.size) :
    ((params.zip args).allM fun (param, arg) => satisfiesAll store sub param arg) =
      (tests store params args).allM (test store sub) := by
  refine allM_flatMap fun p hp => ?_
  obtain ⟨hparam, -⟩ := List.of_mem_zip (show (p.1, p.2) ∈ _ from hp)
  obtain ⟨entry, hentry⟩ := Store.entry_of_lt (hparams _ hparam)
  have hinfo : store.param? p.1 = .ok entry.param? := Store.query_of_entry hentry (·.param?)
  rw [allM_map]
  simp only [satisfiesAll, constraintsOf, hinfo]
  cases entry.param? <;> rfl

variable {arg : Handle} {constraint : Constraint} {answer : Bool}

/-- The answer of a check comes with the run on the shared guard. -/
theorem run_of_runFresh {walk : RelationM Bool} (h : walk.runFresh = .ok answer) :
    ∃ guard, walk.run freshGuard = .ok (answer, guard) := by
  obtain ⟨⟨b, guard⟩, hrun, hrelease⟩ := Query.bind_eq_ok.mp h
  obtain ⟨_, -, hanswer⟩ := Query.bind_eq_ok.mp hrelease
  obtain rfl := Query.pure_eq_ok.mp hanswer
  exact ⟨guard, hrun⟩

/-- A check returns, or an identity walk under its substitution has no end. -/
theorem runFresh_cases (hs : store.WellFormed) (hconstraints : store.ConstraintsInRange)
    (hsub : sub.InRange store) (hargs : ∀ arg ∈ args, arg < store.size)
    {row : List (Handle × Constraint)} (hrow : ∀ p ∈ row, p ∈ tests store params args) :
    (∃ answer, (row.allM (test store sub)).runFresh = .ok answer) ∨
      (row.allM (test store sub)).runFresh = .error .outOfFuel ∧ IdentityDiverges store sub := by
  have hends : Ends Limits.assignability [] (row.allM (test store sub))
      (IdentityDiverges store sub) := by
    refine ends_allM fun p hp => ?_
    obtain ⟨i, param, info, -, harg, hinfo, hmem⟩ :=
      mem_tests.mp (show (p.1, p.2) ∈ _ from hrow p hp)
    obtain ⟨entry, hentry, hparam⟩ := Query.bind_eq_ok.mp hinfo
    refine satisfies_ends hs hsub (Nat.le_add_left _ _) (hargs _ (List.mem_of_getElem? harg)) ?_
    intro target htarget
    have hshape := Store.shape_of_param? (Query.pure_eq_ok.mp hparam)
    exact hconstraints (Store.entry_eq_ok.mp hentry) hshape (htarget ▸ hmem)
  have hfresh : OnPath Limits.assignability [] freshGuard := ⟨rfl, rfl, rfl⟩
  rcases hends _ hfresh with ⟨answer, guard, hrun, hon⟩ | ⟨hrun, hdiverges⟩
  · refine Or.inl ⟨answer, ?_⟩
    rw [RelationM.runFresh, hrun, Query.ok_bind]
    simp [Guard.release, hon.visiting, pure, Except.pure]
  · refine Or.inr ⟨?_, hdiverges⟩
    rw [RelationM.runFresh, hrun]
    rfl

/-- Within the limits, a row of single checks is true exactly if each of them is by itself. -/
theorem row_iff (hrun : ((tests store params args).allM (test store sub)).runFresh = .ok answer)
    (hwithin : ∀ answer guard, ((tests store params args).allM (test store sub)).run freshGuard =
      .ok (answer, guard) → guard.exceeded = false) :
    answer = true ↔ ∀ (i : Nat) param arg info, params[i]? = some param → args[i]? = some arg →
      store.param? param = .ok (some info) →
        ∀ constraint ∈ info.constraints,
          (satisfies store sub arg constraint).runFresh = .ok true := by
  obtain ⟨guard, hshared⟩ := run_of_runFresh hrun
  rcases allM_alone (fun p _ => steady_satisfies store sub p.1 p.2) (.refl _) inBudget_fresh
    hshared (hwithin answer guard hshared) with ⟨rfl, hall, -⟩ | ⟨rfl, p, hp, hfalse⟩
  · refine iff_of_true rfl fun i param arg info hparam harg hinfo constraint hmem => ?_
    have htest := mem_tests.mpr ⟨i, param, info, hparam, harg, hinfo, hmem⟩
    exact (hall (arg, constraint) htest).runFresh
  · refine iff_of_false (by simp) fun hall => ?_
    obtain ⟨i, param, info, hparam, harg, hinfo, hmem⟩ :=
      mem_tests.mp (show (p.1, p.2) ∈ _ from hp)
    cases hfalse.runFresh.symm.trans (hall i param p.1 info hparam harg hinfo p.2 hmem)

/-- Within the limits, no order of the single checks gives another answer. -/
theorem permuted_cases (hs : store.WellFormed) (hconstraints : store.ConstraintsInRange)
    (hsub : sub.InRange store) (hargs : ∀ arg ∈ args, arg < store.size)
    {row : List (Handle × Constraint)} (hperm : row.Perm (tests store params args))
    (hrun : ((tests store params args).allM (test store sub)).runFresh = .ok answer)
    (hwithin : ∀ answer guard, ((tests store params args).allM (test store sub)).run freshGuard =
      .ok (answer, guard) → guard.exceeded = false) :
    (row.allM (test store sub)).runFresh = .ok answer ∨
      (row.allM (test store sub)).runFresh = .error .outOfFuel ∧ IdentityDiverges store sub := by
  rcases runFresh_cases hs hconstraints hsub hargs fun p hp => hperm.mem_iff.mp hp with
    ⟨other, hother⟩ | hends
  · obtain ⟨guard, hshared⟩ := run_of_runFresh hrun
    obtain ⟨_, hshared'⟩ := run_of_runFresh hother
    have hsteady : ∀ p ∈ tests store params args, Steady (test store sub p) :=
      fun p _ => steady_satisfies store sub p.1 p.2
    obtain rfl := allM_perm hsteady hperm.symm hshared (hwithin answer guard hshared) hshared'
    exact Or.inl hother
  · exact Or.inr hends

/-- A check that has no end: the callable is declared in a type that mentions a type parameter, and
an identity walk runs into it for ever. -/
def Endless (store : Store) (declaration : Declaration) (args : List Handle) : Prop :=
  (∃ signature declaring, declaration = .callable signature ∧
      signature.declaringType = some declaring ∧ store.isOpen declaring = .ok true) ∧
    ∃ params sub, binding? store declaration args = .ok (some (params, sub)) ∧
      IdentityDiverges store sub

/-- Closed type arguments are all that a check binds, unless the declaration stands in an open
type. -/
theorem bindsClosed_or_inOpen (hs : store.WellFormed) (hdeclared : declaration.DeclaredIn store)
    (hclosed : ∀ arg ∈ args, store.isOpen arg = .ok false)
    (hbinding : binding? store declaration args = .ok (some (params, sub))) :
    sub.BindsClosed store ∨ ∃ signature declaring, declaration = .callable signature ∧
      signature.declaringType = some declaring ∧ store.isOpen declaring = .ok true := by
  cases declaration with
  | type type =>
      obtain ⟨definition?, -, hrest⟩ := Query.bind_eq_ok.mp hbinding
      cases definition? with
      | none => cases hrest
      | some definition =>
          obtain ⟨params', -, hrest⟩ := Query.bind_eq_ok.mp hrest
          cases hrest
          refine Or.inl fun arg harg => ?_
          exact Store.form_of_isOpen (hclosed arg (by simpa using harg))
  | callable signature =>
      cases hdeclaring : signature.declaringType with
      | none =>
          simp only [binding?, hdeclaring] at hbinding
          cases hbinding
          refine Or.inl fun arg harg => ?_
          exact Store.form_of_isOpen (hclosed arg (by simpa using harg))
      | some declaring =>
          obtain ⟨form, hform⟩ := Store.form_isSome
            ((hs.inRange.signatures hdeclared).declaringType declaring hdeclaring)
          cases hopen : form.isOpen with
          | true =>
              exact Or.inr ⟨signature, declaring, rfl, hdeclaring,
                by rw [Store.isOpen_of_form hform, hopen]⟩
          | false =>
              simp only [binding?, hdeclaring, Store.definition?_of_form hform,
                Store.arguments_of_form hform, Query.ok_bind] at hbinding
              cases hbinding
              refine Or.inl fun arg harg => ?_
              rcases List.mem_append.mp harg with harg | harg
              · obtain ⟨part, hpart, hpartClosed⟩ := hs.coherent.argument hform harg
                exact ⟨part, hpart, (hpartClosed hopen).1⟩
              · exact Store.form_of_isOpen (hclosed arg harg)

theorem endless_of_diverges (hs : store.WellFormed) (hdeclared : declaration.DeclaredIn store)
    (hclosed : ∀ arg ∈ args, store.isOpen arg = .ok false)
    (hbinding : binding? store declaration args = .ok (some (params, sub)))
    (hsub : sub.InRange store) (hdiverges : IdentityDiverges store sub) :
    Endless store declaration args := by
  refine ⟨?_, params, sub, hbinding, hdiverges⟩
  rcases bindsClosed_or_inOpen hs hdeclared hclosed hbinding with hbinds | hopen
  · obtain ⟨a, b, ha, hb, hwalk⟩ := hdiverges
    exact absurd hwalk ((hbinds.grounded hs.coherent).not_diverges hs.coherent hsub ha hb)
  · exact hopen

end ConstraintCheck

open ConstraintCheck

variable {store : Store} {declaration : Declaration} {args : List Handle}

/-- In every reachable store and for every list of closed type arguments:

1. an assignability check that ends leaves the path of its guard as it was;
2. a constraint check returns an answer, unless the callable stands in an open type and an identity
   walk runs for ever;
3. if the check hits no limit, its answer is `true` exactly if the arguments are as many as the
   parameters and every constraint holds when it is checked by itself, and no other order of the
   constraints gives another answer. -/
theorem Store.Reachable.satisfiesConstraints_conjunction (hs : store.Reachable)
    (hdeclared : declaration.DeclaredIn store)
    (hclosed : ∀ arg ∈ args, store.isOpen arg = .ok false) :
    (∀ (sub : Substitution) (source target : Handle) (guard guard' : PairGuard) (answer : Bool),
      (check store sub source target).run guard = .ok (answer, guard') →
        guard'.visiting = guard.visiting ∧ guard'.depth = guard.depth) ∧
    ((∃ answer, store.satisfiesConstraints declaration args = .ok answer) ∨
      store.satisfiesConstraints declaration args = .error .outOfFuel ∧
        Endless store declaration args) ∧
    (WithinLimits store declaration args → ∀ answer,
      store.satisfiesConstraints declaration args = .ok answer →
        (answer = true ↔ HoldSeparately store declaration args) ∧
        ∀ f : Handle → List Constraint → List Constraint,
          (∀ type constraints, (f type constraints).Perm constraints) →
            (store.mapConstraints f).satisfiesConstraints declaration args = .ok answer ∨
              (store.mapConstraints f).satisfiesConstraints declaration args = .error .outOfFuel ∧
                Endless store declaration args) := by
  have hwf := hs.lawful.wellFormed
  have hargs : ∀ arg ∈ args, arg < store.size := by
    intro arg harg
    obtain ⟨_, hform, -⟩ := Store.form_of_isOpen (hclosed arg harg)
    exact Store.form_lt hform
  obtain ⟨binding, hbinding, hrange⟩ := binding?_total hwf hdeclared hargs
  refine ⟨fun sub source target guard guard' answer hrun => ?_, ?_, ?_⟩
  · obtain ⟨hplace, -⟩ := (steady_check store sub source target).place hrun
    exact ⟨hplace.visiting, hplace.depth⟩
  · rcases Store.satisfiesConstraints_cases hwf hs.constraintsInRange hdeclared hargs with
      hanswer | ⟨hfault, params, sub, hbound, hsub, hdiverges⟩
    · exact Or.inl hanswer
    · exact Or.inr ⟨hfault, endless_of_diverges hwf hdeclared hclosed hbound hsub hdiverges⟩
  · intro hwithin answer hanswer
    rw [Store.satisfiesConstraints, hbinding, Query.ok_bind] at hanswer
    simp only [Store.satisfiesConstraints, binding?_mapConstraints, hbinding, Query.ok_bind]
    cases binding with
    | none =>
        obtain rfl := Query.pure_eq_ok.mp hanswer
        refine ⟨?_, fun f hf => Or.inl rfl⟩
        simp [HoldSeparately, hbinding]
    | some bound =>
        obtain ⟨params, sub⟩ := bound
        obtain ⟨hparams, hsub⟩ := hrange params sub rfl
        have hparams' (f : Handle → List Constraint → List Constraint) :
            ∀ param ∈ params, param < (store.mapConstraints f).size := by
          simpa using hparams
        dsimp only at hanswer ⊢
        by_cases hlength : params.length = args.length
        · rw [if_pos hlength, allM_satisfiesAll hparams] at hanswer
          have hwithin := hwithin params sub hbinding
          rw [allM_satisfiesAll hparams] at hwithin
          refine ⟨?_, fun f hf => ?_⟩
          · rw [row_iff hanswer hwithin]
            simp [HoldSeparately, hbinding, hlength]
          · rw [if_pos hlength, allM_satisfiesAll (hparams' f)]
            rcases permuted_cases hwf hs.constraintsInRange hsub hargs
              (tests_mapConstraints_perm hf) hanswer hwithin with
              hsame | ⟨hfault, hdiverges⟩
            · exact Or.inl (by rw [test_mapConstraints, hsame])
            · exact Or.inr ⟨by rw [test_mapConstraints, hfault],
                endless_of_diverges hwf hdeclared hclosed hbinding hsub hdiverges⟩
        · rw [if_neg hlength] at hanswer
          obtain rfl := Query.pure_eq_ok.mp hanswer
          refine ⟨by simp [HoldSeparately, hbinding, hlength], fun f hf => Or.inl ?_⟩
          rw [if_neg hlength]
          rfl

/-- A struct with an interface, and a class of such structs. -/
def shownOperations : List Operation :=
  [.declare .interfaceType "Shown",
    .declare .structType "Number",
    .addInterface 2 1,
    .declareGeneric .classType "Box" [("T", .invariant)],
    .addConstraint 4 .valueType,
    .addConstraint 4 (.base 1),
    .finish]

/-- The store that `shownOperations` build: `Box<T>` where `T : struct, Shown`. -/
def shownStore : Store := (Operation.runAll shownOperations (.ofRoot "object")).getD {}

/-- Numbers are values and are shown, in any order. -/
theorem satisfiesConstraints_conjunction_shown :
    HoldSeparately shownStore (.type 3) [2] ∧
      (shownStore.mapConstraints fun _ => List.reverse).satisfiesConstraints (.type 3) [2] =
        .ok true := by
  have hreachable : shownStore.Reachable := (Store.Reachable.ofRoot "object").runAll
    (by decide +kernel : Operation.runAll shownOperations (.ofRoot "object") = some shownStore)
  have hdeclared : (Declaration.type 3).DeclaredIn shownStore := by
    simp only [Declaration.DeclaredIn]
    decide +kernel
  have hwithin : WithinLimits shownStore (.type 3) [2] :=
    withinLimits_of_check (by decide +kernel)
  obtain ⟨-, -, hconjunction⟩ := hreachable.satisfiesConstraints_conjunction hdeclared
    (by decide +kernel : ∀ arg ∈ [2], shownStore.isOpen arg = .ok false)
  obtain ⟨hiff, hperm⟩ := hconjunction hwithin true (by decide +kernel)
  refine ⟨hiff.mp rfl, ?_⟩
  rcases hperm (fun _ => List.reverse) fun _ constraints => constraints.reverse_perm with
    hsame | ⟨-, ⟨_, _, ⟨⟩, -⟩, -⟩
  exact hsame

/-- A callable in a class that is applied to itself. -/
def nestedOperations : List Operation :=
  [.declareGeneric .interfaceType "I" [("X", .invariant)],
    .declareGeneric .classType "D" [("T", .invariant)],
    .declare .classType "J",
    .instantiate 3 [3],
    .instantiate 1 [6],
    .addInterface 5 7,
    .finish,
    .instantiate 3 [6],
    .instantiate 1 [3],
    .declareCallable "F" ["U"],
    .setDeclaringType 0 8,
    .addConstraint 10 .valueType,
    .addConstraint 10 (.base 9)]

/-- The store that `nestedOperations` build: `J : I<D<D>>`, and `F<U>` where `U : struct, I<D>`,
declared in `D<D<D>>`. -/
def nestedStore : Store := (Operation.runAll nestedOperations (.ofRoot "object")).getD {}

/-- The signature of `F`. -/
def nestedSignature : Signature where
  id := 0
  name := "F"
  typeParams := [10]
  declaringType := some 8

/-- In an open type the order of constraints matters. The check of `J` ends at the first constraint,
`struct`. With the constraints the other way round it has no end: whether `D<D>` and `D` are
identical with `T` bound to `D<D>` leads back to the same question. -/
theorem satisfiesConstraints_conjunction_nested :
    nestedStore.Reachable ∧ nestedStore.callable? 0 = some nestedSignature ∧
      nestedStore.isOpen 5 = .ok false ∧
      nestedStore.satisfiesConstraints (.callable nestedSignature) [5] = .ok false ∧
      (nestedStore.mapConstraints fun _ => List.reverse).satisfiesConstraints
        (.callable nestedSignature) [5] = .error .outOfFuel := by
  have hreachable : nestedStore.Reachable := (Store.Reachable.ofRoot "object").runAll
    (by decide +kernel : Operation.runAll nestedOperations (.ofRoot "object") = some nestedStore)
  have hsignature : nestedStore.callable? 0 = some nestedSignature := by decide +kernel
  have hclosed : nestedStore.isOpen 5 = .ok false := by decide +kernel
  have hrefused : nestedStore.satisfiesConstraints (.callable nestedSignature) [5] =
      .ok false := by
    decide +kernel
  have hendless : (nestedStore.mapConstraints fun _ => List.reverse).satisfiesConstraints
      (.callable nestedSignature) [5] = .error .outOfFuel := by
    decide +kernel
  exact ⟨hreachable, hsignature, hclosed, hrefused, hendless⟩

end NominalGenerics
