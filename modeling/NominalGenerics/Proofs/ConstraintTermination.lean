import NominalGenerics.ConstraintCheck
import NominalGenerics.Proofs.IdentityWalk
import NominalGenerics.Proofs.Scoping
import NominalGenerics.Proofs.Store.ConstraintTargets

/-!
# Ends of constraint checks

A constraint check relates types under a substitution of its own making. The assignability walk is
cut by its guard, and the fuel of the walk covers the depth that the guard allows. The identity walks
inside it are not cut. So a check returns an answer unless one of them has no end, and that takes a
type argument that mentions a parameter bound to another type.

`Store.Reachable.satisfiesConstraints_ends` states this for every declaration and list of type
arguments of a reachable store. `dualStore` is a store with a check that has no end.
-/

namespace NominalGenerics.Assignability

/-- On any guard that holds the path the walk returns with the path it started from, or it faults
for lack of fuel, and then `D` holds. -/
def Ends {α : Type} (limits : Limits) (path : List (Handle × Handle)) (walk : RelationM α)
    (D : Prop) : Prop :=
  ∀ guard, OnPath limits path guard →
    (∃ answer guard', walk.run guard = .ok (answer, guard') ∧ OnPath limits path guard') ∨
      walk.run guard = .error .outOfFuel ∧ D

section Walks

variable {α β : Type} {limits : Limits} {path : List (Handle × Handle)} {D : Prop}

theorem ends_pure {a : α} : Ends limits path (pure a) D :=
  fun guard hguard => Or.inl ⟨a, guard, rfl, hguard⟩

theorem Ends.bind {walk : RelationM α} {next : α → RelationM β} (h : Ends limits path walk D)
    (hnext : ∀ a, Ends limits path (next a) D) : Ends limits path (walk >>= next) D := by
  intro guard hguard
  rw [StateT.run_bind]
  rcases h guard hguard with ⟨a, guard', hrun, hon⟩ | ⟨hrun, hD⟩
  · rw [hrun]
    exact hnext a guard' hon
  · rw [hrun]
    exact Or.inr ⟨rfl, hD⟩

theorem ends_query {x : Query α} (h : (∃ a, x = .ok a) ∨ x = .error .outOfFuel ∧ D) :
    Ends limits path (liftM x) D := by
  intro guard hguard
  rcases h with ⟨a, rfl⟩ | ⟨rfl, hD⟩
  · exact Or.inl ⟨a, guard, rfl, hguard⟩
  · exact Or.inr ⟨rfl, hD⟩

theorem ends_total {x : Query α} (h : ∃ a, x = .ok a) : Ends limits path (liftM x) D :=
  ends_query (Or.inl h)

/-- A walk that goes on after a known answer of the store. -/
theorem ends_read {x : Query α} {a : α} {next : α → RelationM β} (hx : x = .ok a)
    (h : Ends limits path (next a) D) : Ends limits path (liftM x >>= next) D := by
  subst hx
  exact h

theorem Ends.ite {test : RelationM Bool} {yes no : RelationM α} (h : Ends limits path test D)
    (hyes : Ends limits path yes D) (hno : Ends limits path no D) :
    Ends limits path (do if ← test then yes else no) D := by
  refine h.bind fun answer => ?_
  cases answer with
  | true => exact hyes
  | false => exact hno

theorem ends_allM {f : α → RelationM Bool} {as : List α}
    (h : ∀ a ∈ as, Ends limits path (f a) D) : Ends limits path (as.allM f) D := by
  induction as with
  | nil => exact ends_pure
  | cons a as ih =>
      rw [List.allM]
      refine (h a List.mem_cons_self).bind fun answer => ?_
      cases answer with
      | true => exact ih fun b hb => h b (List.mem_cons_of_mem a hb)
      | false => exact ends_pure

theorem ends_anyM {f : α → RelationM Bool} {as : List α}
    (h : ∀ a ∈ as, Ends limits path (f a) D) : Ends limits path (as.anyM f) D := by
  induction as with
  | nil => exact ends_pure
  | cons a as ih =>
      rw [List.anyM]
      refine (h a List.mem_cons_self).bind fun answer => ?_
      cases answer with
      | true => exact ends_pure
      | false => exact ih fun b hb => h b (List.mem_cons_of_mem a hb)

end Walks

section Steps

variable {store : Store} {sub : Substitution} {limits : Limits} {path : List (Handle × Handle)}
  {rel : Handle → Handle → RelationM Bool} {source target : Handle}

/-- An identity walk of the store has no end. -/
def IdentityDiverges (store : Store) (sub : Substitution) : Prop :=
  ∃ a b, a < store.size ∧ b < store.size ∧ sub.Diverges store a b

theorem equal_total_or_diverges (hs : store.Coherent) (hsub : sub.InRange store)
    (hsource : source < store.size) (htarget : target < store.size) :
    (∃ answer, sub.equal store source target = .ok answer) ∨
      sub.equal store source target = .error .outOfFuel ∧ IdentityDiverges store sub := by
  rcases Substitution.equal_or_diverges hs hsub hsource htarget with h | ⟨hfault, hdiverges⟩
  · exact Or.inl h
  · exact Or.inr ⟨hfault, source, target, hsource, htarget, hdiverges⟩

theorem element_ends (hs : store.WellFormed) (hsub : sub.InRange store)
    (hrel : ∀ a b, a < store.size → b < store.size →
      Ends limits path (rel a b) (IdentityDiverges store sub))
    (hsource : source < store.size) (htarget : target < store.size) :
    Ends limits path (element store sub rel source target) (IdentityDiverges store sub) := by
  obtain ⟨source', hrs, hsource', -⟩ := hsub.resolve hsource
  obtain ⟨target', hrt, htarget', -⟩ := hsub.resolve htarget
  refine (ends_query (equal_total_or_diverges hs.coherent hsub hsource htarget)).ite ends_pure ?_
  refine ends_read hrs (ends_read hrt ?_)
  refine (ends_total (isReferenceType_total hsource')).ite ?_ ends_pure
  refine (ends_total (isReferenceType_total htarget')).ite ?_ ends_pure
  exact hrel source' target' hsource' htarget'

theorem argument_ends (hs : store.WellFormed) (hsub : sub.InRange store)
    (hrel : ∀ a b, a < store.size → b < store.size →
      Ends limits path (rel a b) (IdentityDiverges store sub))
    {definition : Handle} {position : Nat} (hdefinition : definition < store.size)
    (hsource : source < store.size) (htarget : target < store.size) :
    Ends limits path (argument store sub rel definition source target position)
      (IdentityDiverges store sub) := by
  obtain ⟨variance, hvariance⟩ := declaredVariance_total hs.coherent hdefinition position
  refine ends_read hvariance ?_
  cases variance with
  | invariant => exact ends_query (equal_total_or_diverges hs.coherent hsub hsource htarget)
  | covariant => exact element_ends hs hsub hrel hsource htarget
  | contravariant => exact element_ends hs hsub hrel htarget hsource

theorem arguments_ends (hs : store.WellFormed) (hsub : sub.InRange store)
    (hrel : ∀ a b, a < store.size → b < store.size →
      Ends limits path (rel a b) (IdentityDiverges store sub))
    {definition : Handle} (hdefinition : definition < store.size)
    (hsource : source < store.size) (htarget : target < store.size) :
    Ends limits path (arguments store sub rel definition source target)
      (IdentityDiverges store sub) := by
  obtain ⟨sform, hsform⟩ := Store.form_isSome hsource
  obtain ⟨tform, htform⟩ := Store.form_isSome htarget
  refine ends_read (Store.arguments_of_form hsform) (ends_read (Store.arguments_of_form htform) ?_)
  split
  · refine ends_allM fun p hp => ?_
    obtain ⟨hx, hy⟩ := List.of_mem_zip (List.fst_mem_of_mem_zipIdx hp)
    exact argument_ends hs hsub hrel hdefinition
      (Store.PartOf.lt hs.coherent ⟨sform, hsform, Or.inl hx⟩)
      (Store.PartOf.lt hs.coherent ⟨tform, htform, Or.inl hy⟩)
  · exact ends_pure

theorem wraps_ends (hs : store.WellFormed) (hsub : sub.InRange store)
    (hsource : source < store.size) (htarget : target < store.size) :
    Ends limits path (liftM (wraps store sub source target)) (IdentityDiverges store sub) := by
  obtain ⟨form, hform⟩ := Store.form_isSome htarget
  obtain ⟨b, hb⟩ := isOptionalWrapper_total htarget
  refine ends_query ?_
  rw [wraps, hb, Query.ok_bind]
  cases b with
  | false => exact Or.inl ⟨false, rfl⟩
  | true =>
      rw [if_pos rfl, Store.arguments_of_form hform, Query.ok_bind]
      split
      · next inner hinner =>
          have hpart : store.PartOf inner target := ⟨form, hform, Or.inl (by simp [hinner])⟩
          exact equal_total_or_diverges hs.coherent hsub hsource (hpart.lt hs.coherent)
      · exact Or.inl ⟨false, rfl⟩

theorem sequence_ends (hs : store.WellFormed) (hsub : sub.InRange store)
    (hrel : ∀ a b, a < store.size → b < store.size →
      Ends limits path (rel a b) (IdentityDiverges store sub))
    (hsource : source < store.size) (htarget : target < store.size) :
    Ends limits path (sequence store sub rel source target) (IdentityDiverges store sub) := by
  obtain ⟨form, hform⟩ := Store.form_isSome htarget
  refine (ends_total (isSequenceInstance_total htarget)).ite ?_ ends_pure
  refine ends_read (Store.arguments_of_form hform) ?_
  split
  · next element helement =>
      have hpart : store.PartOf element target := ⟨form, hform, Or.inl (by simp [helement])⟩
      exact element_ends hs hsub hrel hsource (hpart.lt hs.coherent)
  · exact ends_pure

theorem nominal_ends (hs : store.WellFormed) (hsub : sub.InRange store)
    (hrel : ∀ a b, a < store.size → b < store.size →
      Ends limits path (rel a b) (IdentityDiverges store sub))
    (hsource : source < store.size) (htarget : target < store.size) :
    Ends limits path (nominal store sub rel source target) (IdentityDiverges store sub) := by
  obtain ⟨form, hform⟩ := Store.form_isSome htarget
  obtain ⟨supers, hsupers, hlt⟩ := Store.supertypes_total hs hsource
  refine ends_read (Store.definitionOrSelf_of_form hform) (ends_read hsupers ?_)
  refine ends_anyM fun super hsuper => ?_
  obtain ⟨sform, hsform⟩ := Store.form_isSome (hlt super hsuper)
  refine ends_read (Store.definitionOrSelf_of_form hsform) ?_
  split
  · exact arguments_ends hs hsub hrel (hs.coherent.definition_lt hform)
      (hlt super hsuper) htarget
  · exact ends_pure

theorem rules_ends (hs : store.WellFormed) (hsub : sub.InRange store)
    (hrel : ∀ a b, a < store.size → b < store.size →
      Ends limits path (rel a b) (IdentityDiverges store sub))
    (hsource : source < store.size) (htarget : target < store.size) :
    Ends limits path (rules store sub rel source target) (IdentityDiverges store sub) := by
  obtain ⟨sform, hsform⟩ := Store.form_isSome hsource
  obtain ⟨tform, htform⟩ := Store.form_isSome htarget
  have hnominal := nominal_ends hs hsub hrel hsource htarget
  rw [rules]
  split
  · exact ends_pure
  refine (wraps_ends hs hsub hsource htarget).ite ends_pure ?_
  refine ends_read (Store.array?_of_form hsform) (ends_read (Store.array?_of_form htform) ?_)
  split
  · next hsarray htarray =>
      split
      · exact element_ends hs hsub hrel
          (Store.PartOf.lt hs.coherent ⟨sform, hsform, Or.inr ⟨_, hsarray⟩⟩)
          (Store.PartOf.lt hs.coherent ⟨tform, htform, Or.inr ⟨_, htarray⟩⟩)
      · exact ends_pure
  · next hsarray htarray =>
      split
      · exact (sequence_ends hs hsub hrel
          (Store.PartOf.lt hs.coherent ⟨sform, hsform, Or.inr ⟨_, hsarray⟩⟩) htarget).ite
          ends_pure hnominal
      · exact hnominal
  · exact ends_pure
  · exact hnominal

/-- The guard of a step ends as it began: the pair that was entered is left. -/
theorem step_ends (hs : store.WellFormed) (hsub : sub.InRange store)
    (hrel : path.length < limits.maxDepth → ∀ pair a b, a < store.size → b < store.size →
      Ends limits (pair :: path) (rel a b) (IdentityDiverges store sub))
    (hsource : source < store.size) (htarget : target < store.size) :
    Ends limits path (step store sub rel source target) (IdentityDiverges store sub) := by
  obtain ⟨source', hrs, hsource', -⟩ := hsub.resolve hsource
  obtain ⟨target', hrt, htarget', -⟩ := hsub.resolve htarget
  refine ends_read hrs (ends_read hrt ?_)
  split
  · exact ends_pure
  intro guard hguard
  obtain ⟨admission, guard₁, henter⟩ : ∃ admission guard₁,
      guard.enter (source', target') = (admission, guard₁) := ⟨_, _, rfl⟩
  have hentered : (modifyGet (·.enter (source', target')) : RelationM Admission).run guard =
      .ok (admission, guard₁) := congrArg Except.ok henter
  rw [StateT.run_bind, hentered, Query.ok_bind]
  obtain ⟨hlimits, ⟨rfl, -, hdepth, hvisiting, hdepth₁, -⟩ | ⟨rfl, -, hvisiting, hdepth₁, -⟩ |
    ⟨hrefused, hvisiting, hdepth₁, -⟩⟩ := Guard.enter_cases henter
  · rw [hguard.depth, hguard.limits] at hdepth
    have hon : OnPath limits ((source', target') :: path) guard₁ :=
      ⟨hlimits.trans hguard.limits, hvisiting.trans (by rw [hguard.visiting]),
        hdepth₁.trans (by rw [hguard.depth]; rfl)⟩
    rcases rules_ends hs hsub (hrel hdepth (source', target')) hsource' htarget' guard₁ hon with
      ⟨answer, guard₂, hrun, hon₂⟩ | ⟨hrun, hdiverges⟩
    · refine Or.inl ⟨answer, { guard₂ with visiting := path, depth := guard₂.depth - 1 }, ?_,
        ⟨hon₂.limits, rfl, by simp [hon₂.depth]⟩⟩
      refine run_bind_eq_ok.mpr ⟨answer, guard₂, hrun, run_bind_eq_ok.mpr ⟨guard₂, guard₂, rfl,
        run_bind_eq_ok.mpr ⟨_, guard₂, ?_, rfl⟩⟩⟩
      exact run_lift_eq_ok.mpr ⟨Guard.leave_head hon₂.visiting, rfl⟩
    · refine Or.inr ⟨?_, hdiverges⟩
      rw [StateT.run_bind, hrun]
      rfl
  · exact Or.inl ⟨false, guard₁, rfl, hlimits.trans hguard.limits,
      hvisiting.trans hguard.visiting, hdepth₁.trans hguard.depth⟩
  · refine Or.inl ⟨false, guard₁, ?_, hlimits.trans hguard.limits,
      hvisiting.trans hguard.visiting, hdepth₁.trans hguard.depth⟩
    cases admission with
    | entered => cases hrefused
    | cycle => cases hrefused
    | depthExceeded => rfl
    | iterationExceeded => rfl

theorem relate_ends (hs : store.WellFormed) (hsub : sub.InRange store) {fuel : Nat}
    (hfuel : limits.maxDepth ≤ path.length + fuel) (hsource : source < store.size)
    (htarget : target < store.size) :
    Ends limits path (relate store sub fuel source target) (IdentityDiverges store sub) := by
  induction fuel generalizing path source target with
  | zero =>
      refine step_ends hs hsub (fun hdepth => ?_) hsource htarget
      exact absurd hdepth (Nat.not_lt.mpr hfuel)
  | succ fuel ih =>
      refine step_ends hs hsub (fun _ pair a b ha hb => ?_) hsource htarget
      exact ih (by simp only [List.length_cons]; omega) ha hb

end Steps

end NominalGenerics.Assignability

namespace NominalGenerics

open Assignability

variable {store : Store} {sub : Substitution} {args : List Handle} {declaration : Declaration}

/-- A declaration of the store. -/
def Declaration.DeclaredIn (store : Store) : Declaration → Prop
  | .type handle => handle < store.size
  | .callable signature => store.HasCallable signature

namespace ConstraintCheck

/-- A declaration has parameters of the store, and they are bound to types of the store. -/
theorem binding?_total (hs : store.WellFormed) (hdeclared : declaration.DeclaredIn store)
    (hargs : ∀ arg ∈ args, arg < store.size) :
    ∃ binding, binding? store declaration args = .ok binding ∧
      ∀ params sub, binding = some (params, sub) →
        (∀ param ∈ params, param < store.size) ∧ sub.InRange store := by
  have harguments : ∀ {type form}, store.form type = some form →
      ∀ arg ∈ form.arguments, arg < store.size := by
    intro type form hform arg harg
    exact Store.PartOf.lt hs.coherent ⟨form, hform, Or.inl harg⟩
  cases declaration with
  | type type =>
      obtain ⟨form, hform⟩ := Store.form_isSome hdeclared
      simp only [binding?, Store.definition?_of_form hform, Query.ok_bind]
      cases hdefinition : form.definition? type with
      | none => exact ⟨none, rfl, by simp⟩
      | some definition =>
          obtain ⟨_, ⟨dform, hdform, -⟩, -⟩ := hs.coherent.applies_of_form hform hdefinition
          refine ⟨_, by dsimp only; rw [Store.arguments_of_form hdform]; rfl,
            fun params sub h => ?_⟩
          cases h
          exact ⟨harguments hdform, by simpa [Substitution.InRange] using hargs⟩
  | callable signature =>
      have hparams : ∀ param ∈ signature.typeParams, param < store.size := by
        intro param hparam
        obtain ⟨_, form, _, hform, -⟩ :=
          Store.HasCallable.paramAt hs.coherent hdeclared hparam
        exact Store.form_lt hform
      simp only [binding?]
      cases hdeclaring : signature.declaringType with
      | none =>
          refine ⟨_, rfl, fun params sub h => ?_⟩
          cases h
          exact ⟨hparams, by simpa [Substitution.InRange] using hargs⟩
      | some declaring =>
          have hlt := (hs.inRange.signatures hdeclared).declaringType declaring hdeclaring
          obtain ⟨form, hform⟩ := Store.form_isSome hlt
          refine ⟨_, by
            simp only [Store.definition?_of_form hform, Store.arguments_of_form hform,
              Query.ok_bind]
            rfl, fun params sub h => ?_⟩
          cases h
          refine ⟨hparams, fun arg harg => ?_⟩
          rcases List.mem_append.mp harg with harg | harg
          · exact harguments hform arg harg
          · exact hargs arg harg

variable {limits : Limits} {path : List (Handle × Handle)} {arg : Handle}

theorem satisfies_ends (hs : store.WellFormed) (hsub : sub.InRange store)
    (hlimits : limits.maxDepth ≤ path.length + Limits.assignability.maxDepth)
    (harg : arg < store.size) {constraint : Constraint}
    (htarget : ∀ target, constraint = .base target → target < store.size) :
    Ends limits path (satisfies store sub arg constraint) (IdentityDiverges store sub) := by
  obtain ⟨entry, hentry⟩ := Store.entry_of_lt harg
  have hflags : store.flags arg = .ok entry.flags := Store.query_of_entry hentry (·.flags)
  cases constraint with
  | valueType =>
      refine (ends_total ⟨entry.flags.valueType, by rw [Store.isValueType, hflags]; rfl⟩).ite ?_
        ends_pure
      exact (ends_total (isOptionalWrapper_total harg)).bind fun _ => ends_pure
  | referenceType => exact ends_total (isReferenceType_total harg)
  | defaultConstructible =>
      refine ends_total ⟨!entry.flags.abstract &&
        (entry.flags.valueType || entry.flags.defaultConstructor), ?_⟩
      rw [isDefaultConstructible, hflags]
      rfl
  | base target => exact relate_ends hs hsub hlimits harg (htarget target rfl)

theorem satisfiesAll_ends (hs : store.WellFormed) (hconstraints : store.ConstraintsInRange)
    (hsub : sub.InRange store)
    (hlimits : limits.maxDepth ≤ path.length + Limits.assignability.maxDepth) {param : Handle}
    (hparam : param < store.size) (harg : arg < store.size) :
    Ends limits path (satisfiesAll store sub param arg) (IdentityDiverges store sub) := by
  obtain ⟨entry, hentry⟩ := Store.entry_of_lt hparam
  refine ends_read (Store.query_of_entry hentry (·.param?)) ?_
  cases hshape : entry.shape with
  | parameter info =>
      simp only [Entry.param?, hshape]
      refine ends_allM fun constraint hconstraint => satisfies_ends hs hsub hlimits harg ?_
      rintro target rfl
      exact hconstraints hentry hshape hconstraint
  | _ =>
      simp only [Entry.param?, hshape]
      exact ends_pure

end ConstraintCheck

/-- The substitution of a constraint check leads to an identity walk that has no end. -/
def Store.CheckDiverges (store : Store) (declaration : Declaration) (args : List Handle) : Prop :=
  ∃ params sub, ConstraintCheck.binding? store declaration args = .ok (some (params, sub)) ∧
    IdentityDiverges store sub

/-- A constraint check returns an answer, or an identity walk under its substitution has no end. -/
theorem Store.satisfiesConstraints_cases (hs : store.WellFormed)
    (hconstraints : store.ConstraintsInRange) (hdeclared : declaration.DeclaredIn store)
    (hargs : ∀ arg ∈ args, arg < store.size) :
    (∃ answer, store.satisfiesConstraints declaration args = .ok answer) ∨
      store.satisfiesConstraints declaration args = .error .outOfFuel ∧
        ∃ params sub,
          ConstraintCheck.binding? store declaration args = .ok (some (params, sub)) ∧
          sub.InRange store ∧ IdentityDiverges store sub := by
  obtain ⟨binding, hbinding, hrange⟩ := ConstraintCheck.binding?_total hs hdeclared hargs
  rw [Store.satisfiesConstraints, hbinding, Query.ok_bind]
  cases binding with
  | none => exact Or.inl ⟨_, rfl⟩
  | some bound =>
      obtain ⟨params, sub⟩ := bound
      obtain ⟨hparams, hsub⟩ := hrange params sub rfl
      dsimp only
      split
      · have hends : Ends Limits.assignability []
            ((params.zip args).allM fun pair =>
              ConstraintCheck.satisfiesAll store sub pair.1 pair.2) (IdentityDiverges store sub) := by
          refine ends_allM fun pair hpair => ?_
          obtain ⟨hparam, harg⟩ := List.of_mem_zip (show (pair.1, pair.2) ∈ _ from hpair)
          exact ConstraintCheck.satisfiesAll_ends hs hconstraints hsub (Nat.le_add_left _ _)
            (hparams _ hparam) (hargs _ harg)
        have hfresh : OnPath Limits.assignability [] (Guard.ofLimits Limits.assignability) :=
          ⟨rfl, rfl, rfl⟩
        rcases hends _ hfresh with ⟨answer, guard, hrun, hon⟩ | ⟨hrun, hdiverges⟩
        · refine Or.inl ⟨answer, ?_⟩
          rw [RelationM.runFresh, hrun, Query.ok_bind]
          simp [Guard.release, hon.visiting, pure, Except.pure]
        · refine Or.inr ⟨?_, params, sub, rfl, hsub, hdiverges⟩
          rw [RelationM.runFresh, hrun]
          rfl
      · exact Or.inl ⟨false, rfl⟩

namespace Store.Reachable

/-- A constraint check returns an answer. Otherwise an identity walk under its substitution has no
end, and a type argument mentions a parameter that is bound to another type. -/
theorem satisfiesConstraints_ends (hs : store.Reachable)
    (hdeclared : declaration.DeclaredIn store) (hargs : ∀ arg ∈ args, arg < store.size) :
    (∃ answer, store.satisfiesConstraints declaration args = .ok answer) ∨
      store.satisfiesConstraints declaration args = .error .outOfFuel ∧
        ∃ params sub,
          ConstraintCheck.binding? store declaration args = .ok (some (params, sub)) ∧
          IdentityDiverges store sub ∧ ¬ sub.Grounded store := by
  have hwf := hs.lawful.wellFormed
  rcases Store.satisfiesConstraints_cases hwf hs.constraintsInRange hdeclared hargs with
    hanswer | ⟨hfault, params, sub, hbinding, hsub, hdiverges⟩
  · exact Or.inl hanswer
  · refine Or.inr ⟨hfault, params, sub, hbinding, hdiverges, fun hgrounded => ?_⟩
    obtain ⟨a, b, ha, hb, hwalk⟩ := hdiverges
    exact hgrounded.not_diverges hwf.coherent hsub ha hb hwalk

/-- With closed type arguments, of the declaration and of the type that encloses it, a constraint
check returns an answer. -/
theorem satisfiesConstraints_total (hs : store.Reachable)
    (hdeclared : declaration.DeclaredIn store) (hargs : ∀ arg ∈ args, arg < store.size)
    (hclosed : ∀ params sub,
      ConstraintCheck.binding? store declaration args = .ok (some (params, sub)) →
      sub.BindsClosed store) :
    ∃ answer, store.satisfiesConstraints declaration args = .ok answer := by
  have hwf := hs.lawful.wellFormed
  rcases Store.satisfiesConstraints_cases hwf hs.constraintsInRange hdeclared hargs with
    hanswer | ⟨-, params, sub, hbinding, hsub, a, b, ha, hb, hwalk⟩
  · exact hanswer
  · have hgrounded := (hclosed params sub hbinding).grounded hwf.coherent
    exact absurd hwalk (hgrounded.not_diverges hwf.coherent hsub ha hb)

end Store.Reachable

/-- A class of self-referential elements whose constraint mentions the class applied to itself. -/
def dualOperations : List Operation :=
  [.declareGeneric .interfaceType "I" [("X", .invariant)],
    .declareGeneric .classType "D" [("T", .invariant)],
    .instantiate 1 [4],
    .addInterface 3 5,
    .instantiate 3 [3],
    .instantiate 1 [6],
    .addConstraint 4 (.base 7),
    .finish]

/-- The store that `dualOperations` build: `D<T> : I<T>` where `T : I<D<D>>`. -/
def dualStore : Store := (Operation.runAll dualOperations (.ofRoot "object")).getD {}

theorem dualStore_reachable : dualStore.Reachable :=
  (Store.Reachable.ofRoot "object").runAll
    (by decide +kernel : Operation.runAll dualOperations (.ofRoot "object") = some dualStore)

/-- The check of `D<D>` against the constraint of `D` has no end: whether `D` and `D<D>` are
identical with `T` bound to `D<D>` leads back to the same question. -/
theorem satisfiesConstraints_ends_dual :
    (∃ answer, dualStore.satisfiesConstraints (.type 3) [0] = .ok answer) ∧
      ∃ params sub, ConstraintCheck.binding? dualStore (.type 3) [6] = .ok (some (params, sub)) ∧
        IdentityDiverges dualStore sub := by
  have hroots : ∀ arg ∈ ([0] : List Handle), arg < dualStore.size := by decide +kernel
  have hselves : ∀ arg ∈ ([6] : List Handle), arg < dualStore.size := by decide +kernel
  have hdeclared : (Declaration.type 3).DeclaredIn dualStore := by
    simp only [Declaration.DeclaredIn]
    decide +kernel
  have hroot : dualStore.satisfiesConstraints (.type 3) [0] ≠ .error .outOfFuel := by
    decide +kernel
  have hself : dualStore.satisfiesConstraints (.type 3) [6] = .error .outOfFuel := by
    decide +kernel
  constructor
  · rcases dualStore_reachable.satisfiesConstraints_ends hdeclared hroots with
      hanswer | ⟨hfault, -⟩
    · exact hanswer
    · exact absurd hfault hroot
  · rcases dualStore_reachable.satisfiesConstraints_ends hdeclared hselves with
      ⟨answer, hanswer⟩ | ⟨-, params, sub, hbinding, hdiverges, -⟩
    · rw [hself] at hanswer
      cases hanswer
    · exact ⟨params, sub, hbinding, hdiverges⟩

end NominalGenerics
