import Mathlib.Order.Defs.Unbundled
import NominalGenerics.Proofs.InheritedInterfaces
import NominalGenerics.Proofs.SupertypePaths

/-!
# The order of named types

A type without type parameters is assignable to another one if that is the root or one of its
supertypes. These are found in two ways, by walking the base chain and by looking at the interface
set. Where interfaces have no base, both together go along all paths of direct supertypes. So
assignability is transitive for these types, paths through instantiations included, and as no path
comes back it is a partial order.
-/

namespace NominalGenerics

open Relation (ReflTransGen)

namespace Assignability

/-- The walk answers a question and leaves the guard as it is. -/
def Settles (walk : RelationM Bool) (P : Prop) : Prop :=
  ∃ answer, (answer = true ↔ P) ∧ ∀ guard, walk.run guard = .ok (answer, guard)

section Walks

variable {P Q : Prop}

theorem Settles.congr {walk : RelationM Bool} (h : Settles walk P) (hPQ : P ↔ Q) :
    Settles walk Q := by
  obtain ⟨answer, hanswer, hrun⟩ := h
  exact ⟨answer, hanswer.trans hPQ, hrun⟩

theorem settles_true (h : P) : Settles (pure true) P := ⟨true, by simp [h], fun _ => rfl⟩

theorem settles_false (h : ¬ P) : Settles (pure false) P := ⟨false, by simp [h], fun _ => rfl⟩

theorem settles_read {α : Type} {x : Query α} {a : α} {f : α → RelationM Bool} (hx : x = .ok a)
    (h : Settles (f a) P) : Settles (liftM x >>= f) P := by
  subst hx
  exact h

theorem Settles.orElse {first second : RelationM Bool} (h : Settles first P)
    (h' : Settles second Q) :
    Settles (do if ← first then return true else second) (P ∨ Q) := by
  obtain ⟨answer, hanswer, hrun⟩ := h
  obtain ⟨answer', hanswer', hrun'⟩ := h'
  cases answer with
  | true =>
      refine ⟨true, by simp [hanswer.mp rfl], fun guard => ?_⟩
      rw [StateT.run_bind, hrun guard]
      rfl
  | false =>
      have hnot : ¬ P := fun hP => by cases hanswer.mpr hP
      refine ⟨answer', hanswer'.trans (by simp [hnot]), fun guard => ?_⟩
      rw [StateT.run_bind, hrun guard]
      exact hrun' guard

theorem settles_anyM {α : Type} {f : α → RelationM Bool} {P : α → Prop} {as : List α}
    (h : ∀ a ∈ as, Settles (f a) (P a)) : Settles (as.anyM f) (∃ a ∈ as, P a) := by
  induction as with
  | nil => exact settles_false (by simp)
  | cons a as ih =>
      obtain ⟨answer, hanswer, hrun⟩ := h a List.mem_cons_self
      obtain ⟨rest, hrest, hrunRest⟩ := ih fun b hb => h b (List.mem_cons_of_mem a hb)
      cases answer with
      | true =>
          refine ⟨true, by simpa using Or.inl (hanswer.mp rfl), fun guard => ?_⟩
          rw [List.anyM, StateT.run_bind, hrun guard]
          rfl
      | false =>
          have hnot : ¬ P a := fun hP => by cases hanswer.mpr hP
          refine ⟨rest, hrest.trans (by simp [hnot]), fun guard => ?_⟩
          rw [List.anyM, StateT.run_bind, hrun guard]
          exact hrunRest guard

end Walks

section Named

variable {store : Store} {rel : Handle → Handle → RelationM Bool} {source target : Handle}

theorem isSequenceInstance_of_named (hnamed : store.IsNamed target) :
    isSequenceInstance store target = .ok false := by
  obtain ⟨form, hform, hshape⟩ := hnamed
  rw [isSequenceInstance, Store.definition?_of_form hform, Entry.definition?, hshape]
  rfl

theorem nominal_settles (hs : store.WellFormed) (hnamed : store.IsNamed target)
    (hsource : source < store.size) :
    Settles (nominal store .empty rel source target) (store.Supertype source target) := by
  obtain ⟨-, hdefinition, hargs, -⟩ := hnamed.queries
  obtain ⟨supers, hsupers, hall⟩ := Store.supertypes_total hs hsource
  refine (settles_read hdefinition (settles_read hsupers
    (settles_anyM (P := fun candidate => candidate = target) fun candidate hmem => ?_))).congr ?_
  · obtain ⟨form, hform⟩ := Store.form_isSome (hall candidate hmem)
    have hd := Store.definitionOrSelf_of_form hform
    refine settles_read hd ?_
    split
    · next hsame =>
        rw [hsame] at hd
        obtain rfl := hnamed.eq_of_definitionOrSelf hs.coherent hd (hall candidate hmem)
        exact settles_read hargs (settles_read hargs (settles_true rfl))
    · next hother =>
        refine settles_false ?_
        rintro rfl
        exact hother (Except.ok.inj (hd.symm.trans hdefinition))
  · simp [Store.Supertype, hsupers]

theorem rules_settles (hs : store.WellFormed) (hnamed : store.IsNamed target)
    (hsource : source < store.size) :
    Settles (rules store .empty rel source target)
      (target = store.root ∨ store.Supertype source target) := by
  obtain ⟨harray, -, hargs, htarget⟩ := hnamed.queries
  have hsequence := isSequenceInstance_of_named hnamed
  have hnominal : Settles (nominal store .empty rel source target) (store.Supertype source target) :=
    nominal_settles hs hnamed hsource
  unfold rules
  split
  · next hroot => exact settles_true (Or.inl hroot)
  · next hroot =>
      obtain ⟨wrapped, hwraps, hanswer⟩ :=
        wraps_answers hs.coherent Substitution.bindsClosed_empty hsource htarget
      obtain rfl : wrapped = false := by
        rw [Bool.eq_false_iff]
        intro htrue
        obtain ⟨_, -, hone, -⟩ := hanswer.mp htrue
        cases hargs.symm.trans hone
      refine Settles.congr (settles_read hwraps ?_) (or_iff_right hroot).symm
      obtain ⟨form, hform⟩ := Store.form_isSome hsource
      refine settles_read (Store.array?_of_form hform) (settles_read harray ?_)
      cases form.array? with
      | none => exact hnominal
      | some shape =>
          obtain ⟨element, rank⟩ := shape
          dsimp only
          split
          · have hnone : Settles (sequence store .empty rel element target) False :=
              settles_read hsequence (settles_false id)
            exact (hnone.orElse hnominal).congr (or_iff_right id)
          · exact hnominal

/-- A type is compared with itself without the rules. -/
theorem step_self (hsource : source < store.size) (guard : Guard (Handle × Handle)) :
    (step store .empty rel source source).run guard = .ok (true, guard) := by
  have hself := Substitution.resolve_empty hsource
  refine run_bind_eq_ok.mpr ⟨source, guard, run_lift_eq_ok.mpr ⟨hself, rfl⟩, ?_⟩
  refine run_bind_eq_ok.mpr ⟨source, guard, run_lift_eq_ok.mpr ⟨hself, rfl⟩, ?_⟩
  rw [if_pos rfl]
  rfl

/-- A new guard admits a pair of types, and no pair is left on its path after the rules. -/
theorem step_fresh (hsource : source < store.size) (htarget : target < store.size)
    (hne : source ≠ target) {answer : Bool}
    (hrules : ∀ guard, (rules store .empty rel source target).run guard = .ok (answer, guard)) :
    ∃ guard, (step store .empty rel source target).run (Guard.ofLimits Limits.assignability) =
      .ok (answer, guard) ∧ guard.visiting = [] := by
  have hsourceSelf := Substitution.resolve_empty hsource
  have htargetSelf := Substitution.resolve_empty htarget
  refine ⟨{ limits := Limits.assignability, iterations := 1 }, ?_, rfl⟩
  refine run_bind_eq_ok.mpr ⟨source, _, run_lift_eq_ok.mpr ⟨hsourceSelf, rfl⟩, ?_⟩
  refine run_bind_eq_ok.mpr ⟨target, _, run_lift_eq_ok.mpr ⟨htargetSelf, rfl⟩, ?_⟩
  rw [if_neg hne]
  refine run_bind_eq_ok.mpr ⟨.entered, _, rfl, ?_⟩
  refine run_bind_eq_ok.mpr ⟨answer, _, hrules _, run_bind_eq_ok.mpr ⟨_, _, rfl, ?_⟩⟩
  exact run_bind_eq_ok.mpr ⟨_, _, run_lift_eq_ok.mpr ⟨Guard.leave_head rfl, rfl⟩, rfl⟩

/-- A type without type parameters can stand for another type if that one has it among its
supertypes, or if it is the root. -/
theorem isAssignable_named (hs : store.WellFormed) (hnamed : store.IsNamed target)
    (hsource : source < store.size) : Query.Answers (store.isAssignable source target)
      (target = store.root ∨ store.Supertype source target) := by
  obtain ⟨-, -, -, htarget⟩ := hnamed.queries
  have hcheck : check store .empty source target =
      step store .empty (relate store .empty (Limits.assignability.maxDepth - 1)) source target := rfl
  rw [Store.isAssignable, RelationM.runFresh, hcheck]
  by_cases hsame : source = target
  · subst hsame
    rw [step_self hsource]
    exact Query.answers_true (Or.inr (Store.supertype_self hs hsource))
  · obtain ⟨answer, hanswer, hrules⟩ := rules_settles hs hnamed hsource
    obtain ⟨guard, hrun, hvisiting⟩ := step_fresh hsource htarget hsame hrules
    refine ⟨answer, ?_, hanswer⟩
    rw [hrun, Query.ok_bind]
    simp [Guard.release, hvisiting, pure, Except.pure]

end Named

end Assignability

namespace Store

variable {s : Store} {type super : Handle}

/-- Only types without a base occur as interfaces. -/
def BaselessInterfaces (store : Store) : Prop :=
  ∀ type base interfaces, store.links type = some (base, interfaces) →
    ∀ interface ∈ interfaces, ∃ direct, store.links interface = some (none, direct)

theorem baselessInterfaces_of_check (h : ∀ type < s.size,
      ∀ interface ∈ ((s.links type).map (·.2)).getD [],
        (s.links interface).map (·.1) = some none) : s.BaselessInterfaces := by
  intro type base interfaces hlinks interface hmem
  obtain ⟨entry, hentry, -⟩ := Option.map_eq_some_iff.mp hlinks
  have hnone := h type (lt_of_entry hentry) interface
    (by simpa [hlinks] using hmem)
  obtain ⟨⟨_, direct⟩, hlinks', rfl⟩ := Option.map_eq_some_iff.mp hnone
  exact ⟨direct, hlinks'⟩

theorem BaseSteps.exists_path {n : Nat} (h : s.BaseSteps n type super) :
    ∃ path, (type :: path).IsChain s.Direct ∧ path.length = n := by
  induction h with
  | zero => exact ⟨[], .singleton _, rfl⟩
  | @succ n type base super interfaces hlinks _ ih =>
      obtain ⟨path, hpath, hlength⟩ := ih
      exact ⟨base :: path, .cons_cons ⟨_, _, hlinks, Or.inl rfl⟩ hpath, by simp [hlength]⟩

theorem BaseSteps.climb {n : Nat} (h : s.BaseSteps n type super) :
    ReflTransGen s.Direct type super := by
  induction h with
  | zero => exact .refl
  | succ hlinks _ ih => exact .head ⟨_, _, hlinks, Or.inl rfl⟩ ih

theorem Inherited.climb (h : s.Inherited type super) : ReflTransGen s.Direct type super := by
  induction h with
  | declared hlinks hmem => exact .single ⟨_, _, hlinks, Or.inr hmem⟩
  | interface hlinks hmem _ ih => exact .head ⟨_, _, hlinks, Or.inr hmem⟩ ih
  | base hlinks _ ih => exact .head ⟨_, _, hlinks, Or.inl rfl⟩ ih

/-- Where interfaces have no base, what is above a type is on its base chain or inherited by it. -/
theorem BaselessInterfaces.baseSteps_or_inherited (h : s.BaselessInterfaces)
    (hpath : ReflTransGen s.Direct type super) :
    (∃ n, s.BaseSteps n type super) ∨ s.Inherited type super := by
  induction hpath using ReflTransGen.head_induction_on with
  | refl => exact Or.inl ⟨0, .zero⟩
  | head hdirect _ ih =>
      obtain ⟨base, interfaces, hlinks, rfl | hmem⟩ := hdirect
      · exact ih.imp (fun ⟨n, hsteps⟩ => ⟨n + 1, .succ hlinks hsteps⟩) (.base hlinks)
      · refine Or.inr ?_
        rcases ih with ⟨n, hsteps⟩ | hinherited
        · obtain ⟨direct, hnone⟩ := h _ _ _ hlinks _ hmem
          cases hsteps with
          | zero => exact .declared hlinks hmem
          | succ hlinks' _ => cases hnone.symm.trans hlinks'
        · exact .interface hlinks hmem hinherited

/-- The supertypes of a type are what its paths of direct supertypes lead to. -/
theorem Gathered.supertype_iff_path (hgathered : s.Gathered) (hs : s.Lawful)
    (hparams : s.BareParameters) (hinterfaces : s.BaselessInterfaces)
    (hpaths : s.ShortPaths maxInstantiationDepth) (hlt : type < s.size) :
    s.Supertype type super ↔ ReflTransGen s.Direct type super := by
  obtain ⟨entry, hentry⟩ := entry_of_lt hlt
  rw [supertype_iff hs.wellFormed hentry, ← interfaceSet_of_entry hentry,
    hgathered.mem_interfaceSet_iff hs hparams]
  constructor
  · rintro (⟨n, -, hsteps⟩ | hinherited)
    · exact hsteps.climb
    · exact hinherited.climb
  · intro hpath
    refine (hinterfaces.baseSteps_or_inherited hpath).imp_left fun ⟨n, hsteps⟩ => ⟨n, ?_, hsteps⟩
    obtain ⟨path, hpath, rfl⟩ := hsteps.exists_path
    have hshort : path.length + 1 ≤ maxInstantiationDepth := hpaths _ hpath
    exact Nat.lt_of_lt_of_le hshort (by decide)

/-- Nothing but the root itself is above a root without base and interfaces. -/
theorem eq_root_of_path (hroot : s.links s.root = some (none, []))
    (hpath : ReflTransGen s.Direct s.root super) : super = s.root := by
  rcases hpath.cases_head with heq | ⟨_, ⟨base, interfaces, hlinks, h⟩, -⟩
  · exact heq.symm
  · obtain ⟨rfl, rfl⟩ := Prod.mk.inj (Option.some.inj (hroot.symm.trans hlinks))
    simp at h

/-- Assignability is a partial order on the types without type parameters, and the root is their
greatest. The paths of direct supertypes are short and may go through other types. -/
theorem Reachable.assignable_partialOrder (hs : s.Reachable) (hfinished : s.finished = true)
    (hpaths : s.ShortPaths maxInstantiationDepth)
    (hsize : s.size < Limits.supertypeClosure.maxIterations)
    (hroot : s.links s.root = some (none, [])) (hparams : s.BareParameters)
    (hinterfaces : s.BaselessInterfaces) :
    (∀ a b, s.IsNamed a → s.IsNamed b → ∃ answer, s.isAssignable a b = .ok answer) ∧
      IsPartialOrder { type // s.IsNamed type } (fun a b => s.isAssignable a b = .ok true) ∧
      s.IsNamed s.root ∧ ∀ a, s.IsNamed a → s.isAssignable a s.root = .ok true := by
  have hwf := hs.lawful.wellFormed
  have hgathered := hs.gathered hfinished (hpaths.closable hsize)
  have hlt : ∀ {type}, s.IsNamed type → type < s.size := fun h => h.queries.2.2.2
  have hbelow : ∀ {a b}, s.IsNamed a → s.IsNamed b →
      (s.isAssignable a b = .ok true ↔ b = s.root ∨ ReflTransGen s.Direct a b) := by
    intro a b ha hb
    obtain ⟨answer, hanswer, hiff⟩ := Assignability.isAssignable_named hwf hb (hlt ha)
    rw [hanswer, Except.ok.injEq, hiff,
      hgathered.supertype_iff_path hs.lawful hparams hinterfaces hpaths (hlt ha)]
  have hnamed := isNamed_root hwf.coherent
  refine ⟨fun a b ha hb => ?_, ?_, hnamed, fun a ha => (hbelow ha hnamed).mpr (Or.inl rfl)⟩
  · obtain ⟨answer, hanswer, -⟩ := Assignability.isAssignable_named hwf hb (hlt ha)
    exact ⟨answer, hanswer⟩
  · refine { refl := ?_, trans := ?_, antisymm := ?_ }
    · rintro ⟨a, ha⟩
      exact (hbelow ha ha).mpr (Or.inr .refl)
    · rintro ⟨a, ha⟩ ⟨b, hb⟩ ⟨c, hc⟩ hab hbc
      refine (hbelow ha hc).mpr ?_
      rcases (hbelow hb hc).mp hbc with hc | hbc
      · exact Or.inl hc
      · rcases (hbelow ha hb).mp hab with rfl | hab
        · exact Or.inl (eq_root_of_path hroot hbc)
        · exact Or.inr (hab.trans hbc)
    · rintro ⟨a, ha⟩ ⟨b, hb⟩ hab hba
      refine Subtype.ext ?_
      rcases (hbelow ha hb).mp hab with rfl | hab
      · rcases (hbelow hb ha).mp hba with rfl | hba
        · rfl
        · exact eq_root_of_path hroot hba
      · rcases (hbelow hb ha).mp hba with rfl | hba
        · exact (eq_root_of_path hroot hab).symm
        · exact hpaths.antisymm hab hba

/-- Circular types, which are shapes and ordered among themselves, nodes that are circular types of
nodes, and leaves that are nodes. -/
def leafOperations : List Operation :=
  [.declareGeneric .classType "Circular" [("T", .invariant)],
    .declare .interfaceType "IShape",
    .declareGeneric .interfaceType "IOrdered" [("T", .contravariant)],
    .instantiate 4 [2],
    .addInterface 1 6,
    .addInterface 1 3,
    .declare .classType "Node",
    .instantiate 1 [7],
    .setBase 7 8,
    .declare .classType "Leaf",
    .setBase 9 7,
    .finish]

/-- The store that `leafOperations` build. -/
def leafStore : Store := (Operation.runAll leafOperations (ofRoot "object")).getD {}

/-- A leaf is a node, and a node is a shape by its base `Circular<Node>`; so a leaf is a shape. -/
theorem assignable_partialOrder_leaf : leafStore.isAssignable 9 7 = .ok true ∧
    leafStore.isAssignable 7 3 = .ok true ∧ leafStore.isAssignable 9 3 = .ok true := by
  have hreachable : leafStore.Reachable := (Reachable.ofRoot "object").runAll
    (by decide +kernel : Operation.runAll leafOperations (ofRoot "object") = some leafStore)
  have hclimbs : ∀ type < leafStore.size,
      leafStore.climbs 0 maxInstantiationDepth type = true := by decide +kernel
  have hparams : leafStore.BareParameters := bareParameters_of_check (by decide +kernel)
  have hinterfaces : leafStore.BaselessInterfaces := baselessInterfaces_of_check (by decide +kernel)
  have hnamed : ∀ type ∈ ([3, 7, 9] : List Handle), leafStore.IsNamed type := by
    have hshapes : ∀ type ∈ ([3, 7, 9] : List Handle),
        (leafStore.form type).map (·.shape) = some .named := by decide +kernel
    intro type htype
    obtain ⟨form, hform, hshape⟩ := Option.map_eq_some_iff.mp (hshapes type htype)
    exact ⟨form, hform, hshape⟩
  have hleaf : leafStore.isAssignable 9 7 = .ok true := by decide +kernel
  have hnode : leafStore.isAssignable 7 3 = .ok true := by decide +kernel
  obtain ⟨-, horder, -⟩ := hreachable.assignable_partialOrder (by decide +kernel)
    (shortPaths_of_climbs hclimbs) (by decide +kernel) (by decide +kernel) hparams hinterfaces
  exact ⟨hleaf, hnode, horder.trans ⟨9, hnamed 9 (by decide)⟩ ⟨7, hnamed 7 (by decide)⟩
    ⟨3, hnamed 3 (by decide)⟩ hleaf hnode⟩

end Store

end NominalGenerics
