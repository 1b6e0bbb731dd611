import NominalGenerics.Proofs.AssignabilityCheck
import NominalGenerics.Proofs.Store.Settling

/-!
# Interfaces along base chains

Assignability looks at the base chain of a type and at its interface set. The chain is walked when
the question is asked and may be long; the sets are computed once, by walks that give up sooner.
Where no such walk has given up the two agree: a type lists what it inherits, so it lists what any
type on its base chain lists, and is assignable to whatever that type is assignable to through an
interface.
-/

namespace NominalGenerics

namespace Store

variable {s : Store} {type super : Handle}

/-- Type parameters have no supertypes of their own. -/
def BareParameters (store : Store) : Prop :=
  ∀ type, store.IsParameter type → store.links type = some (none, [])

theorem bareParameters_of_check (h : ∀ type < s.size,
      (s.types[type]?).map (·.isParameter) = some true → s.links type = some (none, [])) :
    s.BareParameters := by
  rintro type ⟨form, info, hform, hshape⟩
  obtain ⟨entry, hentry, rfl⟩ := form_eq_some.mp hform
  refine h type (form_lt hform) ?_
  rw [hentry, Option.map_some, ← Entry.form_isParameter, Entry.isParameter, hshape]

/-- What a type gathers from its direct supertypes, unless it is a type parameter. -/
theorem Gathered.mem_interfaceSet (hs : s.Gathered) (hparams : s.BareParameters)
    {base : Option Handle} {interfaces : List Handle}
    (hlinks : s.links type = some (base, interfaces))
    (h : (∃ interface ∈ interfaces, super = interface ∨ super ∈ s.interfaceSet interface) ∨
      ∃ next, base = some next ∧ super ∈ s.interfaceSet next) : super ∈ s.interfaceSet type := by
  obtain ⟨entry, hentry, -⟩ := Option.map_eq_some_iff.mp hlinks
  by_cases hparam : s.IsParameter type
  · cases (hparams type hparam).symm.trans hlinks
    rcases h with ⟨_, hmem, -⟩ | ⟨_, hnone, -⟩
    · cases hmem
    · cases hnone
  · obtain ⟨entry, hcomplete⟩ := hs.complete type (lt_of_entry hentry) hparam
    cases (links_of_entry hcomplete.found).symm.trans hlinks
    rw [interfaceSet_of_entry hcomplete.found, hcomplete.interfaces]
    exact mem_gather.mpr h

/-- The interface set of a type holds all it inherits, and nothing else. -/
theorem Gathered.mem_interfaceSet_iff (hs : s.Gathered) (hlawful : s.Lawful)
    (hparams : s.BareParameters) : super ∈ s.interfaceSet type ↔ s.Inherited type super := by
  constructor
  · intro hmem
    cases hentry : s.types[type]? with
    | none =>
        rw [interfaceSet, hentry] at hmem
        cases hmem
    | some entry =>
        exact hlawful.inheriting type entry hentry super (interfaceSet_of_entry hentry ▸ hmem)
  · intro h
    induction h with
    | declared hlinks hmem =>
        exact hs.mem_interfaceSet hparams hlinks (Or.inl ⟨_, hmem, Or.inl rfl⟩)
    | interface hlinks hmem _ ih =>
        exact hs.mem_interfaceSet hparams hlinks (Or.inl ⟨_, hmem, Or.inr ih⟩)
    | base hlinks _ ih => exact hs.mem_interfaceSet hparams hlinks (Or.inr ⟨_, rfl, ih⟩)

/-- A type inherits what the types on its base chain inherit. -/
theorem BaseSteps.inherited {n : Nat} {ancestor : Handle} (h : s.BaseSteps n type ancestor)
    (hsuper : s.Inherited ancestor super) : s.Inherited type super := by
  induction h with
  | zero => exact hsuper
  | succ hlinks _ ih => exact .base hlinks (ih hsuper)

/-- In a finished store in which no closing walk gives up, the interfaces of a type are those that
it inherits. -/
theorem Reachable.mem_interfaces_iff (hs : s.Reachable) (hfinished : s.finished = true)
    (hclosable : s.Closable) (hparams : s.BareParameters) (hlt : type < s.size) :
    ∃ interfaces, s.interfaces type = .ok interfaces ∧
      ∀ super, super ∈ interfaces ↔ s.Inherited type super :=
  ⟨s.interfaceSet type, interfaces_eq_interfaceSet hlt, fun _ =>
    (hs.gathered hfinished hclosable).mem_interfaceSet_iff hs.lawful hparams⟩

end Store

namespace Assignability

variable {store : Store} {type super target : Handle}

/-- A supertype through which types are assignable to `target`: both have one definition, which no
array has, and the arguments are compatible. -/
def LeadsTo (store : Store) (super target : Handle) : Prop :=
  store.array? target = .ok none ∧ ∃ definition,
    store.definitionOrSelf super = .ok definition ∧ store.definitionOrSelf target = .ok definition ∧
      ArgumentsCompatible store .empty (Sub store .empty) definition super target

theorem LeadsTo.sub (h : LeadsTo store super target) (hsuper : store.Supertype type super)
    (htype : type < store.size) (htarget : target < store.size) : Sub store .empty type target := by
  obtain ⟨harray, definition, hd, hd', hargs⟩ := h
  exact sub_iff.mpr ⟨type, target, Substitution.resolve_empty htype,
    Substitution.resolve_empty htarget,
    .supertype harray ⟨super, definition, hsuper, hd, hd', hargs⟩⟩

end Assignability

namespace Store

open Assignability

variable {s : Store} {type : Handle}

/-- In a finished store in which no closing walk gives up, a type has all interfaces of the types on
its base chain, whatever the length of the chain. So it is assignable to whatever one of these is
assignable to through an interface, and the check says so within its limits. -/
theorem Reachable.interfaces_of_baseChain (hs : s.Reachable) (hfinished : s.finished = true)
    (hclosable : s.Closable) (hparams : s.BareParameters) (hlt : type < s.size) :
    ∃ chain interfaces, s.baseChain type = .ok chain ∧ s.interfaces type = .ok interfaces ∧
      ∀ ancestor ∈ chain, ∃ inherited, s.interfaces ancestor = .ok inherited ∧
        inherited ⊆ interfaces ∧
        ∀ interface ∈ inherited, ∀ target, target < s.size → LeadsTo s interface target →
          Sub s .empty type target ∧
            (WithinLimits s .empty type target → s.isAssignable type target = .ok true) := by
  have hwf := hs.lawful.wellFormed
  have hgathered := hs.gathered hfinished hclosable
  obtain ⟨chain, interfaces, hchain, hinterfaces, hsupers, hall⟩ := supertypes_parts hwf hlt
  obtain rfl := interfaces_eq_ok hinterfaces
  refine ⟨chain, _, hchain, hinterfaces, fun ancestor hancestor => ?_⟩
  obtain ⟨n, -, hsteps⟩ := baseSteps_of_mem_chainFrom hchain hancestor
  have hsubset : s.interfaceSet ancestor ⊆ s.interfaceSet type := fun super hsuper =>
    (hgathered.mem_interfaceSet_iff hs.lawful hparams).mpr
      (hsteps.inherited ((hgathered.mem_interfaceSet_iff hs.lawful hparams).mp hsuper))
  refine ⟨_, interfaces_eq_interfaceSet (hall ancestor (List.mem_append_left _ hancestor)), hsubset,
    fun interface hinterface target htarget hleads => ?_⟩
  have hsub : Sub s .empty type target :=
    hleads.sub ⟨_, hsupers, List.mem_append_right _ (hsubset hinterface)⟩ hlt htarget
  exact ⟨hsub, fun hlimits => isAssignable_of_sub hwf hlt htarget hlimits hsub⟩

/-- Whether `Closable` holds, with `room` types on the longest path. -/
def isClosable (store : Store) (room : Nat) : Bool :=
  decide (store.size ≤ Limits.supertypeClosure.maxIterations) &&
    (List.range store.size).all fun type =>
      store.climbs 0 room type &&
        store.climbs type Limits.supertypeClosure.maxDepth type &&
        (store.climbs 0 Limits.supertypeClosure.maxDepth type ||
          (store.types[type]?).all fun entry =>
            entry.shape matches .named | .definition _ | .parameter _)

theorem closable_of_isClosable {room : Nat} (h : s.isClosable room = true) : s.Closable := by
  rw [isClosable, Bool.and_eq_true, decide_eq_true_eq, List.all_eq_true] at h
  obtain ⟨hsize, htypes⟩ := h
  have htype : ∀ {type}, type < s.size → s.climbs 0 room type = true ∧
      s.climbs type Limits.supertypeClosure.maxDepth type = true ∧
      (s.Interned type → s.climbs 0 Limits.supertypeClosure.maxDepth type = true) := by
    intro type hlt
    have h := htypes type (List.mem_range.mpr hlt)
    rw [Bool.and_eq_true, Bool.and_eq_true, Bool.or_eq_true] at h
    refine ⟨h.1.1, h.1.2, fun ⟨form, hform, hshape⟩ => h.2.resolve_right fun hdeclared => ?_⟩
    obtain ⟨entry, hentry, rfl⟩ := form_eq_some.mp hform
    rw [hentry, Option.all_some] at hdeclared
    rcases hshape with ⟨definition, args, hshape⟩ | ⟨element, rank, hshape⟩
    · rw [Entry.form_shape_eq_instantiation.mp hshape] at hdeclared
      cases hdeclared
    · rw [Entry.form_shape_eq_array.mp hshape] at hdeclared
      cases hdeclared
  refine ⟨hsize, ⟨room, fun type hlt => (htype hlt).1⟩, fun type hinterned => ?_,
    fun type hlt => (htype hlt).2.1⟩
  obtain ⟨form, hform, -⟩ := id hinterned
  exact (htype (form_lt hform)).2.2 hinterned

/-- Animals and dogs, a class that is a source of dogs, and further classes of which each extends
the one before, so many that no closing walk could go through all of them. Sources of animals are
added at the end. -/
def levelOperations : List Operation :=
  [.declareGeneric .interfaceType "ISource" [("T", .covariant)],
    .declare .classType "Animal",
    .declare .classType "Dog",
    .setBase 4 3,
    .instantiate 1 [4],
    .declare .classType "Level0",
    .addInterface 6 5] ++
  (List.range 51).flatMap (fun i =>
    [.declare .classType ("Level" ++ toString (i + 1)), .setBase (i + 7) (i + 6)]) ++
  [.finish, .instantiate 1 [3]]

/-- The store that `levelOperations` build. -/
def levelStore : Store := (Operation.runAll levelOperations (ofRoot "object")).getD {}

/-- What evaluation shows of the store. -/
theorem levelStore_answers :
    Operation.runAll levelOperations (ofRoot "object") = some levelStore ∧
      levelStore.finished = true ∧ levelStore.size = 59 ∧ levelStore.isClosable 60 = true ∧
      (∀ type < levelStore.size, (levelStore.types[type]?).map (·.isParameter) = some true →
        levelStore.links type = some (none, [])) ∧
      levelStore.baseChain 57 = .ok ((List.range' 6 52).reverse ++ [0]) ∧
      levelStore.interfaces 6 = .ok [5] := by
  decide +kernel

/-- What evaluation shows of dogs and animals, their sources and the last class. -/
theorem levelStore_relates :
    outcome? levelStore .empty 4 3 = some (true, false) ∧
      (outcome? levelStore .empty 57 58).map (·.2) = some false ∧
      levelStore.array? 58 = .ok none ∧
      (∀ pair ∈ ([(5, 4), (58, 3)] : List (Handle × Handle)),
        levelStore.definitionOrSelf pair.1 = .ok 1 ∧ levelStore.arguments pair.1 = .ok [pair.2] ∧
          levelStore.isReferenceType pair.2 = .ok true) ∧
      levelStore.declaredVariance 1 0 = .ok .covariant := by
  decide +kernel

theorem levelStore_reachable : levelStore.Reachable :=
  (Reachable.ofRoot "object").runAll levelStore_answers.1

theorem levelStore_bareParameters : levelStore.BareParameters := by
  obtain ⟨-, -, -, -, hparams, -⟩ := levelStore_answers
  exact bareParameters_of_check hparams

/-- The last class is a source of dogs and can stand for a source of animals, as the first one
can. -/
theorem interfaces_of_baseChain_levels :
    (∃ interfaces, levelStore.interfaces 57 = .ok interfaces ∧ 5 ∈ interfaces) ∧
      Sub levelStore .empty 57 58 ∧ levelStore.isAssignable 57 58 = .ok true := by
  obtain ⟨-, hfinished, hsize, hclosable, -, hchain, hinterfaces⟩ := levelStore_answers
  obtain ⟨hdogs, hlimits, harray, hsources, hvariance⟩ := levelStore_relates
  obtain ⟨hsource, hsourceArgs, hdog⟩ := hsources (5, 4) (by decide)
  obtain ⟨htarget, htargetArgs, hanimal⟩ := hsources (58, 3) (by decide)
  have hlt : ∀ {type : Handle}, type < 59 → type < levelStore.size := fun h => hsize ▸ h
  obtain ⟨chain, interfaces, hchain', hinterfaces', hall⟩ :=
    levelStore_reachable.interfaces_of_baseChain hfinished (closable_of_isClosable hclosable)
      levelStore_bareParameters (hlt (by decide : 57 < 59))
  obtain rfl := Except.ok.inj (hchain.symm.trans hchain')
  obtain ⟨inherited, hinherited, hsubset, hleads⟩ := hall 6 (by decide)
  obtain rfl := Except.ok.inj (hinterfaces.symm.trans hinherited)
  have hcompatible : Compatible levelStore .empty (Sub levelStore .empty) 4 3 :=
    Or.inr ⟨4, 3, Substitution.resolve_empty (hlt (by decide)),
      Substitution.resolve_empty (hlt (by decide)), hdog, hanimal,
      sub_of_outcome? levelStore_reachable.lawful.wellFormed Substitution.bindsClosed_empty
        (hlt (by decide)) (hlt (by decide)) hdogs⟩
  have hargs : ArgumentsCompatible levelStore .empty (Sub levelStore .empty) 1 5 58 := by
    refine ⟨[4], [3], hsourceArgs, htargetArgs, rfl, fun i x y hx hy => ?_⟩
    cases i with
    | zero =>
        obtain rfl := Option.some.inj hx
        obtain rfl := Option.some.inj hy
        exact ⟨.covariant, hvariance, hcompatible⟩
    | succ i => cases hx
  obtain ⟨hsub, hanswer⟩ := hleads 5 List.mem_cons_self 58 (hlt (by decide))
    ⟨harray, 1, hsource, htarget, hargs⟩
  exact ⟨⟨interfaces, hinterfaces', hsubset List.mem_cons_self⟩, hsub,
    hanswer (withinLimits_of_outcome? hlimits)⟩

/-- A chain of as many classes, of which each is declared before the one that it extends, and an
interface of the last. -/
def descentOperations : List Operation :=
  [.declare .interfaceType "I"] ++
  (List.range 51).map (fun i => .declare .classType ("Level" ++ toString i)) ++
  (List.range 50).map (fun i => .setBase (i + 2) (i + 3)) ++
  [.addInterface 52 1, .finish]

/-- The walk that closes the first class of such a chain gives up at the last. It leaves all classes
on its path closed without the interface that the last one has. -/
example : (Operation.runAll descentOperations (ofRoot "object")).map (fun store =>
    (store.isClosable 60, store.baseChain 2, store.interfaces 2, store.interfaces 52)) =
      some (false, .ok (List.range' 2 51 ++ [0]), .ok [], .ok [1]) := by
  decide +kernel

end Store

end NominalGenerics
