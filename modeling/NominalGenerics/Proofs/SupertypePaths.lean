import Mathlib.Logic.Relation
import NominalGenerics.Proofs.Scoping
import NominalGenerics.Proofs.Store.Settling

/-!
# Paths of direct supertypes

The direct supertypes of the types make a graph. Where a path in it visits no more types than a
closing walk may have on its path, the graph has no cycle, and no closing walk gives up. Every
interface set then satisfies the equation by which it is computed, in whatever order the types were
closed: it lists each direct interface followed by the set of that, and then the set of the base.
-/

namespace NominalGenerics.Store

open Relation (ReflTransGen TransGen)

variable {s : Store} {type super : Handle}

section Paths

/-- `super` is the base or a direct interface of `type`. -/
def Direct (store : Store) (type super : Handle) : Prop :=
  ∃ base interfaces, store.links type = some (base, interfaces) ∧
    (base = some super ∨ super ∈ interfaces)

/-- A path of direct supertypes visits at most `bound` types. -/
def ShortPaths (store : Store) (bound : Nat) : Prop :=
  ∀ path : List Handle, path.IsChain store.Direct → path.length ≤ bound

theorem direct_iff {entry : Entry} (hentry : s.types[type]? = some entry) :
    s.Direct type super ↔ entry.base = some super ∨ super ∈ entry.directInterfaces := by
  rw [Direct, links_of_entry hentry]
  constructor
  · rintro ⟨base, interfaces, hlinks, h⟩
    obtain ⟨rfl, rfl⟩ := Prod.mk.inj (Option.some.inj hlinks)
    exact h
  · exact fun h => ⟨_, _, rfl, h⟩

theorem Direct.exists_entry (h : s.Direct type super) : ∃ entry, s.types[type]? = some entry := by
  obtain ⟨base, interfaces, hlinks, -⟩ := h
  obtain ⟨entry, hentry, -⟩ := Option.map_eq_some_iff.mp hlinks
  exact ⟨entry, hentry⟩

/-- All paths that begin with a type are short if the lists that make them up are. -/
theorem climbs_of_paths {room : Nat}
    (h : ∀ path, (type :: path).IsChain s.Direct → path.length < room) :
    s.climbs 0 room type = true := by
  induction room generalizing type with
  | zero => exact absurd (h [] (.singleton type)) (Nat.not_lt_zero _)
  | succ room ih =>
      cases hentry : s.types[type]? with
      | none => rw [climbs, hentry, Option.all_none, Bool.or_true]
      | some entry =>
          have hsuper : ∀ super, s.Direct type super → s.climbs 0 room super = true := by
            intro super hdirect
            refine ih fun path hpath => ?_
            exact Nat.lt_of_succ_lt_succ (h (super :: path) (.cons_cons hdirect hpath))
          exact (climbs_succ hentry).mpr (Or.inr
            ⟨fun super hbase => hsuper super ((direct_iff hentry).mpr (Or.inl hbase)),
              fun super hmem => hsuper super ((direct_iff hentry).mpr (Or.inr hmem))⟩)

theorem length_lt_of_climbs {room : Nat} (h : s.climbs 0 room type = true) {path : List Handle}
    (hpath : (type :: path).IsChain s.Direct) : path.length < room := by
  induction room generalizing type path with
  | zero => exact absurd (of_decide_eq_true h) (Nat.not_lt_zero _)
  | succ room ih =>
      cases hpath with
      | singleton => exact Nat.succ_pos room
      | cons_cons hdirect hpath =>
          obtain ⟨entry, hentry⟩ := hdirect.exists_entry
          obtain ⟨hbase, hinterfaces⟩ :=
            ((climbs_succ hentry).mp h).resolve_left (Nat.not_lt_zero _)
          have hsuper := ((direct_iff hentry).mp hdirect).elim (hbase _) (hinterfaces _)
          exact Nat.succ_lt_succ (ih hsuper hpath)

/-- Paths are short if those that begin with types of the store are. -/
theorem shortPaths_of_climbs {room : Nat}
    (h : ∀ type < s.size, s.climbs 0 (room + 1) type = true) : s.ShortPaths (room + 1) := by
  intro path hpath
  cases hpath with
  | nil => exact Nat.zero_le _
  | singleton => exact Nat.succ_le_succ (Nat.zero_le _)
  | cons_cons hdirect hpath =>
      obtain ⟨entry, hentry⟩ := hdirect.exists_entry
      have hlt := lt_of_entry hentry
      exact length_lt_of_climbs (h _ hlt) (.cons_cons hdirect hpath)

namespace ShortPaths

theorem climbs {bound : Nat} (h : s.ShortPaths bound) (type : Handle) :
    s.climbs 0 bound type = true :=
  climbs_of_paths fun _ hpath => h _ hpath

/-- A path does not come back: ranks fall along it. -/
theorem acyclic {bound : Nat} (h : s.ShortPaths bound) : ¬ TransGen s.Direct type type := by
  have hclimbs : ∀ type < s.size, s.climbs 0 bound type = true := fun type _ => h.climbs type
  obtain ⟨rank, hfall, -⟩ := ranksFall_of_climbs hclimbs
  have hstep : ∀ {type super}, s.Direct type super → rank super < rank type := by
    intro type super hdirect
    obtain ⟨entry, hentry⟩ := hdirect.exists_entry
    rcases (direct_iff hentry).mp hdirect with hbase | hinterface
    · exact hfall.base type entry (Nat.zero_le _) hentry super hbase (Nat.zero_le _)
    · exact hfall.direct type entry (Nat.zero_le _) hentry super hinterface (Nat.zero_le _)
  have hpath : ∀ {type super}, TransGen s.Direct type super → rank super < rank type := by
    intro type super hpath
    induction hpath with
    | single hdirect => exact hstep hdirect
    | tail _ hdirect ih => exact (hstep hdirect).trans ih
  exact fun hcycle => Nat.lt_irrefl _ (hpath hcycle)

theorem antisymm {bound : Nat} (h : s.ShortPaths bound) (hup : ReflTransGen s.Direct type super)
    (hdown : ReflTransGen s.Direct super type) : type = super := by
  rcases Relation.reflTransGen_iff_eq_or_transGen.mp hup with heq | hup
  · exact heq.symm
  · exact absurd (hup.trans_left hdown) h.acyclic

theorem closable (h : s.ShortPaths maxInstantiationDepth)
    (hsize : s.size < Limits.supertypeClosure.maxIterations) : s.Closable where
  size_le := hsize.le
  acyclic := ⟨_, fun type _ => h.climbs type⟩
  interned type _ := h.climbs type
  declared type _ := climbs_mono (Nat.zero_le type) (Nat.le_refl _) (h.climbs type)

end ShortPaths

end Paths

section Order

theorem nodup_appendNew {types : List Handle} (h : types.Nodup) (type : Handle) :
    (appendNew types type).Nodup := by
  unfold appendNew
  split
  · exact h
  · next hnew =>
      rw [List.nodup_append]
      refine ⟨h, List.nodup_singleton type, fun a ha b hb hab => hnew ?_⟩
      rw [← List.mem_singleton.mp hb, ← hab]
      exact ha

theorem nodup_foldl_appendNew {all types : List Handle} (h : all.Nodup) :
    (types.foldl appendNew all).Nodup := by
  induction types generalizing all with
  | nil => exact h
  | cons type types ih => exact ih (nodup_appendNew h type)

/-- Types appended unless they are there already: first occurrences are kept. -/
theorem foldl_appendNew_eq (types : List Handle) : types.foldl appendNew [] = types.eraseDups := by
  induction types using List.reverseRecOn with
  | nil => rfl
  | append_singleton types type ih =>
      rw [List.foldl_append, ih, List.foldl_cons, List.foldl_nil, List.eraseDups_append, appendNew]
      by_cases hmem : type ∈ types
      · rw [if_pos (List.mem_eraseDups.mpr hmem)]
        simp [List.removeAll, hmem]
      · rw [if_neg (mt List.mem_eraseDups.mp hmem)]
        simp [List.removeAll, hmem, List.eraseDups_cons]

/-- Each interface followed by what it lists, as one list. -/
theorem gatherDirect_eq (all interfaces : List Handle) : s.gatherDirect all interfaces =
    (interfaces.flatMap fun interface => interface :: s.interfaceSet interface).foldl
      appendNew all := by
  rw [List.foldl_flatMap]
  rfl

theorem gather_eq (entry : Entry) : s.gather entry =
    (entry.directInterfaces.flatMap (fun interface => interface :: s.interfaceSet interface) ++
      (entry.base.map s.interfaceSet).getD []).eraseDups := by
  rw [gather, gatherDirect_eq, ← List.foldl_append, foldl_appendNew_eq]

end Order

/-- What the interfaces of a type have to be: each direct interface followed by its own interfaces, in
the order of declaration, and then the interfaces of the base, the first time that each occurs. -/
def inheritedInterfaces (store : Store) (type : Handle) : Query (List Handle) := do
  let entry ← store.entry type
  let direct ← entry.directInterfaces.mapM fun interface =>
    return interface :: (← store.interfaces interface)
  let inherited ← match entry.base with
    | some base => store.interfaces base
    | none => pure []
  return (direct.flatten ++ inherited).eraseDups

theorem inheritedInterfaces_eq (hs : s.WellFormed) {entry : Entry}
    (hentry : s.types[type]? = some entry) :
    s.inheritedInterfaces type = .ok (s.gather entry) := by
  have hrange := hs.inRange.links hentry
  have hdirect : entry.directInterfaces.mapM (fun interface =>
      return interface :: (← s.interfaces interface)) =
        .ok (entry.directInterfaces.map fun interface => interface :: s.interfaceSet interface) := by
    rw [Query.mapM_eq_ok, List.forall₂_map_right_iff, List.forall₂_same]
    intro interface hmem
    rw [interfaces_eq_interfaceSet (hrange.directInterfaces interface hmem)]
    rfl
  rw [inheritedInterfaces, entry_eq_ok.mpr hentry, Query.ok_bind, hdirect, Query.ok_bind, gather_eq,
    ← List.flatMap_def]
  cases hbase : entry.base with
  | none => rfl
  | some base =>
      dsimp only
      rw [interfaces_eq_interfaceSet (hrange.base base hbase)]
      rfl

theorem not_isParameter (hproper : s.param? type = .ok none) : ¬ s.IsParameter type := by
  rintro ⟨form, info, hform, hshape⟩
  exact ParamAt.param?_ne ⟨form, info, hform, hshape, rfl, rfl⟩ hproper

/-- In a finished store in which no path of direct supertypes is longer than instantiations may be
deep, the interfaces of every type but type parameters are its transitive interfaces, in order and
without repetition. -/
theorem Reachable.interfaces_transitive (hs : s.Reachable) (hfinished : s.finished = true)
    (hpaths : s.ShortPaths maxInstantiationDepth)
    (hsize : s.size < Limits.supertypeClosure.maxIterations)
    (hproper : s.param? type = .ok none) :
    ∃ interfaces, s.interfaces type = .ok interfaces ∧ interfaces.Nodup ∧
      s.inheritedInterfaces type = .ok interfaces := by
  obtain ⟨entry, hentry, -⟩ := Query.bind_eq_ok.mp hproper
  have hentry := entry_eq_ok.mp hentry
  have hlt : type < s.size := lt_of_entry hentry
  obtain ⟨entry', hcomplete⟩ :=
    (hs.gathered hfinished (hpaths.closable hsize)).complete type hlt (not_isParameter hproper)
  obtain rfl := Option.some.inj (hentry.symm.trans hcomplete.found)
  refine ⟨s.gather entry, ?_, ?_, inheritedInterfaces_eq hs.lawful.wellFormed hentry⟩
  · rw [interfaces_eq_interfaceSet hlt, interfaceSet_of_entry hentry, hcomplete.interfaces]
  · rw [gather, gatherDirect_eq, ← List.foldl_append]
    exact nodup_foldl_appendNew List.nodup_nil

/-- Bags, which are closable collections, and words: a bag of strings that is declared as a sequence
as well. Bags of words are added at the end. -/
def bagOperations : List Operation :=
  [.declareGeneric .interfaceType "ISequence" [("T", .covariant)],
    .declareGeneric .interfaceType "ICollection" [("T", .invariant)],
    .instantiate 1 [4],
    .addInterface 3 5,
    .declare .classType "string",
    .declare .interfaceType "IClosable",
    .declareGeneric .classType "Bag" [("T", .invariant)],
    .instantiate 3 [9],
    .addInterface 8 7,
    .addInterface 8 10,
    .declare .classType "Words",
    .instantiate 8 [6],
    .setBase 11 12,
    .instantiate 1 [6],
    .addInterface 11 13,
    .finish,
    .instantiate 8 [11]]

/-- The store that `bagOperations` build. -/
def bagStore : Store := (Operation.runAll bagOperations (ofRoot "object")).getD {}

/-- Words are sequences of strings first, as declared, and then what bags of strings are. These are
sequences of strings last. -/
theorem interfaces_transitive_bag :
    bagStore.interfaces 11 = .ok [13, 7, 14] ∧ bagStore.interfaces 12 = .ok [7, 14, 13] ∧
      bagStore.inheritedInterfaces 11 = .ok [13, 7, 14] := by
  have hreachable : bagStore.Reachable := (Reachable.ofRoot "object").runAll
    (by decide +kernel : Operation.runAll bagOperations (ofRoot "object") = some bagStore)
  have hclimbs : ∀ type < bagStore.size, bagStore.climbs 0 maxInstantiationDepth type = true := by
    decide +kernel
  have hinterfaces : bagStore.interfaces 11 = .ok [13, 7, 14] := by decide +kernel
  have hproper : bagStore.param? 11 = .ok none := by decide +kernel
  obtain ⟨interfaces, hsome, -, hinherited⟩ := hreachable.interfaces_transitive
    (by decide +kernel) (shortPaths_of_climbs hclimbs) (by decide +kernel) hproper
  obtain rfl := Except.ok.inj (hinterfaces.symm.trans hsome)
  exact ⟨hinterfaces, by decide +kernel, hinherited⟩

end NominalGenerics.Store
