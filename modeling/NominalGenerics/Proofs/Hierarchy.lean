import Mathlib.Data.Nat.Find
import NominalGenerics.Hierarchy
import NominalGenerics.Proofs.Store.Inheritance

/-!
# Supertypes

Walks up the hierarchy of a well-formed store do not fault and stay inside the store.
-/

namespace NominalGenerics.Store

variable {s : Store} {type : Handle}

/-- `super` is listed among the supertypes of `type`. -/
def Supertype (store : Store) (type super : Handle) : Prop :=
  ∃ supers, store.supertypes type = .ok supers ∧ super ∈ supers

theorem chainFrom_total (hs : s.WellFormed) (room : Nat) (seen : List Handle)
    (hlt : type < s.size) :
    ∃ chain, s.chainFrom room seen type = .ok chain ∧ ∀ t ∈ chain, t < s.size := by
  induction room generalizing seen type with
  | zero => exact ⟨[], rfl, by simp⟩
  | succ room ih =>
      rw [chainFrom]
      split
      · exact ⟨[], rfl, by simp⟩
      · obtain ⟨entry, hentry⟩ := entry_of_lt hlt
        rw [base?, query_of_entry hentry (·.base), Query.ok_bind]
        cases hbase : entry.base with
        | none => exact ⟨[type], rfl, by simpa using hlt⟩
        | some base =>
            obtain ⟨chain, hchain, hall⟩ := ih (type :: seen) ((hs.inRange.links hentry).base base hbase)
            refine ⟨type :: chain, ?_, fun t ht => ?_⟩
            · simp only [hchain, Query.ok_bind]
              rfl
            · rcases List.mem_cons.mp ht with rfl | ht
              · exact hlt
              · exact hall t ht

theorem supertypes_total (hs : s.WellFormed) (hlt : type < s.size) :
    ∃ supers, s.supertypes type = .ok supers ∧ ∀ t ∈ supers, t < s.size := by
  obtain ⟨chain, hchain, hall⟩ := chainFrom_total hs maxBaseChainLength [] hlt
  obtain ⟨entry, hentry⟩ := entry_of_lt hlt
  refine ⟨chain ++ entry.interfaces, ?_, fun t ht => ?_⟩
  · rw [supertypes, baseChain, hchain, Query.ok_bind, interfaces,
      query_of_entry hentry (·.interfaces)]
    rfl
  · rcases List.mem_append.mp ht with ht | ht
    · exact hall t ht
    · exact (hs.inRange.links hentry).interfaces t ht

theorem Supertype.lt (hs : s.WellFormed) {super : Handle} (h : s.Supertype type super)
    (hlt : type < s.size) : super < s.size := by
  obtain ⟨supers, hsupers, hmem⟩ := h
  obtain ⟨supers', hsupers', hall⟩ := supertypes_total hs hlt
  obtain rfl := Except.ok.inj (hsupers.symm.trans hsupers')
  exact hall super hmem

theorem baseChain_head {chain : List Handle} (h : s.baseChain type = .ok chain) :
    ∃ rest, chain = type :: rest := by
  rw [baseChain, maxBaseChainLength, chainFrom, if_neg (by simp)] at h
  obtain ⟨base, -, h⟩ := Query.bind_eq_ok.mp h
  cases base with
  | none => exact ⟨[], (Query.pure_eq_ok.mp h).symm⟩
  | some base =>
      obtain ⟨rest, -, h⟩ := Query.bind_eq_ok.mp h
      exact ⟨rest, (Query.pure_eq_ok.mp h).symm⟩

/-- A type is the first of its own supertypes. -/
theorem supertype_self (hs : s.WellFormed) (hlt : type < s.size) : s.Supertype type type := by
  obtain ⟨supers, hsupers, -⟩ := supertypes_total hs hlt
  refine ⟨supers, hsupers, ?_⟩
  obtain ⟨chain, hchain, hsupers⟩ := Query.bind_eq_ok.mp hsupers
  obtain ⟨interfaces, -, hsupers⟩ := Query.bind_eq_ok.mp hsupers
  obtain rfl := Query.pure_eq_ok.mp hsupers
  obtain ⟨rest, rfl⟩ := baseChain_head hchain
  exact List.mem_append_left _ List.mem_cons_self

section BaseChain

variable {n k : Nat} {super mid : Handle}

/-- `super` is the type after a number of steps from `type` to the base. -/
inductive BaseSteps (store : Store) : Nat → Handle → Handle → Prop
  | zero {type : Handle} : BaseSteps store 0 type type
  | succ {n : Nat} {type base super : Handle} {interfaces : List Handle}
      (hlinks : store.links type = some (some base, interfaces))
      (hsteps : BaseSteps store n base super) : BaseSteps store (n + 1) type super

/-- Steps to the base have one end, so that a part of them can be left out. -/
theorem BaseSteps.drop (hmid : s.BaseSteps k type mid) (h : s.BaseSteps n type super)
    (hle : k ≤ n) : s.BaseSteps (n - k) mid super := by
  induction hmid generalizing n with
  | zero => exact h
  | succ hlinks _ ih =>
      cases h with
      | zero => exact absurd hle (by simp)
      | succ hlinks' h =>
          cases hlinks.symm.trans hlinks'
          rw [Nat.add_sub_add_right]
          exact ih h (Nat.le_of_succ_le_succ hle)

theorem BaseSteps.mono {s' : Store} (hlinks : ∀ type links, s.links type = some links →
    s'.links type = some links) (h : s.BaseSteps n type super) : s'.BaseSteps n type super := by
  induction h with
  | zero => exact .zero
  | succ hl _ ih => exact .succ (hlinks _ _ hl) ih

theorem base?_of_links {base : Option Handle} {interfaces : List Handle}
    (h : s.links type = some (base, interfaces)) : s.base? type = .ok base := by
  obtain ⟨entry, hentry, heq⟩ := Option.map_eq_some_iff.mp h
  cases heq
  exact query_of_entry hentry (·.base)

theorem baseSteps_of_mem_chainFrom {room : Nat} {seen chain : List Handle}
    (hchain : s.chainFrom room seen type = .ok chain) (hmem : super ∈ chain) :
    ∃ n < room, s.BaseSteps n type super := by
  induction room generalizing seen type chain with
  | zero =>
      cases hchain
      cases hmem
  | succ room ih =>
      rw [chainFrom] at hchain
      split at hchain
      · cases hchain
        cases hmem
      · obtain ⟨base?, hbase, hchain⟩ := Query.bind_eq_ok.mp hchain
        obtain ⟨entry, hentry, hread⟩ := Query.bind_eq_ok.mp hbase
        obtain rfl := Query.pure_eq_ok.mp hread
        cases hbase : entry.base with
        | none =>
            rw [hbase] at hchain
            cases hchain
            rw [List.mem_singleton.mp hmem]
            exact ⟨0, Nat.succ_pos room, .zero⟩
        | some base =>
            rw [hbase] at hchain
            obtain ⟨rest, hrest, hchain⟩ := Query.bind_eq_ok.mp hchain
            cases hchain
            rcases List.mem_cons.mp hmem with rfl | hmem
            · exact ⟨0, Nat.succ_pos room, .zero⟩
            · obtain ⟨n, hn, hsteps⟩ := ih hrest hmem
              have hlinks := links_of_entry (entry_eq_ok.mp hentry)
              rw [hbase] at hlinks
              exact ⟨n + 1, Nat.succ_lt_succ hn, .succ hlinks hsteps⟩

/-- The shortest way to a type never comes back to a type that it has seen, so the chain lists the
type. -/
theorem mem_chainFrom_of_baseSteps {room : Nat} {seen chain : List Handle}
    (h : s.BaseSteps n type super) (hshortest : ∀ m < n, ¬ s.BaseSteps m type super)
    (hfree : ∀ m ≤ n, ∀ t, s.BaseSteps m type t → t ∉ seen) (hroom : n < room)
    (hchain : s.chainFrom room seen type = .ok chain) : super ∈ chain := by
  induction h generalizing room seen chain with
  | @zero type =>
      cases room with
      | zero => cases hroom
      | succ room =>
          rw [chainFrom, if_neg (hfree 0 (Nat.le_refl 0) type .zero)] at hchain
          obtain ⟨base?, -, hchain⟩ := Query.bind_eq_ok.mp hchain
          cases base? with
          | none =>
              cases hchain
              exact List.mem_singleton_self type
          | some base =>
              obtain ⟨rest, -, hchain⟩ := Query.bind_eq_ok.mp hchain
              cases hchain
              exact List.mem_cons_self
  | @succ n type base super interfaces hlinks hsteps ih =>
      cases room with
      | zero => cases hroom
      | succ room =>
          rw [chainFrom, if_neg (hfree 0 (Nat.zero_le _) type .zero), base?_of_links hlinks,
            Query.ok_bind] at hchain
          obtain ⟨rest, hrest, hchain⟩ := Query.bind_eq_ok.mp hchain
          cases hchain
          refine List.mem_cons_of_mem type (ih (fun m hm hshort => ?_) (fun m hm t ht => ?_)
            (Nat.lt_of_succ_lt_succ hroom) hrest)
          · exact hshortest (m + 1) (Nat.succ_lt_succ hm) (.succ hlinks hshort)
          · intro hmem
            have hback : s.BaseSteps (m + 1) type t := .succ hlinks ht
            rcases List.mem_cons.mp hmem with rfl | hmem
            · exact hshortest (n + 1 - (m + 1)) (by omega)
                (hback.drop (.succ hlinks hsteps) (Nat.succ_le_succ hm))
            · exact hfree (m + 1) (Nat.succ_le_succ hm) t hback hmem

/-- The supertypes of a type are the types up to a number of steps to the base, and its
interfaces. -/
theorem supertype_iff (hs : s.WellFormed) {entry : Entry} (hentry : s.types[type]? = some entry) :
    s.Supertype type super ↔
      (∃ n < maxBaseChainLength, s.BaseSteps n type super) ∨ super ∈ entry.interfaces := by
  have hlt : type < s.size := lt_of_entry hentry
  obtain ⟨chain, hchain, -⟩ := chainFrom_total hs maxBaseChainLength [] hlt
  have hsupers : s.supertypes type = .ok (chain ++ entry.interfaces) := by
    rw [supertypes, baseChain, hchain, Query.ok_bind, interfaces,
      query_of_entry hentry (·.interfaces)]
    rfl
  constructor
  · rintro ⟨supers, hsupers', hmem⟩
    obtain rfl := Except.ok.inj (hsupers.symm.trans hsupers')
    exact (List.mem_append.mp hmem).imp (baseSteps_of_mem_chainFrom hchain) id
  · intro h
    refine ⟨_, hsupers, List.mem_append.mpr (h.imp (fun ⟨n, hn, hsteps⟩ => ?_) id)⟩
    classical
    have hexists : ∃ n, s.BaseSteps n type super := ⟨n, hsteps⟩
    have hleast : Nat.find hexists ≤ n := Nat.find_min' hexists hsteps
    exact mem_chainFrom_of_baseSteps (Nat.find_spec hexists) (fun m hm => Nat.find_min hexists hm)
      (by simp) (Nat.lt_of_le_of_lt hleast hn) hchain

end BaseChain

/-- The type is or instantiates the definition. -/
def hasDefinition (store : Store) (definition type : Handle) : Bool :=
  match store.definitionOrSelf type with
  | .ok other => other == definition
  | .error _ => false

theorem hasDefinition_eq_true {definition : Handle} :
    s.hasDefinition definition type = true ↔ s.definitionOrSelf type = .ok definition := by
  unfold hasDefinition
  cases s.definitionOrSelf type <;> simp

/-- The supertypes of a type are its base chain followed by its interfaces. -/
theorem supertypes_parts (hs : s.WellFormed) (hlt : type < s.size) :
    ∃ chain interfaces, s.baseChain type = .ok chain ∧ s.interfaces type = .ok interfaces ∧
      s.supertypes type = .ok (chain ++ interfaces) ∧ ∀ super ∈ chain ++ interfaces, super < s.size := by
  obtain ⟨supers, hsupers, hall⟩ := supertypes_total hs hlt
  obtain ⟨chain, hchain, hrest⟩ := Query.bind_eq_ok.mp hsupers
  obtain ⟨interfaces, hinterfaces, hrest⟩ := Query.bind_eq_ok.mp hrest
  obtain rfl := Query.pure_eq_ok.mp hrest
  exact ⟨chain, interfaces, hchain, hinterfaces, hsupers, hall⟩

/-- A search is decided by the base chain, then the root, then the interfaces. -/
theorem findImplementation_eq {definition : Handle} {chain interfaces : List Handle}
    (hchain : s.baseChain type = .ok chain) (hinterfaces : s.interfaces type = .ok interfaces)
    (hlt : ∀ t ∈ chain ++ interfaces, t < s.size) :
    s.findImplementation type definition = .ok
      (match chain.find? (s.hasDefinition definition) with
      | some found => .found found
      | none =>
          if definition == s.root then .found definition
          else
            match (interfaces.filter (s.hasDefinition definition)).eraseDups with
            | [] => .notFound
            | [found] => .found found
            | found => .ambiguous found) := by
  have htest : ∀ t ∈ chain ++ interfaces,
      (return (← s.definitionOrSelf t) == definition : Query Bool) =
        .ok (s.hasDefinition definition t) := by
    intro t ht
    obtain ⟨form, hform⟩ := form_isSome (hlt t ht)
    rw [hasDefinition, definitionOrSelf_of_form hform]
    rfl
  rw [findImplementation, hchain, Query.ok_bind,
    Query.first?_of_total fun t ht => htest t (List.mem_append_left _ ht), Query.ok_bind]
  cases chain.find? (s.hasDefinition definition) with
  | some found => rfl
  | none =>
      simp only
      split
      · rfl
      · rw [hinterfaces, Query.ok_bind,
          Query.select_of_total fun t ht => htest t (List.mem_append_right _ ht), Query.ok_bind]
        split <;> simp_all [pure, Except.pure]

/-- A search does not fault. What it finds instantiates the definition, and is a supertype or the
root. -/
theorem findImplementation_total (hs : s.WellFormed) {definition : Handle} (hlt : type < s.size)
    (hd : s.definitionOrSelf definition = .ok definition) :
    ∃ result, s.findImplementation type definition = .ok result ∧
      ∀ found, result = .found found →
        s.definitionOrSelf found = .ok definition ∧
          (s.Supertype type found ∨ found = s.root ∧ definition = s.root) := by
  obtain ⟨chain, interfaces, hchain, hinterfaces, hsupers, hall⟩ := supertypes_parts hs hlt
  refine ⟨_, findImplementation_eq hchain hinterfaces hall, fun found hfound => ?_⟩
  have hsuper : ∀ t, t ∈ chain ++ interfaces → s.Supertype type t := fun t ht => ⟨_, hsupers, ht⟩
  split at hfound
  · next found' hfind =>
      obtain rfl := Implementation.found.inj hfound
      exact ⟨hasDefinition_eq_true.mp (List.find?_some hfind),
        Or.inl (hsuper _ (List.mem_append_left _ (List.mem_of_find?_eq_some hfind)))⟩
  · split at hfound
    · next hroot =>
        obtain rfl := Implementation.found.inj hfound
        exact ⟨hd, Or.inr ⟨by simpa using hroot, by simpa using hroot⟩⟩
    · split at hfound
      · cases hfound
      · next found' hsingle =>
          obtain rfl := Implementation.found.inj hfound
          have hmem : found' ∈ interfaces.filter (s.hasDefinition definition) :=
            List.mem_eraseDups.mp (by rw [hsingle]; exact List.mem_singleton.mpr rfl)
          obtain ⟨hmem, hdef⟩ := List.mem_filter.mp hmem
          exact ⟨hasDefinition_eq_true.mp hdef, Or.inl (hsuper _ (List.mem_append_right _ hmem))⟩
      · cases hfound

/-- A type that has the definition is found first. -/
theorem findImplementation_self (hs : s.WellFormed) {definition : Handle} (hlt : type < s.size)
    (hd : s.definitionOrSelf type = .ok definition) :
    s.findImplementation type definition = .ok (.found type) := by
  obtain ⟨chain, interfaces, hchain, hinterfaces, hsupers, hall⟩ := supertypes_parts hs hlt
  obtain ⟨rest, rfl⟩ := baseChain_head hchain
  rw [findImplementation_eq hchain hinterfaces hall,
    List.find?_cons_of_pos (hasDefinition_eq_true.mpr hd)]

/-- What has no type parameters is the definition of nothing else. -/
theorem IsNamed.eq_of_definitionOrSelf {named : Handle} (hnamed : s.IsNamed named)
    (hs : s.Coherent) (h : s.definitionOrSelf type = .ok named) (hlt : type < s.size) :
    type = named := by
  obtain ⟨form, hform⟩ := form_isSome hlt
  rw [definitionOrSelf_of_form hform, Except.ok.injEq] at h
  cases hdefinition : form.definition? type with
  | none => simpa [hdefinition] using h
  | some definition =>
      obtain rfl : definition = named := by simpa [hdefinition] using h
      obtain ⟨nform, hnform, hnshape⟩ := hnamed
      obtain ⟨params, ⟨dform, hdform, hdshape⟩, -⟩ := hs.applies_of_form hform hdefinition
      obtain rfl := Option.some.inj (hdform.symm.trans hnform)
      cases hdshape.symm.trans hnshape

/-- Only the root has the root for its definition. -/
theorem eq_root_of_definitionOrSelf (hs : s.Coherent) (h : s.definitionOrSelf type = .ok s.root)
    (hlt : type < s.size) : type = s.root :=
  (isNamed_root hs).eq_of_definitionOrSelf hs h hlt

/-- Every type has the root above it. -/
theorem findImplementation_root (hs : s.WellFormed) (hlt : type < s.size) :
    s.findImplementation type s.root = .ok (.found s.root) := by
  obtain ⟨chain, interfaces, hchain, hinterfaces, hsupers, hall⟩ := supertypes_parts hs hlt
  rw [findImplementation_eq hchain hinterfaces hall]
  cases hfind : chain.find? (s.hasDefinition s.root) with
  | none => simp
  | some found =>
      have hmem := List.mem_append_left interfaces (List.mem_of_find?_eq_some hfind)
      rw [eq_root_of_definitionOrSelf hs.coherent (hasDefinition_eq_true.mp (List.find?_some hfind))
        (hall found hmem)]

/-- A search among supertypes of which one has the definition finds one, or is ambiguous. -/
theorem findImplementation_of_supertype (hs : s.WellFormed) {super definition : Handle}
    (hlt : type < s.size) (hsuper : s.Supertype type super)
    (hd : s.definitionOrSelf super = .ok definition) :
    (∃ types, s.findImplementation type definition = .ok (.ambiguous types)) ∨
      ∃ found, s.findImplementation type definition = .ok (.found found) := by
  obtain ⟨chain, interfaces, hchain, hinterfaces, hsupers, hall⟩ := supertypes_parts hs hlt
  obtain ⟨supers, hsupers', hmem⟩ := hsuper
  obtain rfl := Except.ok.inj (hsupers.symm.trans hsupers')
  rw [findImplementation_eq hchain hinterfaces hall]
  cases hfind : chain.find? (s.hasDefinition definition) with
  | some found => exact Or.inr ⟨found, rfl⟩
  | none =>
      simp only
      split
      · exact Or.inr ⟨definition, rfl⟩
      · have hinstance := hasDefinition_eq_true.mpr hd
        have hinterface : super ∈ interfaces :=
          (List.mem_append.mp hmem).resolve_left fun h =>
            List.find?_eq_none.mp hfind super h hinstance
        have hlisted : super ∈ (interfaces.filter (s.hasDefinition definition)).eraseDups :=
          List.mem_eraseDups.mpr (List.mem_filter.mpr ⟨hinterface, hinstance⟩)
        split
        · next hnil =>
            rw [hnil] at hlisted
            cases hlisted
        · next found _ => exact Or.inr ⟨found, rfl⟩
        · exact Or.inl ⟨_, rfl⟩

/-- At most one supertype of the type has the definition. -/
def Univocal (store : Store) (type definition : Handle) : Prop :=
  ∀ super super', store.Supertype type super → store.Supertype type super' →
    store.definitionOrSelf super = .ok definition → store.definitionOrSelf super' = .ok definition →
      super = super'

/-- A search for a definition that at most one supertype has finds it. -/
theorem findImplementation_of_univocal (hs : s.WellFormed) {definition : Handle}
    (hlt : type < s.size) (h : s.Univocal type definition) :
    (∃ super, s.Supertype type super ∧ s.definitionOrSelf super = .ok definition ∧
      s.findImplementation type definition = .ok (.found super)) ∨
    (∀ super, s.Supertype type super → s.definitionOrSelf super ≠ .ok definition) ∧
      s.findImplementation type definition =
        .ok (if definition = s.root then .found definition else .notFound) := by
  obtain ⟨chain, interfaces, hchain, hinterfaces, hsupers, hall⟩ := supertypes_parts hs hlt
  have hsuper : ∀ t, t ∈ chain ++ interfaces → s.Supertype type t := fun t ht => ⟨_, hsupers, ht⟩
  rw [findImplementation_eq hchain hinterfaces hall]
  cases hfind : chain.find? (s.hasDefinition definition) with
  | some found =>
      exact Or.inl ⟨found, hsuper _ (List.mem_append_left _ (List.mem_of_find?_eq_some hfind)),
        hasDefinition_eq_true.mp (List.find?_some hfind), rfl⟩
  | none =>
      have hchainNone := List.find?_eq_none.mp hfind
      cases hfilter : interfaces.filter (s.hasDefinition definition) with
      | nil =>
          refine Or.inr ⟨?_, by simp⟩
          rintro super ⟨supers, hsupers', hmem⟩ hdef
          obtain rfl := Except.ok.inj (hsupers.symm.trans hsupers')
          rcases List.mem_append.mp hmem with hmem | hmem
          · exact hchainNone super hmem (hasDefinition_eq_true.mpr hdef)
          · exact List.filter_eq_nil_iff.mp hfilter super hmem (hasDefinition_eq_true.mpr hdef)
      | cons found rest =>
          have hmem : ∀ t ∈ found :: rest, s.Supertype type t ∧
              s.definitionOrSelf t = .ok definition := by
            intro t ht
            rw [← hfilter] at ht
            obtain ⟨ht, hdef⟩ := List.mem_filter.mp ht
            exact ⟨hsuper t (List.mem_append_right _ ht), hasDefinition_eq_true.mp hdef⟩
          obtain ⟨hfound, hdef⟩ := hmem found List.mem_cons_self
          refine Or.inl ⟨found, hfound, hdef, ?_⟩
          have hsame : rest.filter (fun t => !t == found) = [] := by
            refine List.filter_eq_nil_iff.mpr fun t ht => ?_
            obtain ⟨hsuper', hdef'⟩ := hmem t (List.mem_cons_of_mem _ ht)
            simp [h t found hsuper' hfound hdef' hdef]
          rw [List.eraseDups_cons, hsame]
          by_cases hroot : definition = s.root
          · subst hroot
            simp [eq_root_of_definitionOrSelf hs.coherent hdef (hfound.lt hs hlt)]
          · simp [hroot]

end NominalGenerics.Store
