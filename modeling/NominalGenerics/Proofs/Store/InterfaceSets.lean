import Mathlib.Order.Lattice.Nat
import NominalGenerics.Proofs.Store.Stability

/-!
# Complete interface sets

A walk that closes types gives up where a path of supertypes meets itself or is too long, so the
interface sets that it computes may depend on where it began. It passes closed types by. So where
the types before some handle are closed and the paths of direct supertypes through the later ones
are short, it never gives up: every type that it closes lists each of its direct interfaces,
followed by what that interface lists, and then what its base lists. These lists are determined by
the direct supertypes alone.
-/

namespace NominalGenerics.Store

variable {s s' : Store}

/-- Whether every path of direct supertypes that begins with the type visits at most `room` types
before it ends or comes to a type before `start`. -/
def climbs (store : Store) (start : Nat) : (room : Nat) → Handle → Bool
  | 0, type => type < start
  | room + 1, type =>
      type < start || (store.types[type]?).all fun entry =>
        entry.base.all (store.climbs start room) &&
          entry.directInterfaces.all (store.climbs start room)

/-- No path of direct supertypes through the types from `start` on visits more of them than a
closing walk may have on its path, and there are no more of them than it may try. -/
structure Shallow (start : Nat) (store : Store) : Prop where
  size_le : store.size ≤ handleSpace
  added_le : store.size ≤ start + Limits.supertypeClosure.maxIterations
  paths : ∀ type, type < store.size →
    store.climbs start Limits.supertypeClosure.maxDepth type = true

/-- The types from `start` on have larger ranks than their direct supertypes among them. Ranks are
below the length of a path, and there are no more such types than a closing walk may try. -/
structure Ranks (start : Nat) (rank : Handle → Nat) (store : Store) : Prop where
  size_le : store.size ≤ handleSpace
  added_le : store.size ≤ start + Limits.supertypeClosure.maxIterations
  bounded : ∀ (type : Handle) entry, start ≤ type → store.types[type]? = some entry →
    rank type < Limits.supertypeClosure.maxDepth
  base : ∀ (type : Handle) entry, start ≤ type → store.types[type]? = some entry →
    ∀ super, entry.base = some super → start ≤ super → rank super < rank type
  direct : ∀ (type : Handle) entry, start ≤ type → store.types[type]? = some entry →
    ∀ super ∈ entry.directInterfaces, start ≤ super → rank super < rank type

/-- Ranks fall along direct supertypes, as far as these are types from `start` on. -/
structure RanksFall (start : Nat) (rank : Handle → Nat) (store : Store) : Prop where
  base : ∀ (type : Handle) entry, start ≤ type → store.types[type]? = some entry →
    ∀ super, entry.base = some super → start ≤ super → rank super < rank type
  direct : ∀ (type : Handle) entry, start ≤ type → store.types[type]? = some entry →
    ∀ super ∈ entry.directInterfaces, start ≤ super → rank super < rank type

theorem Ranks.fall {start : Nat} {rank : Handle → Nat} (h : s.Ranks start rank) :
    s.RanksFall start rank :=
  ⟨h.base, h.direct⟩

/-- A path begins with a step to a direct supertype. -/
theorem climbs_succ {start room : Nat} {type : Handle} {entry : Entry}
    (hentry : s.types[type]? = some entry) : s.climbs start (room + 1) type = true ↔
      type < start ∨ (∀ super, entry.base = some super → s.climbs start room super = true) ∧
        ∀ super ∈ entry.directInterfaces, s.climbs start room super = true := by
  rw [climbs, hentry, Option.all_some, Bool.or_eq_true, decide_eq_true_eq, Bool.and_eq_true,
    List.all_eq_true, Option.all_eq_true]

/-- A path of direct supertypes may be longer, or may end earlier. -/
theorem climbs_mono {start start' room room' : Nat} (hstart : start ≤ start')
    (hroom : room ≤ room') {type : Handle} (h : s.climbs start room type = true) :
    s.climbs start' room' type = true := by
  have hbefore : ∀ {room type}, type < start → s.climbs start' room type = true := by
    intro room type hlt
    have hlt' := decide_eq_true (Nat.lt_of_lt_of_le hlt hstart)
    cases room with
    | zero => exact hlt'
    | succ room => rw [climbs, hlt', Bool.true_or]
  induction room generalizing room' type with
  | zero => exact hbefore (of_decide_eq_true h)
  | succ room ih =>
      obtain ⟨room', rfl⟩ := Nat.exists_eq_add_of_lt hroom
      cases hentry : s.types[type]? with
      | none => rw [climbs, hentry, Option.all_none, Bool.or_true]
      | some entry =>
          rcases (climbs_succ hentry).mp h with hlt | ⟨hbase, hdirect⟩
          · exact hbefore hlt
          · exact (climbs_succ hentry).mpr (Or.inr
              ⟨fun super hsuper => ih (by omega) (hbase super hsuper),
                fun super hsuper => ih (by omega) (hdirect super hsuper)⟩)

theorem entry_of_links {type : Handle} {entry : Entry} (hentry : s.types[type]? = some entry)
    (hlinks : s'.links type = s.links type) : ∃ entry', s'.types[type]? = some entry' ∧
      entry'.base = entry.base ∧ entry'.directInterfaces = entry.directInterfaces := by
  obtain ⟨entry', hentry', hpair⟩ :=
    Option.map_eq_some_iff.mp (hlinks.trans (links_of_entry hentry))
  exact ⟨entry', hentry', congrArg Prod.fst hpair, congrArg Prod.snd hpair⟩

/-- Paths through a part of a store are paths through the store. -/
theorem climbs_of_links {start room : Nat} (hs : s.WellFormed)
    (hlinks : ∀ type, type < s.size → s'.links type = s.links type) {type : Handle}
    (hlt : type < s.size) (h : s'.climbs start room type = true) :
    s.climbs start room type = true := by
  induction room generalizing type with
  | zero => exact h
  | succ room ih =>
      obtain ⟨entry, hentry⟩ := entry_of_lt hlt
      obtain ⟨entry', hentry', hbase, hdirect⟩ := entry_of_links hentry (hlinks type hlt)
      have hrange := hs.inRange.links hentry
      refine (climbs_succ hentry).mpr (((climbs_succ hentry').mp h).imp_right fun hsupers => ?_)
      rw [hbase, hdirect] at hsupers
      exact ⟨fun super hsuper => ih (hrange.base super hsuper) (hsupers.1 super hsuper),
        fun super hsuper => ih (hrange.directInterfaces super hsuper) (hsupers.2 super hsuper)⟩

/-- Types from which all paths end are ranked by the longest of these paths. -/
theorem ranksFall_of_climbs {start room : Nat}
    (hclimbs : ∀ type, type < s.size → s.climbs start room type = true) :
    ∃ rank, s.RanksFall start rank ∧
      ∀ type height, s.climbs start (height + 1) type = true → rank type ≤ height := by
  let heights (type : Handle) : Set Nat := { height | s.climbs start (height + 1) type = true }
  have hsuper : ∀ {type entry super}, start ≤ type → s.types[type]? = some entry →
      entry.base = some super ∨ super ∈ entry.directInterfaces → start ≤ super →
      sInf (heights super) < sInf (heights type) := by
    intro type entry super htype hentry hlink hge
    have hlt : type < s.size := lt_of_entry hentry
    have hsome : (heights type).Nonempty :=
      ⟨room, climbs_mono (Nat.le_refl _) (Nat.le_succ _) (hclimbs type hlt)⟩
    obtain ⟨hbase, hdirect⟩ :=
      ((climbs_succ hentry).mp (Nat.sInf_mem hsome)).resolve_left (Nat.not_lt.mpr htype)
    have hclimbs : s.climbs start (sInf (heights type)) super = true :=
      hlink.elim (hbase super) (hdirect super)
    cases hheight : sInf (heights type) with
    | zero =>
        rw [hheight, climbs, decide_eq_true_eq] at hclimbs
        exact absurd hclimbs (Nat.not_lt.mpr hge)
    | succ height =>
        rw [hheight] at hclimbs
        exact Nat.lt_succ_of_le (Nat.sInf_le hclimbs)
  refine ⟨fun type => sInf (heights type), ⟨fun type entry htype hentry super hbase hge => ?_,
    fun type entry htype hentry super hdirect hge => ?_⟩, fun type height h => Nat.sInf_le h⟩
  · exact hsuper htype hentry (Or.inl hbase) hge
  · exact hsuper htype hentry (Or.inr hdirect) hge

/-- The types of a shallow store are ranked by the longest path that begins with them. -/
theorem Shallow.ranks {start : Nat} (hs : s.Shallow start) : ∃ rank, s.Ranks start rank := by
  obtain ⟨rank, hfall, hbound⟩ := ranksFall_of_climbs hs.paths
  refine ⟨rank, hs.size_le, hs.added_le, fun type entry _ hentry => ?_, hfall.base, hfall.direct⟩
  have hle : rank type ≤ Limits.supertypeClosure.maxDepth - 1 :=
    hbound type _ (hs.paths type (lt_of_entry hentry))
  exact Nat.lt_of_le_of_lt hle (by decide)

section Recurrence

/-- The interfaces that a type lists. -/
def interfaceSet (store : Store) (type : Handle) : List Handle :=
  ((store.types[type]?).map (·.interfaces)).getD []

/-- Each interface followed by what it lists, after `all` and without repetition. -/
def gatherDirect (store : Store) (all types : List Handle) : List Handle :=
  types.foldl (fun all type => (store.interfaceSet type).foldl appendNew (appendNew all type)) all

/-- What a type lists if its supertypes list what they do. -/
def gather (store : Store) (entry : Entry) : List Handle :=
  ((entry.base.map store.interfaceSet).getD []).foldl appendNew
    (store.gatherDirect [] entry.directInterfaces)

/-- The type is closed and lists what it gathers from its supertypes, which are closed as well. -/
structure CompleteAt (store : Store) (type : Handle) (entry : Entry) : Prop where
  found : store.types[type]? = some entry
  closed : entry.closed = true
  base : ∀ super, entry.base = some super → store.ClosedAt super
  direct : ∀ super ∈ entry.directInterfaces, store.ClosedAt super
  interfaces : entry.interfaces = store.gather entry

theorem interfaceSet_of_entry {type : Handle} {entry : Entry} (h : s.types[type]? = some entry) :
    s.interfaceSet type = entry.interfaces := by
  rw [interfaceSet, h]
  rfl

theorem interfaces_eq_ok {type : Handle} {interfaces : List Handle}
    (h : s.interfaces type = .ok interfaces) : interfaces = s.interfaceSet type := by
  obtain ⟨entry, hentry, h⟩ := Query.bind_eq_ok.mp h
  obtain rfl := Query.pure_eq_ok.mp h
  exact (interfaceSet_of_entry (entry_eq_ok.mp hentry)).symm

theorem interfaces_eq_interfaceSet {type : Handle} (hlt : type < s.size) :
    s.interfaces type = .ok (s.interfaceSet type) := by
  obtain ⟨entry, hentry⟩ := entry_of_lt hlt
  rw [interfaceSet_of_entry hentry, interfaces, query_of_entry hentry (·.interfaces)]

/-- Closed types list what they listed. -/
theorem Later.interfaceSet (h : Later s s') {type : Handle} (hclosed : s.ClosedAt type) :
    s'.interfaceSet type = s.interfaceSet type := by
  obtain ⟨entry, hentry, hclosed⟩ := hclosed
  rw [interfaceSet_of_entry hentry, interfaceSet_of_entry (h.closed hentry hclosed)]

theorem Later.closedAt (h : Later s s') {type : Handle} (hclosed : s.ClosedAt type) :
    s'.ClosedAt type := by
  obtain ⟨entry, hentry, hclosed⟩ := hclosed
  exact ⟨entry, h.closed hentry hclosed, hclosed⟩

theorem gatherDirect_congr {all types : List Handle}
    (h : ∀ type ∈ types, s'.interfaceSet type = s.interfaceSet type) :
    s'.gatherDirect all types = s.gatherDirect all types := by
  induction types generalizing all with
  | nil => rfl
  | cons type types ih =>
      rw [gatherDirect, gatherDirect, List.foldl_cons, List.foldl_cons, h type List.mem_cons_self]
      exact ih fun t ht => h t (List.mem_cons_of_mem type ht)

theorem gather_congr {entry : Entry}
    (hbase : ∀ super, entry.base = some super → s'.interfaceSet super = s.interfaceSet super)
    (hdirect : ∀ super ∈ entry.directInterfaces,
      s'.interfaceSet super = s.interfaceSet super) : s'.gather entry = s.gather entry := by
  rw [gather, gather, gatherDirect_congr hdirect]
  cases h : entry.base with
  | none => rfl
  | some super => rw [Option.map_some, Option.map_some, hbase super h]

theorem mem_gatherDirect {all types : List Handle} {super : Handle} :
    super ∈ s.gatherDirect all types ↔
      super ∈ all ∨ ∃ type ∈ types, super = type ∨ super ∈ s.interfaceSet type := by
  induction types generalizing all with
  | nil => simp [gatherDirect]
  | cons type types ih =>
      rw [gatherDirect, List.foldl_cons, ← gatherDirect, ih, mem_foldl_appendNew, mem_appendNew]
      simp only [List.mem_cons, exists_eq_or_imp, or_assoc]

/-- What a type gathers: its direct interfaces, and what these and the base list. -/
theorem mem_gather {entry : Entry} {super : Handle} : super ∈ s.gather entry ↔
    (∃ type ∈ entry.directInterfaces, super = type ∨ super ∈ s.interfaceSet type) ∨
      ∃ base, entry.base = some base ∧ super ∈ s.interfaceSet base := by
  rw [gather, mem_foldl_appendNew, mem_gatherDirect]
  cases entry.base <;> simp

/-- What is complete stays so. -/
theorem CompleteAt.later (h : Later s s') {type : Handle} {entry : Entry}
    (hcomplete : s.CompleteAt type entry) : s'.CompleteAt type entry := by
  refine ⟨h.closed hcomplete.found hcomplete.closed, hcomplete.closed,
    fun super hbase => h.closedAt (hcomplete.base super hbase),
    fun super hdirect => h.closedAt (hcomplete.direct super hdirect), ?_⟩
  rw [hcomplete.interfaces]
  exact (gather_congr (fun super hbase => h.interfaceSet (hcomplete.base super hbase))
    fun super hdirect => h.interfaceSet (hcomplete.direct super hdirect)).symm

end Recurrence

section Walks

variable {start : Nat} {rank : Handle → Nat} {g g' : Guard Handle} {close : Handle → ClosureM Unit}

/-- A part of a store whose ranks fall is one. -/
theorem RanksFall.of_links (hs' : s'.RanksFall start rank)
    (hlinks : ∀ type, type < s.size → s'.links type = s.links type) : s.RanksFall start rank := by
  refine ⟨fun type entry htype hentry super hbase => ?_,
    fun type entry htype hentry super hdirect => ?_⟩
  all_goals
    obtain ⟨entry', hentry', hsameBase, hsameDirect⟩ := entry_of_links hentry
      (hlinks type (lt_of_entry hentry))
  · exact hs'.base type entry' htype hentry' super (hsameBase.trans hbase)
  · exact hs'.direct type entry' htype hentry' super (hsameDirect ▸ hdirect)

/-- A part of a ranked store is ranked. -/
theorem Ranks.of_links (hs' : s'.Ranks start rank) (hsize : s.size ≤ s'.size)
    (hlinks : ∀ type, type < s.size → s'.links type = s.links type) : s.Ranks start rank := by
  obtain ⟨hbase, hdirect⟩ := hs'.fall.of_links hlinks
  refine ⟨hsize.trans hs'.size_le, hsize.trans hs'.added_le, fun type entry htype hentry => ?_,
    hbase, hdirect⟩
  have hlt : type < s'.size := Nat.lt_of_lt_of_le (lt_of_entry hentry) hsize
  obtain ⟨entry', hentry'⟩ := entry_of_lt hlt
  exact hs'.bounded type entry' htype hentry'

theorem RanksFall.closing {frozen : List Handle} (hs : s.RanksFall start rank)
    (h : Closing frozen s s') : s'.RanksFall start rank :=
  hs.of_links fun type _ => (h.links type).symm

instance (store : Store) (type : Handle) : Decidable (store.ClosedAt type) :=
  decidable_of_iff _ (Option.any_eq_true (·.closed) store.types[type]?)

/-- The types that a walk may still enter: neither closed nor on its path. -/
def toClose (g : Guard Handle) (store : Store) : Finset Handle :=
  (Finset.range store.size).filter fun type => ¬ store.ClosedAt type ∧ type ∉ g.visiting

theorem mem_toClose {type : Handle} :
    type ∈ s.toClose g ↔ type < s.size ∧ ¬ s.ClosedAt type ∧ type ∉ g.visiting := by
  rw [toClose, Finset.mem_filter, Finset.mem_range]

theorem card_toClose_le (hclosed : ∀ type, type < start → s.ClosedAt type) :
    (s.toClose g).card ≤ s.size - start := by
  have hsubset : s.toClose g ⊆ Finset.Ico start s.size := by
    intro type htype
    obtain ⟨hlt, hopen, -⟩ := mem_toClose.mp htype
    exact Finset.mem_Ico.mpr ⟨Nat.le_of_not_lt fun h => hopen (hclosed type h), hlt⟩
  exact (Finset.card_le_card hsubset).trans (Nat.card_Ico start s.size).le

/-- A walk that closes types and gives up nowhere. Each attempt to enter closes a type. -/
structure Gathers (g : Guard Handle) (s : Store) (g' : Guard Handle) (s' : Store) : Prop where
  closes : Closes g s g' s'
  limits : g'.limits = g.limits
  depth : g'.depth = g.depth
  attempts : g'.iterations + (s'.toClose g').card ≤ g.iterations + (s.toClose g).card
  complete : ∀ type, ¬ s.ClosedAt type → s'.ClosedAt type → ∃ entry, s'.CompleteAt type entry

theorem Gathers.refl (hs : s.WellFormed) : Gathers g s g s :=
  ⟨Closes.refl hs, rfl, rfl, Nat.le_refl _, fun _ hopen hclosed => absurd hclosed hopen⟩

theorem Gathers.later (h : Gathers g s g' s') : Later s s' := h.closes.closing.later

theorem Gathers.trans {g₁ : Guard Handle} {s₁ : Store} (h : Gathers g s g₁ s₁)
    (h' : Gathers g₁ s₁ g' s') : Gathers g s g' s' := by
  refine ⟨h.closes.trans h'.closes, h'.limits.trans h.limits, h'.depth.trans h.depth,
    h'.attempts.trans h.attempts, fun type hopen hclosed => ?_⟩
  by_cases hmid : s₁.ClosedAt type
  · obtain ⟨entry, hentry⟩ := h.complete type hopen hmid
    exact ⟨entry, hentry.later h'.later⟩
  · exact h'.complete type hmid hclosed

/-- Where a walk over a ranked store can close a type: the path is made of types of larger ranks,
and there is room for the path and for as many attempts as there are types to close. -/
structure RoomFor (start : Nat) (rank : Handle → Nat) (type : Handle) (g : Guard Handle)
    (s : Store) : Prop where
  wellFormed : s.WellFormed
  ranks : s.RanksFall start rank
  closed : ∀ other, other < start → s.ClosedAt other
  limits : g.limits = Limits.supertypeClosure
  visiting : start ≤ type → ∀ other ∈ g.visiting, rank type < rank other
  depth : start ≤ type → g.depth + rank type < Limits.supertypeClosure.maxDepth
  attempts : g.iterations + (s.toClose g).card ≤ Limits.supertypeClosure.maxIterations

theorem RoomFor.after {type : Handle} (h : RoomFor start rank type g s)
    (hwalk : Gathers g s g' s') : RoomFor start rank type g' s' :=
  ⟨hwalk.closes.wellFormed, h.ranks.closing hwalk.closes.closing,
    fun other hlt => hwalk.later.closedAt (h.closed other hlt), hwalk.limits.trans h.limits,
    hwalk.closes.visiting ▸ h.visiting, hwalk.depth ▸ h.depth, hwalk.attempts.trans h.attempts⟩

/-- Closing a type of rank below `height`, or one before `start`, closes it and gives up nowhere. -/
def GathersBelow (start : Nat) (rank : Handle → Nat) (height : Nat)
    (close : Handle → ClosureM Unit) : Prop :=
  ∀ {type g s u g' s'}, (start ≤ type → rank type < height) → RoomFor start rank type g s →
    ((close type).run g).run s = .ok ((u, g'), s') → Gathers g s g' s' ∧ s'.ClosedAt type

theorem inherit_gathers {height : Nat} (hclose : GathersBelow start rank height close)
    {type : Handle} (htype : start ≤ type → rank type < height)
    (hroom : RoomFor start rank type g s) {α : Type} {a : α}
    {f : List Handle → ClosureM α}
    (hrun : ((do
        close type
        let inherited ← (← getThe Store).interfaces type
        f inherited : ClosureM α).run g).run s = .ok ((a, g'), s')) :
    ∃ g₁ s₁, Gathers g s g₁ s₁ ∧ s₁.ClosedAt type ∧
      ((f (s₁.interfaceSet type)).run g₁).run s₁ = .ok ((a, g'), s') := by
  obtain ⟨_, g₁, s₁, hcloses, hrun⟩ := run_run_bind_eq_ok.mp hrun
  obtain ⟨_, _, _, hget, hrun⟩ := run_run_bind_eq_ok.mp hrun
  cases hget
  obtain ⟨inherited, _, _, hread, hrun⟩ := run_run_bind_eq_ok.mp hrun
  obtain ⟨hinherited, rfl, rfl⟩ := run_run_query_eq_ok.mp hread
  obtain ⟨hwalk, hclosed⟩ := hclose htype hroom hcloses
  exact ⟨g₁, s₁, hwalk, hclosed, interfaces_eq_ok hinherited ▸ hrun⟩

theorem closeDirect_gathers {height : Nat} (hclose : GathersBelow start rank height close)
    {types all all' : List Handle} (hroom : ∀ type ∈ types, RoomFor start rank type g s)
    (htypes : ∀ type ∈ types, start ≤ type → rank type < height) (hs : s.WellFormed)
    (hrun : ((types.foldlM
        (fun all interface => do
          close interface
          let inherited ← (← getThe Store).interfaces interface
          return inherited.foldl appendNew (appendNew all interface))
        all : ClosureM (List Handle)).run g).run s = .ok ((all', g'), s')) :
    Gathers g s g' s' ∧ (∀ type ∈ types, s'.ClosedAt type) ∧
      all' = s'.gatherDirect all types := by
  induction types generalizing g s all with
  | nil =>
      cases hrun
      exact ⟨.refl hs, by simp, rfl⟩
  | cons type types ih =>
      rw [List.foldlM_cons] at hrun
      obtain ⟨_, g₁, s₁, hfirst, hrun⟩ := run_run_bind_eq_ok.mp hrun
      obtain ⟨_, _, hwalk, hclosed, hfirst⟩ := inherit_gathers hclose
        (htypes type List.mem_cons_self) (hroom type List.mem_cons_self) hfirst
      cases hfirst
      obtain ⟨hwalk', hclosed', hall⟩ := ih
        (fun t ht => (hroom t (List.mem_cons_of_mem type ht)).after hwalk)
        (fun t ht => htypes t (List.mem_cons_of_mem type ht)) hwalk.closes.wellFormed hrun
      refine ⟨hwalk.trans hwalk',
        List.forall_mem_cons.mpr ⟨hwalk'.later.closedAt hclosed, hclosed'⟩, ?_⟩
      rw [hall, ← hwalk'.later.interfaceSet hclosed]
      rfl

theorem not_closedAt {type : Handle} {entry : Entry} (hentry : s.types[type]? = some entry)
    (hopen : entry.closed = false) : ¬ s.ClosedAt type := by
  rintro ⟨entry', hentry', hclosed⟩
  obtain rfl := Option.some.inj (hentry.symm.trans hentry')
  rw [hopen] at hclosed
  cases hclosed

/-- A walk over a ranked store enters every type that it meets and that is not closed. -/
theorem RoomFor.enter {type : Handle} (hroom : RoomFor start rank type g s) (htype : type < s.size)
    (hopen : ¬ s.ClosedAt type) {admission : Admission}
    (henter : g.enter type = (admission, g')) :
    admission = .entered ∧ type ∉ g.visiting ∧ g'.visiting = type :: g.visiting ∧
      g'.limits = g.limits ∧ g'.depth = g.depth + 1 ∧
      g'.iterations + (s.toClose g').card ≤ g.iterations + (s.toClose g).card := by
  obtain ⟨hiterations, hexceeded, hdepth⟩ := Guard.enter_limits henter
  have hge : start ≤ type := Nat.le_of_not_lt fun hlt => hopen (hroom.closed type hlt)
  have hfree : type ∉ g.visiting := fun hmem => Nat.lt_irrefl _ (hroom.visiting hge type hmem)
  have hmem : type ∈ s.toClose g := mem_toClose.mpr ⟨htype, hopen, hfree⟩
  have hcard := Finset.card_pos.mpr ⟨type, hmem⟩
  have hattempts := hroom.attempts
  obtain ⟨hlimits, ⟨rfl, -, -, hvisiting, hdepth', -⟩ | ⟨-, hcycle, -⟩ | ⟨hrefused, -⟩⟩ :=
    Guard.enter_cases henter
  · refine ⟨rfl, hfree, hvisiting, hlimits, hdepth', ?_⟩
    have hless : s.toClose g' ⊆ (s.toClose g).erase type := by
      intro other hother
      obtain ⟨hlt, hother, hpath⟩ := mem_toClose.mp hother
      rw [hvisiting, List.mem_cons, not_or] at hpath
      exact Finset.mem_erase.mpr ⟨hpath.1, mem_toClose.mpr ⟨hlt, hother, hpath.2⟩⟩
    have hcount := Finset.card_le_card hless
    rw [Finset.card_erase_of_mem hmem] at hcount
    omega
  · exact absurd hcycle hfree
  · rw [hroom.limits] at hexceeded hdepth
    cases admission with
    | entered => cases hrefused
    | cycle => cases hrefused
    | depthExceeded =>
        have := hdepth rfl
        have := hroom.depth hge
        omega
    | iterationExceeded =>
        have := hexceeded.mp rfl
        omega

/-- The end of a visit that has gathered what the type inherits: the set is stored, and all later
walks leave it alone. -/
theorem Gathers.seal {g₁ g₃ : Guard Handle} {s₃ : Store} {type : Handle} {entry : Entry}
    {all : List Handle} {u : Unit} (h : Gathers g₁ s g₃ s₃) (hcloses : Closes g s g' s')
    (hentry : s.types[type]? = some entry) (hopen : entry.closed = false)
    (hvisiting : g₁.visiting = type :: g.visiting) (hlimits : g₁.limits = g.limits)
    (hdepth : g₁.depth = g.depth + 1)
    (hattempts : g₁.iterations + (s.toClose g₁).card ≤ g.iterations + (s.toClose g).card)
    (hdirect : ∀ super ∈ entry.directInterfaces, s₃.ClosedAt super)
    (hbase : ∀ super, entry.base = some super → s₃.ClosedAt super) (hall : all = s₃.gather entry)
    (hrun : ((do
        liftM <| modifyEntry type fun entry => { entry with interfaces := all, closed := true }
        set (← (← getThe (Guard Handle)).leave type) : ClosureM Unit).run g₃).run s₃ =
      .ok ((u, g'), s')) :
    Gathers g s g' s' ∧ s'.ClosedAt type := by
  obtain ⟨interfaces, closed, hsame, hkeep⟩ := h.closes.closing.entries hentry
  obtain ⟨rfl, rfl⟩ := hkeep (Or.inr (by simp [hvisiting]))
  have hpath : g₃.visiting = type :: g.visiting := h.closes.visiting.trans hvisiting
  obtain ⟨_, _, _, hlift, hrun⟩ := run_run_bind_eq_ok.mp hrun
  obtain ⟨hmodify, rfl⟩ := run_run_lift_eq_ok.mp hlift
  obtain ⟨_, _, _, hget, hrun⟩ := run_run_bind_eq_ok.mp hrun
  cases hget
  obtain ⟨_, _, _, hread, hrun⟩ := run_run_bind_eq_ok.mp hrun
  obtain ⟨hleave, rfl, rfl⟩ := run_run_query_eq_ok.mp hread
  rw [Guard.leave_head hpath] at hleave
  cases hleave
  cases hrun
  obtain ⟨-, rfl⟩ := modifyEntry_run hmodify
  have hfree : type ∉ ([] : List Handle) := List.not_mem_nil
  have hlater := (closing_modify all hsame hopen hfree).later
  have hfound : (s₃.types.modify type fun entry =>
      { entry with interfaces := all, closed := true })[type]? =
        some { entry with interfaces := all, closed := true } := by
    simp [Array.getElem?_modify, hsame]
  refine ⟨⟨hcloses, h.limits.trans hlimits, by simp [h.depth, hdepth], ?_,
    fun other hother hnow => ?_⟩, _, hfound, rfl⟩
  · refine Nat.le_trans (Nat.add_le_add_left (Finset.card_le_card fun other hother => ?_) _)
      (h.attempts.trans hattempts)
    obtain ⟨hlt, hunclosed, hunvisited⟩ := mem_toClose.mp hother
    have hne : other ≠ type := by
      rintro rfl
      exact hunclosed ⟨_, hfound, rfl⟩
    refine mem_toClose.mpr ⟨by simpa [size] using hlt, fun hbefore => hunclosed
      (hlater.closedAt hbefore), ?_⟩
    rw [hpath, List.mem_cons, not_or]
    exact ⟨hne, hunvisited⟩
  · by_cases hself : other = type
    · subst hself
      refine ⟨_, hfound, rfl, fun super hsuper => hlater.closedAt (hbase super hsuper),
        fun super hsuper => hlater.closedAt (hdirect super hsuper), ?_⟩
      exact hall.trans (gather_congr (fun super hsuper => hlater.interfaceSet (hbase super hsuper))
        fun super hsuper => hlater.interfaceSet (hdirect super hsuper)).symm
    · obtain ⟨entry', hentry', hclosed⟩ := hnow
      rcases modify_getElem? hentry' with ⟨heq, -⟩ | ⟨-, hbefore⟩
      · exact absurd heq hself
      · obtain ⟨_, hcomplete⟩ := h.complete other hother ⟨entry', hbefore, hclosed⟩
        exact ⟨_, hcomplete.later hlater⟩

/-- Closing a type of a ranked store closes it with all that it inherits. -/
theorem closeStep_gathers {type : Handle} (hclose : GathersBelow start rank (rank type) close)
    {u : Unit} (hroom : RoomFor start rank type g s)
    (hcloses : ∀ {type g s u g' s'}, s.WellFormed →
      ((close type).run g).run s = .ok ((u, g'), s') → Closes g s g' s')
    (hrun : ((closeStep close type).run g).run s = .ok ((u, g'), s')) :
    Gathers g s g' s' ∧ s'.ClosedAt type := by
  have hwalk := closeStep_run hcloses hroom.wellFormed hrun
  unfold closeStep at hrun
  obtain ⟨_, _, _, hget, hrun⟩ := run_run_bind_eq_ok.mp hrun
  cases hget
  obtain ⟨entry, _, _, hread, hrun⟩ := run_run_bind_eq_ok.mp hrun
  obtain ⟨hentry, rfl, rfl⟩ := run_run_query_eq_ok.mp hread
  rw [entry_eq_ok] at hentry
  split at hrun
  · next hclosed =>
      cases hrun
      exact ⟨.refl hroom.wellFormed, entry, hentry, hclosed⟩
  · next hunclosed =>
      have hopen : entry.closed = false := by simpa using hunclosed
      obtain ⟨admission, g₁, _, henter, hrun⟩ := run_run_bind_eq_ok.mp hrun
      obtain ⟨hentered, rfl⟩ := run_run_enter_eq_ok.mp henter
      obtain ⟨rfl, hfree, hvisiting, hlimits, hdepth, hattempts⟩ :=
        hroom.enter (lt_of_entry hentry) (not_closedAt hentry hopen)
          hentered
      have hge : start ≤ type :=
        Nat.le_of_not_lt fun hlt => not_closedAt hentry hopen (hroom.closed type hlt)
      have hbelow : ∀ super, (start ≤ super → rank super < rank type) →
          RoomFor start rank super g₁ s := by
        intro super hsuper
        refine ⟨hroom.wellFormed, hroom.ranks, hroom.closed, hlimits.trans hroom.limits,
          fun hle v hv => ?_, fun hle => ?_, hattempts.trans hroom.attempts⟩
        · rw [hvisiting] at hv
          rcases List.mem_cons.mp hv with rfl | hv
          · exact hsuper hle
          · exact (hsuper hle).trans (hroom.visiting hge v hv)
        · have := hroom.depth hge
          have := hsuper hle
          omega
      obtain ⟨direct, g₂, s₂, hdirect, hrun⟩ := run_run_bind_eq_ok.mp hrun
      have hranks := hroom.ranks.direct type entry hge hentry
      obtain ⟨hwalk₂, hdirectClosed, rfl⟩ := closeDirect_gathers hclose
        (fun super hsuper => hbelow super (hranks super hsuper)) hranks hroom.wellFormed hdirect
      -- What remains is to store the set, which all later walks leave alone.
      have hseal : ∀ {all g₃ s₃}, Gathers g₁ s g₃ s₃ →
          (∀ super ∈ entry.directInterfaces, s₃.ClosedAt super) →
          (∀ super, entry.base = some super → s₃.ClosedAt super) → all = s₃.gather entry →
          ((do
            liftM <| modifyEntry type fun entry =>
              { entry with interfaces := all, closed := true }
            set (← (← getThe (Guard Handle)).leave type) : ClosureM Unit).run g₃).run s₃ =
            .ok ((u, g'), s') → Gathers g s g' s' ∧ s'.ClosedAt type := by
        intro all g₃ s₃ hwalk₃ hdirect hbase hall hrun
        exact hwalk₃.seal hwalk hentry hopen hvisiting hlimits hdepth hattempts hdirect hbase hall
          hrun
      dsimp only at hrun
      split at hrun
      · next base hbase =>
          have hbaseRank := hroom.ranks.base type entry hge hentry base hbase
          obtain ⟨g₃, s₃, hwalk₃, hbaseClosed, hrun⟩ := inherit_gathers hclose hbaseRank
            ((hbelow base hbaseRank).after hwalk₂) hrun
          obtain ⟨_, _, _, hpure, hrun⟩ := run_run_bind_eq_ok.mp hrun
          cases hpure
          refine hseal (hwalk₂.trans hwalk₃)
            (fun super hsuper => hwalk₃.later.closedAt (hdirectClosed super hsuper)) ?_ ?_ hrun
          · intro super hsuper
            cases hbase.symm.trans hsuper
            exact hbaseClosed
          · rw [gather, hbase, ← gatherDirect_congr fun super hsuper =>
              hwalk₃.later.interfaceSet (hdirectClosed super hsuper)]
            rfl
      · next hbase =>
          obtain ⟨_, _, _, hpure, hrun⟩ := run_run_bind_eq_ok.mp hrun
          cases hpure
          refine hseal hwalk₂ hdirectClosed ?_ ?_ hrun
          · intro super hsuper
            cases hbase.symm.trans hsuper
          · rw [gather, hbase]
            rfl

theorem closeInterfaces_gathers {fuel : Nat} {type : Handle} {u : Unit}
    (hroom : RoomFor start rank type g s)
    (hrun : ((closeInterfaces fuel type).run g).run s = .ok ((u, g'), s')) :
    Gathers g s g' s' ∧ s'.ClosedAt type := by
  induction fuel generalizing type g g' s s' u with
  | zero =>
      refine closeStep_gathers (fun _ _ hthrow => ?_) hroom (fun _ hthrow => ?_) hrun
      all_goals cases hthrow
  | succ fuel ih =>
      exact closeStep_gathers (fun _ hroom hrun => ih hroom hrun) hroom
        (fun hs hrun => closeInterfaces_run hs hrun) hrun

theorem forM_gathers {fuel : Nat} {types : List Handle} {u : PUnit} (hs : s.WellFormed)
    (hroom : ∀ type ∈ types, RoomFor start rank type g s)
    (hrun : ((types.forM (closeInterfaces fuel)).run g).run s = .ok ((u, g'), s')) :
    Gathers g s g' s' ∧ ∀ type ∈ types, s'.ClosedAt type := by
  induction types generalizing g s with
  | nil =>
      cases hrun
      exact ⟨.refl hs, by simp⟩
  | cons type types ih =>
      obtain ⟨_, g₁, s₁, hfirst, hrun⟩ := run_run_bind_eq_ok.mp hrun
      obtain ⟨hwalk, hclosed⟩ := closeInterfaces_gathers (hroom type List.mem_cons_self) hfirst
      obtain ⟨hwalk', hclosed'⟩ := ih hwalk.closes.wellFormed
        (fun t ht => (hroom t (List.mem_cons_of_mem type ht)).after hwalk) hrun
      exact ⟨hwalk.trans hwalk',
        List.forall_mem_cons.mpr ⟨hwalk'.later.closedAt hclosed, hclosed'⟩⟩

/-- A guard between two walks that it serves: its path is empty, and there is room for as many
attempts as there are types to close. -/
structure Idle (g : Guard Handle) (s : Store) : Prop where
  wellFormed : s.WellFormed
  limits : g.limits = Limits.supertypeClosure
  visiting : g.visiting = []
  depth : g.depth = 0
  attempts : g.iterations + (s.toClose g).card ≤ Limits.supertypeClosure.maxIterations

theorem Idle.after (h : Idle g s) (hwalk : Gathers g s g' s') : Idle g' s' :=
  ⟨hwalk.closes.wellFormed, hwalk.limits.trans h.limits, hwalk.closes.visiting.trans h.visiting,
    hwalk.depth.trans h.depth, hwalk.attempts.trans h.attempts⟩

theorem idle_ofLimits (hs : s.WellFormed)
    (hadded : s.size ≤ start + Limits.supertypeClosure.maxIterations)
    (hstart : ∀ type, type < start → s.ClosedAt type) :
    Idle (Guard.ofLimits Limits.supertypeClosure) s :=
  ⟨hs, rfl, rfl, rfl, (Nat.zero_add _).trans_le ((card_toClose_le hstart).trans (by omega))⟩

/-- A type with short paths can be closed next. -/
theorem Idle.room (h : Idle g s) (hfall : s.RanksFall start rank)
    (hstart : ∀ type, type < start → s.ClosedAt type) {type : Handle}
    (hrank : start ≤ type → rank type < Limits.supertypeClosure.maxDepth) :
    RoomFor start rank type g s where
  wellFormed := h.wellFormed
  ranks := hfall
  closed := hstart
  limits := h.limits
  visiting _ other hother := by
    rw [h.visiting] at hother
    cases hother
  depth hge := by rw [h.depth, Nat.zero_add]; exact hrank hge
  attempts := h.attempts

/-- Types that are closed in the order of their handles need room only for the paths through the
types from each of them on. -/
theorem range_gathers {fuel k n : Nat} {u : PUnit} (hidle : Idle g s)
    (hclosed : ∀ type, type < k → s.ClosedAt type)
    (hranks : ∀ type, type < k + n →
      ∃ rank, s.RanksFall type rank ∧ rank type < Limits.supertypeClosure.maxDepth)
    (hrun : (((List.range' k n).forM (closeInterfaces fuel)).run g).run s = .ok ((u, g'), s')) :
    Gathers g s g' s' ∧ ∀ type, type < k + n → s'.ClosedAt type := by
  induction n generalizing k g s with
  | zero =>
      cases hrun
      exact ⟨.refl hidle.wellFormed, hclosed⟩
  | succ n ih =>
      obtain ⟨_, g₁, s₁, hfirst, hrun⟩ := run_run_bind_eq_ok.mp hrun
      obtain ⟨rank, hfall, hrank⟩ := hranks k (by omega)
      obtain ⟨hwalk, hnow⟩ :=
        closeInterfaces_gathers (hidle.room hfall hclosed fun _ => hrank) hfirst
      have hnext : ∀ type, type < k + 1 → s₁.ClosedAt type := by
        intro type hlt
        rcases Nat.lt_succ_iff_lt_or_eq.mp hlt with hlt | rfl
        · exact hwalk.later.closedAt (hclosed type hlt)
        · exact hnow
      obtain ⟨hwalk', hclosed'⟩ := ih (hidle.after hwalk) hnext (fun type hlt => by
        obtain ⟨rank, hfall, hrank⟩ := hranks type (by omega)
        exact ⟨rank, hfall.closing hwalk.closes.closing, hrank⟩) hrun
      exact ⟨hwalk.trans hwalk', fun type hlt => hclosed' type (by omega)⟩

end Walks

section Stores

variable {start : Nat} {rank : Handle → Nat}

/-- Closing types with short paths closes all of them, and whatever it closes is complete. -/
theorem RanksFall.closeAll (hfall : s.RanksFall start rank) (hs : s.WellFormed)
    (hadded : s.size ≤ start + Limits.supertypeClosure.maxIterations)
    (hstart : ∀ type, type < start → s.ClosedAt type) {types : List Handle}
    (htypes : ∀ type ∈ types, start ≤ type → rank type < Limits.supertypeClosure.maxDepth)
    {u : Unit} (hrun : (Store.closeAll types).run s = .ok (u, s')) :
    (∀ type ∈ types, s'.ClosedAt type) ∧
      ∀ type, ¬ s.ClosedAt type → s'.ClosedAt type → ∃ entry, s'.CompleteAt type entry := by
  obtain ⟨⟨_, guard⟩, mid, hforM, hrun⟩ := run_bind_eq_ok.mp hrun
  obtain ⟨-, rfl⟩ := run_lift_eq_ok.mp hrun
  obtain ⟨hwalk, hclosed⟩ := forM_gathers hs (fun type htype =>
    (idle_ofLimits hs hadded hstart).room hfall hstart (htypes type htype)) hforM
  exact ⟨hclosed, hwalk.complete⟩

/-- Closing all types in the order of their handles. -/
theorem closeAll_range (hs : s.WellFormed) (hsize : s.size ≤ Limits.supertypeClosure.maxIterations)
    (hranks : ∀ type, type < s.size →
      ∃ rank, s.RanksFall type rank ∧ rank type < Limits.supertypeClosure.maxDepth)
    {u : Unit} (hrun : (Store.closeAll (List.range s.size)).run s = .ok (u, s')) :
    s'.AllClosed ∧
      ∀ type, ¬ s.ClosedAt type → s'.ClosedAt type → ∃ entry, s'.CompleteAt type entry := by
  obtain ⟨⟨_, guard⟩, mid, hforM, hrun⟩ := run_bind_eq_ok.mp hrun
  obtain ⟨-, rfl⟩ := run_lift_eq_ok.mp hrun
  have hnone : ∀ type, type < 0 → s.ClosedAt type := fun type hlt => absurd hlt (Nat.not_lt_zero _)
  rw [List.range_eq_range'] at hforM
  obtain ⟨hwalk, hclosed⟩ := range_gathers
    (idle_ofLimits hs (by rwa [Nat.zero_add]) hnone) hnone (by rwa [Nat.zero_add]) hforM
  refine ⟨fun type hlt => hclosed type ?_, hwalk.complete⟩
  rw [Nat.zero_add]
  exact hwalk.closes.closing.size ▸ hlt

/-- Closing types of a ranked store closes all of them, and whatever it closes is complete. -/
theorem Ranks.closeAll (hranks : s.Ranks start rank) (hs : s.WellFormed)
    (hstart : ∀ type, type < start → s.ClosedAt type) {types : List Handle}
    (htypes : ∀ type ∈ types, type < s.size) {u : Unit}
    (hrun : (Store.closeAll types).run s = .ok (u, s')) :
    (∀ type ∈ types, s'.ClosedAt type) ∧
      ∀ type, ¬ s.ClosedAt type → s'.ClosedAt type → ∃ entry, s'.CompleteAt type entry := by
  refine hranks.fall.closeAll hs hranks.added_le hstart (fun type htype hge => ?_) hrun
  obtain ⟨entry, hentry⟩ := entry_of_lt (htypes type htype)
  exact hranks.bounded type entry hge hentry

/-- Interning closes no type. -/
theorem Grown.closedAt (h : Grown s s') {type : Handle} (hclosed : s'.ClosedAt type) :
    s.ClosedAt type := by
  obtain ⟨entry, hentry, hclosed⟩ := hclosed
  rcases h.old_or_fresh hentry with hold | ⟨-, hfresh, -⟩
  · exact ⟨entry, hold, hclosed⟩
  · rw [hfresh.closed] at hclosed
    cases hclosed

/-- Expanding types closes none. -/
theorem Draining.closedAt_of_drain {fuel : Nat} {types : List Handle} (hs : s.Draining)
    (hrun : (drain fuel).run s = .ok (types, s')) {type : Handle} (hclosed : s'.ClosedAt type) :
    s.ClosedAt type := by
  refine (hs.drain_keeps (I := fun t => t.ClosedAt type → s.ClosedAt type) id ?_ hrun).2.2 hclosed
  intro t t' first rest ht hback hpending hexpand hclosed
  rcases expand_run (ht.popped hpending) hexpand with
    ⟨rfl, -⟩ | ⟨mid, change, -, hgrown, -, rfl, -⟩
  · exact hback hclosed
  · obtain ⟨entry, hentry, hclosed⟩ := hclosed
    refine hback (hgrown.closedAt (?_ : mid.ClosedAt type))
    rcases modify_getElem? hentry with ⟨rfl, old, hold, rfl⟩ | ⟨-, hold⟩
    · exact ⟨old, hold, hclosed⟩
    · exact ⟨entry, hold, hclosed⟩

/-- Draining lists the pending types and those that it adds. -/
theorem Draining.mem_drain {fuel : Nat} {types : List Handle} (hs : s.Draining)
    (hrun : (drain fuel).run s = .ok (types, s')) {type : Handle} :
    type ∈ types ↔ type ∈ s.pending ∨ s.size ≤ type ∧ type < s'.size := by
  obtain ⟨types', last, hdrains, -, -, -, -, hmem⟩ := hs.drains (within_ofStore s) (Nat.le_refl _)
  rw [hdrains.run] at hrun
  split at hrun
  · cases hrun
    exact hmem type
  · cases hrun

/-- Closing the pending types of a store that is ranked at the end closes them completely. -/
theorem Draining.close_complete (hs : s.Draining) {u : Unit} (hrun : close.run s = .ok (u, s'))
    (hranks : s'.Ranks start rank) (hstart : ∀ type, type < start → s.ClosedAt type) {type : Handle}
    (htype : type ∈ s.pending ∨ s.size ≤ type ∧ type < s'.size) :
    s'.ClosedAt type ∧ (¬ s.ClosedAt type → ∃ entry, s'.CompleteAt type entry) := by
  obtain ⟨types, mid, hdrain, hclose⟩ := run_bind_eq_ok.mp hrun
  obtain ⟨hdrained, -, hlater, -⟩ := drain_run hs hdrain
  have hmid := hdrained.wellFormed
  obtain ⟨-, hclosing, -⟩ := closeAll_run hmid hclose
  have hlast : mid.Ranks start rank :=
    hranks.of_links hclosing.size.ge fun t _ => hclosing.links t
  have hrange : ∀ t ∈ types, t < mid.size := by
    intro t ht
    rcases (hs.mem_drain hdrain).mp ht with h | ⟨-, hlt⟩
    · exact Nat.lt_of_lt_of_le (hs.wellFormed.inRange.pending t h) hlater.size_le
    · exact hlt
  obtain ⟨hclosed, hcomplete⟩ := hlast.closeAll hmid
    (fun t ht => hlater.closedAt (hstart t ht)) hrange hclose
  rw [hclosing.size] at htype
  have hnow := hclosed type ((hs.mem_drain hdrain).mpr htype)
  exact ⟨hnow, fun hopen =>
    hcomplete type (fun h => hopen (hs.closedAt_of_drain hdrain h)) hnow⟩

/-- Closing after interning leaves closed types and all forms alone. -/
theorem Draining.closeIfFinished_later (hs : s.Draining) {u : Unit}
    (hrun : closeIfFinished.run s = .ok (u, s')) : Later s s' := by
  obtain ⟨_, _, hget, hrun⟩ := run_bind_eq_ok.mp hrun
  cases hget
  split at hrun
  · exact (close_run hs hrun).2.2.1
  · obtain ⟨-, rfl⟩ := run_pure_eq_ok.mp hrun
    exact .refl s

/-- A finished store on which no closing walk has given up: every type is closed, and those from `n`
on are complete. -/
structure SettledFrom (n : Nat) (store : Store) : Prop where
  lawful : store.Lawful
  finished : store.finished = true
  closed : store.AllClosed
  complete : ∀ type, n ≤ type → type < store.size → ∃ entry, store.CompleteAt type entry

/-- Interning leaves the direct supertypes of the types of a finished store alone. -/
theorem Lawful.intern_links (hs : s.Lawful) (hfinished : s.finished = true) {mid : Store} {u : Unit}
    (hgrown : Grown s mid) (hmid : mid.Coherent) (hrun : closeIfFinished.run mid = .ok (u, s'))
    {type : Handle} (htype : type < s.size) : s'.links type = s.links type := by
  obtain ⟨_, _, hget, hrun⟩ := run_bind_eq_ok.mp hrun
  cases hget
  rw [if_pos (hgrown.finished.trans hfinished)] at hrun
  obtain ⟨types, last, hdrain, hclose⟩ := run_bind_eq_ok.mp hrun
  have hdraining := hs.grown_draining hgrown hmid
  obtain ⟨hlast, -, -, hexpands⟩ := drain_run hdraining hdrain
  obtain ⟨-, hclosing, -⟩ := closeAll_run hlast.wellFormed hclose
  have hfree : type ∉ mid.pending := by
    intro hmem
    rcases hgrown.mem_pending hmem with hold | ⟨hge, -⟩
    · rw [(hs.finished hfinished).1] at hold
      cases hold
    · exact Nat.not_lt.mpr hge htype
  rw [hclosing.links, (hexpands.links (hgrown.lt htype) hfree).1, hgrown.links htype]

/-- Interning on a closed store whose supertypes stay ranked closes what it adds, with all that this
inherits. -/
theorem Lawful.intern_complete (hs : s.Lawful) (hfinished : s.finished = true)
    (hclosed : s.AllClosed) {mid : Store} {u : Unit} (hgrown : Grown s mid) (hmid : mid.Coherent)
    (hrun : closeIfFinished.run mid = .ok (u, s')) (hranks : s'.Ranks start rank)
    (hstart : start ≤ s.size) {type : Handle} (hge : s.size ≤ type) (hlt : type < s'.size) :
    s'.ClosedAt type ∧ ∃ entry, s'.CompleteAt type entry := by
  obtain ⟨_, _, hget, hrun⟩ := run_bind_eq_ok.mp hrun
  cases hget
  rw [if_pos (hgrown.finished.trans hfinished)] at hrun
  obtain ⟨new, htypes, -, hpending⟩ := hgrown.types
  have hsize : mid.size = s.size + new.size := by simp [size, htypes]
  have hcase : type ∈ mid.pending ∨ mid.size ≤ type ∧ type < s'.size := by
    rcases Nat.lt_or_ge type mid.size with hold | hnew
    · refine Or.inl ?_
      rw [hpending, List.mem_append, List.mem_reverse, List.mem_range'_1]
      exact Or.inl ⟨hge, hsize ▸ hold⟩
    · exact Or.inr ⟨hnew, hlt⟩
  obtain ⟨hnow, hcomplete⟩ := (hs.grown_draining hgrown hmid).close_complete hrun hranks
    (fun t ht => hgrown.later.closedAt (hclosed t (Nat.lt_of_lt_of_le ht hstart))) hcase
  refine ⟨hnow, hcomplete fun hold => ?_⟩
  obtain ⟨entry, hentry, -⟩ := hgrown.closedAt hold
  exact Nat.not_lt.mpr hge (lt_of_entry hentry)

/-- Interning on a settled store whose supertypes stay ranked keeps it settled. -/
theorem SettledFrom.intern {n : Nat} (hs : s.SettledFrom n) {mid : Store} {u : Unit}
    (hgrown : Grown s mid) (hmid : mid.Coherent) (hrun : closeIfFinished.run mid = .ok (u, s'))
    (hranks : s'.Ranks start rank) (hstart : start ≤ s.size) : s'.SettledFrom n := by
  obtain ⟨hlawful, hlater⟩ := hs.lawful.intern hgrown hmid hrun
  have hretains := hlater.retains hs.closed
  have hnew : ∀ type, s.size ≤ type → type < s'.size →
      s'.ClosedAt type ∧ ∃ entry, s'.CompleteAt type entry := fun type hge hlt =>
    hs.lawful.intern_complete hs.finished hs.closed hgrown hmid hrun hranks hstart hge hlt
  refine ⟨hlawful, hlater.finished.trans hs.finished,
    hretains.allClosed hs.closed fun type hge hlt => (hnew type hge hlt).1, fun type hn hlt => ?_⟩
  rcases Nat.lt_or_ge type s.size with hold | hge
  · obtain ⟨entry, hcomplete⟩ := hs.complete type hn hold
    exact ⟨entry, hcomplete.later hlater⟩
  · exact (hnew type hge hlt).2

end Stores

end NominalGenerics.Store
