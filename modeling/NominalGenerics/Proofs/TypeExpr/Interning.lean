import NominalGenerics.Proofs.Catalog.Histories
import NominalGenerics.Proofs.TypeExpr.Display

/-!
# What interning keeps

Interning adds instantiations and arrays. Their written forms are no names, so what a name stands
for is settled before anything is interned, and stays so on every store on the way. The types that
were there keep their entries, but for interface sets that a closing walk had given up on.
-/

namespace NominalGenerics

open Request (Interning)

section Names

variable {s t : Store} {scope : Scope} {name : String}

/-- What a name stands for: the type parameter of that name in the scope, or else the first type of
that name in the store. -/
def Store.find? (store : Store) (scope : Scope) (name : String) : Option Handle :=
  (scope.lookup name).or (store.lookup? name)

/-- The types that names stand for. A name that stands for nothing gets the root. -/
def Store.meaning (store : Store) (scope : Scope) (name : String) : Handle :=
  (store.find? scope name).getD store.root

/-- The name stands for a generic definition of so many parameters. -/
def Store.Applicable (store : Store) (scope : Scope) (name : String) (arity : Nat) : Prop :=
  ∃ definition params, store.find? scope name = some definition ∧
    store.Defines definition params ∧ params.length = arity

theorem Store.meaning_of_find? {type : Handle} (h : s.find? scope name = some type) :
    s.meaning scope name = type := by
  rw [meaning, h, Option.getD_some]

theorem Store.find?_lt {type : Handle} (hscope : InScope s scope)
    (h : s.find? scope name = some type) : type < s.size := by
  rw [find?, Option.or_eq_some_iff] at h
  rcases h with hparam | ⟨-, hlookup⟩
  · exact hscope name type hparam
  · exact lookup?_lt hlookup

namespace Performs

/-- Interning adds types as it makes them of their parts. -/
theorem derivedFrom (h : Performs Interning s t) (hs : s.Lawful) : t.DerivedFrom s.size := by
  have hkept : t.Lawful ∧ t.DerivedFrom s.size := by
    refine h.keeps (I := fun t => t.Lawful ∧ t.DerivedFrom s.size)
      ⟨hs, Store.derivedFrom_size s⟩ fun ht hallowed hop hrun => ?_
    exact ⟨ht.1.step hallowed hrun,
      (Store.robust_derivedFrom s.size).interning ht.2 ht.1 hop hrun⟩
  exact hkept.2

/-- A name stands for the same type wherever interning leads. -/
theorem find?_eq (h : Performs Interning s t) (hs : s.Lawful) (hname : TypeExpr.IsName name) :
    t.find? scope name = s.find? scope name := by
  have hlookup : t.lookup? name = s.lookup? name := by
    cases hfound : s.lookup? name with
    | some type => exact (h.names hs).lookup? hfound
    | none =>
        cases hlate : t.lookup? name with
        | none => rfl
        | some type =>
            obtain ⟨entry, hentry, hwritten, hkind⟩ := Store.lookup?_entry hlate
            rcases Nat.lt_or_ge type s.size with hlt | hge
            · obtain ⟨old, hold⟩ := Store.entry_of_lt hlt
              obtain ⟨entry', hentry', hsame, hform⟩ := h.names hs type old hold
              obtain rfl : entry' = entry := Option.some.inj (hentry'.symm.trans hentry)
              have hparam : old.isParameter = false := by
                rw [← Entry.form_isParameter, ← hform, Entry.form_isParameter, hkind]
              have hsome := Store.lookup?_isSome hold (hsame.symm.trans hwritten) hparam
              rw [hfound] at hsome
              cases hsome
            · exact absurd (hwritten ▸ hname) (h.derivedFrom hs type entry hge hentry).not_isName
  rw [Store.find?, Store.find?, hlookup]

/-- A type is the same definition wherever interning leads. -/
theorem defines_iff (h : Performs Interning s t) (hs : s.Lawful) {definition : Handle}
    (hlt : definition < s.size) {params : List Handle} :
    t.Defines definition params ↔ s.Defines definition params := by
  obtain ⟨entry, hentry⟩ := Store.entry_of_lt hlt
  obtain ⟨entry', hentry', -, hform⟩ := h.names hs definition entry hentry
  have hsame : t.form definition = s.form definition := by
    rw [Store.form_of_entry hentry', Store.form_of_entry hentry, hform]
  unfold Store.Defines
  rw [hsame]

/-- A name can be applied if what it stands for is a definition of as many parameters, wherever
interning leads. -/
theorem applicable_iff (h : Performs Interning s t) (hs : s.Lawful) {definition : Handle}
    (hfind : s.find? scope name = some definition) (hlt : definition < s.size) (arity : Nat) :
    s.Applicable scope name arity ↔
      ∃ params, t.Defines definition params ∧ params.length = arity := by
  constructor
  · rintro ⟨other, params, hother, hdefines, hlength⟩
    obtain rfl := Option.some.inj (hfind.symm.trans hother)
    exact ⟨params, (h.defines_iff hs hlt).mpr hdefines, hlength⟩
  · rintro ⟨params, hdefines, hlength⟩
    exact ⟨definition, params, hfind, (h.defines_iff hs hlt).mp hdefines, hlength⟩

end Performs

end Names

section Entries

variable {s t mid : Store}

/-- Expanding what is pending leaves the entries of other types alone. -/
theorem Store.Draining.drain_entry {fuel : Nat} {types : List Handle} (hs : s.Draining)
    (hrun : (Store.drain fuel).run s = .ok (types, t)) {type : Handle} {entry : Entry}
    (hentry : s.types[type]? = some entry) (hfree : type ∉ s.pending) :
    t.types[type]? = some entry := by
  refine (hs.drain_keeps (I := fun u => u.types[type]? = some entry ∧ type ∉ u.pending)
    ⟨hentry, hfree⟩ ?_ hrun).2.2.1
  rintro u u' next rest hu ⟨hhere, hnot⟩ hpending hexpand
  rw [hpending, List.mem_cons, not_or] at hnot
  rcases expand_run (hu.popped hpending) hexpand with
    ⟨rfl, -⟩ | ⟨last, change, -, hgrown, -, rfl, -⟩
  · exact ⟨hhere, hnot.2⟩
  · refine ⟨?_, fun hmem => ?_⟩
    · rw [relink, Array.getElem?_modify, if_neg (Ne.symm hnot.1)]
      exact hgrown.entry hhere
    · rcases hgrown.mem_pending hmem with hrest | ⟨hge, -⟩
      · exact hnot.2 hrest
      · exact absurd (lt_of_entry hhere) (Nat.not_lt.mpr hge)

/-- A type of `s` in `t` is as it was, but for an interface set that `s`, finished, had not
computed. -/
def Store.KeepsEntry (s t : Store) (type : Handle) (entry : Entry) : Prop :=
  ∃ interfaces closed, t.types[type]? = some { entry with interfaces, closed } ∧
    (entry.closed = true ∨ s.finished = false →
      interfaces = entry.interfaces ∧ closed = entry.closed)

theorem Store.keepsEntry_of_same {type : Handle} {entry : Entry}
    (h : t.types[type]? = some entry) : s.KeepsEntry t type entry :=
  ⟨entry.interfaces, entry.closed, h, fun _ => ⟨rfl, rfl⟩⟩

theorem Store.Lawful.intern_keepsEntry (hs : s.Lawful) (hgrown : Grown s mid) (hmid : mid.Coherent)
    (hrun : closeIfFinished.run mid = .ok ((), t)) {type : Handle} {entry : Entry}
    (hentry : s.types[type]? = some entry) : s.KeepsEntry t type entry := by
  obtain ⟨_, _, hget, hrun⟩ := run_bind_eq_ok.mp hrun
  cases hget
  cases hfinished : s.finished with
  | false =>
      rw [if_neg (by rw [hgrown.finished, hfinished]; decide)] at hrun
      cases hrun
      exact keepsEntry_of_same (hgrown.entry hentry)
  | true =>
      rw [if_pos (hgrown.finished.trans hfinished)] at hrun
      obtain ⟨types, last, hdrain, hclose⟩ := run_bind_eq_ok.mp hrun
      have hdraining := hs.grown_draining hgrown hmid
      have hfree : type ∉ mid.pending := by
        intro hmem
        rcases hgrown.mem_pending hmem with hold | ⟨hge, -⟩
        · rw [(hs.finished hfinished).1] at hold
          cases hold
        · exact absurd (lt_of_entry hentry) (Nat.not_lt.mpr hge)
      have hlast := hdraining.drain_entry hdrain (hgrown.entry hentry) hfree
      obtain ⟨-, hclosing, -⟩ := closeAll_run (drain_run hdraining hdrain).1.wellFormed hclose
      obtain ⟨interfaces, closed, hclosed, hkeep⟩ := hclosing.entries hlast
      refine ⟨interfaces, closed, hclosed, fun h => hkeep (Or.inl (h.resolve_right ?_))⟩
      rw [hfinished]
      decide

/-- Interning keeps the entries of the types that are there. -/
theorem Performs.keepsEntry (h : Performs Interning s t) (hs : s.Lawful) {type : Handle}
    {entry : Entry} (hentry : s.types[type]? = some entry) : s.KeepsEntry t type entry := by
  have hkept : (t.Lawful ∧ t.finished = s.finished) ∧ s.KeepsEntry t type entry := by
    refine h.keeps (I := fun u => (u.Lawful ∧ u.finished = s.finished) ∧ s.KeepsEntry u type entry)
      ⟨⟨hs, rfl⟩, Store.keepsEntry_of_same hentry⟩ ?_
    rintro u u' op ⟨⟨hu, hfinished⟩, interfaces, closed, hhere, hkeep⟩ hallowed hop hrun
    obtain ⟨mid, hgrown, hmid, hclose⟩ := hu.interning hop hrun
    refine ⟨⟨hu.step hallowed hrun, (hu.later_of_interns hop hrun).2.finished.trans hfinished⟩, ?_⟩
    obtain ⟨interfaces', closed', hthere, hkeep'⟩ := hu.intern_keepsEntry hgrown hmid hclose hhere
    refine ⟨interfaces', closed', hthere, fun hcomplete => ?_⟩
    obtain ⟨rfl, rfl⟩ := hkeep hcomplete
    exact hkeep' (hfinished ▸ hcomplete)
  exact hkept.2

end Entries

end NominalGenerics
