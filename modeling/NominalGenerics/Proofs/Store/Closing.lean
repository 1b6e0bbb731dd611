import NominalGenerics.Proofs.Guard
import NominalGenerics.Proofs.Store.Inheritance

/-!
# Closing of interface sets

Closing a type changes only its interface set, and only once: types that are closed, and types on
the path of the guard, keep their entries. With that, every way to close the supertypes of a store
keeps it well-formed and keeps what is expanded.
-/

namespace NominalGenerics.Store

variable {s s' : Store}

/-- `s'` differs from `s` only in the interface sets of types that are neither closed nor
`frozen`. -/
structure Closing (frozen : List Handle) (s s' : Store) : Prop where
  rest : s' = { s with types := s'.types }
  size : s'.size = s.size
  entries : ∀ {type : Handle} {entry}, s.types[type]? = some entry →
    ∃ interfaces closed, s'.types[type]? = some { entry with interfaces, closed } ∧
      (entry.closed = true ∨ type ∈ frozen → interfaces = entry.interfaces ∧ closed = entry.closed)

namespace Closing

variable {frozen : List Handle}

theorem refl (s : Store) : Closing frozen s s :=
  ⟨rfl, rfl, fun {_ entry} h => ⟨entry.interfaces, entry.closed, h, fun _ => ⟨rfl, rfl⟩⟩⟩

theorem trans {a b c : Store} (hab : Closing frozen a b) (hbc : Closing frozen b c) :
    Closing frozen a c := by
  refine ⟨?_, hbc.size.trans hab.size, fun {type entry} h => ?_⟩
  · rw [hbc.rest, hab.rest]
  · obtain ⟨interfaces, closed, hb, hkeep⟩ := hab.entries h
    obtain ⟨interfaces', closed', hc, hkeep'⟩ := hbc.entries hb
    refine ⟨interfaces', closed', hc, fun hfrozen => ?_⟩
    obtain ⟨rfl, rfl⟩ := hkeep hfrozen
    exact hkeep' hfrozen

theorem mono {frozen' : List Handle} (h : Closing frozen' s s') (hsub : frozen ⊆ frozen') :
    Closing frozen s s' := by
  refine ⟨h.rest, h.size, fun he => ?_⟩
  obtain ⟨interfaces, closed, he', hkeep⟩ := h.entries he
  exact ⟨interfaces, closed, he', fun hfrozen => hkeep (hfrozen.imp_right (hsub ·))⟩

/-- An entry of the new store is an old one with another interface set. -/
theorem old (h : Closing frozen s s') {type : Handle} {entry' : Entry}
    (he : s'.types[type]? = some entry') :
    ∃ entry, s.types[type]? = some entry ∧
      entry' = { entry with interfaces := entry'.interfaces, closed := entry'.closed } := by
  have hlt : type < s.size := h.size ▸ lt_of_entry he
  obtain ⟨entry, hentry⟩ := entry_of_lt hlt
  obtain ⟨interfaces, closed, hnew, -⟩ := h.entries hentry
  obtain rfl := Option.some.inj (hnew.symm.trans he)
  exact ⟨entry, hentry, rfl⟩

theorem sameForms (h : Closing frozen s s') : SameForms s s' := by
  have hrest := h.rest
  refine ⟨fun type => ?_, ?_, ?_, fun _ => ?_, ?_⟩
  · by_cases hlt : type < s.size
    · obtain ⟨entry, hentry⟩ := entry_of_lt hlt
      obtain ⟨interfaces, closed, hnew, -⟩ := h.entries hentry
      rw [Store.form, Store.form, hnew, hentry]
      rfl
    · have hnone : ∀ t : Store, ¬ type < t.size → t.form type = none := by
        intro t ht
        rw [Store.form, Array.getElem?_eq_none (Nat.le_of_not_lt ht)]
        rfl
      rw [hnone s hlt, hnone s' (h.size ▸ hlt)]
  all_goals rw [hrest]

theorem links (h : Closing frozen s s') (type : Handle) : s'.links type = s.links type := by
  rw [Store.links, Store.links]
  cases hnew : s'.types[type]? with
  | none =>
      have hle : s.size ≤ type := h.size ▸ Array.getElem?_eq_none_iff.mp hnew
      rw [Array.getElem?_eq_none hle]
  | some entry' =>
      obtain ⟨entry, hentry, heq⟩ := h.old hnew
      rw [hentry, heq]
      rfl

theorem later (h : Closing frozen s s') : Later s s' := by
  refine ⟨fun he hclosed => ?_, h.sameForms.extends, ?_, ?_, ?_, ?_, ?_, ?_, ?_⟩
  · obtain ⟨interfaces, closed, hnew, hkeep⟩ := h.entries he
    obtain ⟨rfl, rfl⟩ := hkeep (Or.inl hclosed)
    exact hnew
  all_goals rw [h.rest]

theorem pending (h : Closing frozen s s') : s'.pending = s.pending := by rw [h.rest]

theorem expanded (h : Closing frozen s s') (hs : s.Coherent) {type : Handle} (hlt : type < s.size)
    (he : s.Expanded type) : s'.Expanded type :=
  he.mono h.sameForms.extends h.later.arrayRoot h.later.root hlt (h.links type)
    (fun definition _ _ => h.links definition) hs

end Closing

section Walks

variable {α β : Type} {g g' : Guard Handle}

theorem run_run_bind_eq_ok {x : ClosureM α} {f : α → ClosureM β} {b : β} :
    ((x >>= f).run g).run s = .ok ((b, g'), s') ↔
      ∃ a g₁ s₁, (x.run g).run s = .ok ((a, g₁), s₁) ∧
        ((f a).run g₁).run s₁ = .ok ((b, g'), s') := by
  rw [StateT.run_bind, run_bind_eq_ok]
  constructor
  · rintro ⟨⟨a, g₁⟩, s₁, hx, hf⟩
    exact ⟨a, g₁, s₁, hx, hf⟩
  · rintro ⟨a, g₁, s₁, hx, hf⟩
    exact ⟨(a, g₁), s₁, hx, hf⟩

theorem run_run_query_eq_ok {x : Query α} {a : α} :
    ((liftM x : ClosureM α).run g).run s = .ok ((a, g'), s') ↔ x = .ok a ∧ g = g' ∧ s = s' := by
  cases x with
  | error fault =>
      constructor
      · intro h
        cases h
      · rintro ⟨h, -⟩
        cases h
  | ok b =>
      constructor
      · intro h
        cases h
        exact ⟨rfl, rfl, rfl⟩
      · rintro ⟨h, rfl, rfl⟩
        cases h
        rfl

theorem run_run_lift_eq_ok {x : StoreM α} {a : α} :
    ((liftM x : ClosureM α).run g).run s = .ok ((a, g'), s') ↔
      x.run s = .ok (a, s') ∧ g = g' := by
  have hrun : (liftM x : ClosureM α).run g = x >>= fun a => pure (a, g) := rfl
  rw [hrun, run_bind_eq_ok]
  constructor
  · rintro ⟨b, t, hx, hpure⟩
    cases hpure
    exact ⟨hx, rfl⟩
  · rintro ⟨hx, rfl⟩
    exact ⟨a, s', hx, rfl⟩

theorem run_run_enter_eq_ok {type : Handle} {admission : Admission} :
    ((modifyGetThe (Guard Handle) (·.enter type) : ClosureM Admission).run g).run s =
      .ok ((admission, g'), s') ↔ g.enter type = (admission, g') ∧ s = s' := by
  have hrun : ((modifyGetThe (Guard Handle) (·.enter type) : ClosureM Admission).run g).run s =
      .ok (((g.enter type).1, (g.enter type).2), s) := rfl
  rw [hrun, Except.ok.injEq, Prod.mk.injEq]

/-- A walk that closes types keeps the store well-formed, spares the types on the path, and comes
back with the path it started from. The interface sets it computes list inherited interfaces. -/
structure Closes (g : Guard Handle) (s : Store) (g' : Guard Handle) (s' : Store) : Prop where
  wellFormed : s'.WellFormed
  closing : Closing g.visiting s s'
  visiting : g'.visiting = g.visiting
  inheriting : s.Inheriting → s'.Inheriting

theorem Closes.refl (hs : s.WellFormed) : Closes g s g s := ⟨hs, Closing.refl s, rfl, id⟩

theorem Closes.trans {g₁ : Guard Handle} {s₁ : Store} (h : Closes g s g₁ s₁)
    (h' : Closes g₁ s₁ g' s') : Closes g s g' s' := by
  have hclosing := h'.closing
  rw [h.visiting] at hclosing
  exact ⟨h'.wellFormed, h.closing.trans hclosing, h'.visiting.trans h.visiting,
    fun hs => h'.inheriting (h.inheriting hs)⟩

theorem mem_foldl_appendNew {all types : List Handle} {type : Handle} :
    type ∈ types.foldl appendNew all ↔ type ∈ all ∨ type ∈ types := by
  induction types generalizing all with
  | nil => simp
  | cons other types ih => simp [ih, mem_appendNew, or_assoc]

theorem interfaces_lt {type : Handle} {interfaces : List Handle} (hs : s.WellFormed)
    (h : s.interfaces type = .ok interfaces) : ∀ t ∈ interfaces, t < s.size := by
  obtain ⟨entry, hentry, h⟩ := Query.bind_eq_ok.mp h
  obtain rfl := Query.pure_eq_ok.mp h
  exact (hs.inRange.links (entry_eq_ok.mp hentry)).interfaces

variable {close : Handle → ClosureM Unit}

/-- Closing a supertype and reading its interfaces. -/
theorem inherit_run
    (hclose : ∀ {type g s u g' s'}, s.WellFormed →
      ((close type).run g).run s = .ok ((u, g'), s') → Closes g s g' s')
    {type : Handle} {a : α} {f : List Handle → ClosureM α} (hs : s.WellFormed)
    (hrun : ((do
        close type
        let inherited ← (← getThe Store).interfaces type
        f inherited : ClosureM α).run g).run s = .ok ((a, g'), s')) :
    ∃ inherited g₁ s₁, Closes g s g₁ s₁ ∧ (∀ t ∈ inherited, t < s₁.size) ∧
      (s.Inheriting → ∀ t ∈ inherited, s₁.Inherited type t) ∧
      ((f inherited).run g₁).run s₁ = .ok ((a, g'), s') := by
  obtain ⟨_, g₁, s₁, hcloses, hrun⟩ := run_run_bind_eq_ok.mp hrun
  obtain ⟨_, _, _, hget, hrun⟩ := run_run_bind_eq_ok.mp hrun
  cases hget
  obtain ⟨inherited, _, _, hread, hrun⟩ := run_run_bind_eq_ok.mp hrun
  obtain ⟨hinherited, rfl, rfl⟩ := run_run_query_eq_ok.mp hread
  have hstep := hclose hs hcloses
  refine ⟨inherited, g₁, s₁, hstep, interfaces_lt hstep.wellFormed hinherited, fun hsound => ?_,
    hrun⟩
  obtain ⟨entry, hentry, hread⟩ := Query.bind_eq_ok.mp hinherited
  obtain rfl := Query.pure_eq_ok.mp hread
  exact hstep.inheriting hsound type entry (entry_eq_ok.mp hentry)

theorem closeDirect_run
    (hclose : ∀ {type g s u g' s'}, s.WellFormed →
      ((close type).run g).run s = .ok ((u, g'), s') → Closes g s g' s')
    {types all all' : List Handle} (hs : s.WellFormed) (htypes : ∀ t ∈ types, t < s.size)
    (hall : ∀ t ∈ all, t < s.size)
    (hrun : ((types.foldlM
        (fun all interface => do
          close interface
          let inherited ← (← getThe Store).interfaces interface
          return inherited.foldl appendNew (appendNew all interface))
        all : ClosureM (List Handle)).run g).run s = .ok ((all', g'), s')) :
    Closes g s g' s' ∧ (∀ t ∈ all', t < s'.size) ∧
      (s.Inheriting → ∀ t ∈ all', t ∈ all ∨ ∃ i ∈ types, t = i ∨ s'.Inherited i t) := by
  induction types generalizing g s all with
  | nil =>
      cases hrun
      exact ⟨Closes.refl hs, hall, fun _ t ht => Or.inl ht⟩
  | cons type types ih =>
      rw [List.foldlM_cons] at hrun
      obtain ⟨all₁, g₁, s₁, hfirst, hrun⟩ := run_run_bind_eq_ok.mp hrun
      obtain ⟨inherited, _, _, hstep, hlt, hinherited, hfirst⟩ := inherit_run hclose hs hfirst
      cases hfirst
      have hsize := hstep.closing.size
      obtain ⟨hrest, hlt', hinherited'⟩ := ih hstep.wellFormed
        (fun t ht => hsize ▸ htypes t (List.mem_cons_of_mem type ht))
        (fun t ht => by
          rcases mem_foldl_appendNew.mp ht with ht | ht
          · rcases mem_appendNew.mp ht with ht | rfl
            · exact hsize ▸ hall t ht
            · exact hsize ▸ htypes t List.mem_cons_self
          · exact hlt t ht) hrun
      refine ⟨hstep.trans hrest, hlt', fun hsound t ht => ?_⟩
      rcases hinherited' (hstep.inheriting hsound) t ht with ht | ⟨i, hi, ht⟩
      · rcases mem_foldl_appendNew.mp ht with ht | ht
        · rcases mem_appendNew.mp ht with ht | rfl
          · exact Or.inl ht
          · exact Or.inr ⟨t, List.mem_cons_self, Or.inl rfl⟩
        · refine Or.inr ⟨type, List.mem_cons_self, Or.inr ?_⟩
          exact (hinherited hsound t ht).mono fun _ _ h => (hrest.closing.links _).trans h
      · exact Or.inr ⟨i, List.mem_cons_of_mem type hi, ht⟩

/-- Setting the interface set of a type that is not closed. -/
theorem closing_modify {frozen : List Handle} {type : Handle} {entry : Entry} (all : List Handle)
    (hentry : s.types[type]? = some entry) (hopen : entry.closed = false) (hfree : type ∉ frozen) :
    Closing frozen s { s with types := s.types.modify type fun entry =>
      { entry with interfaces := all, closed := true } } := by
  refine ⟨rfl, by simp [size], fun {other e} he => ?_⟩
  by_cases hother : type = other
  · subst hother
    obtain rfl : entry = e := Option.some.inj (hentry.symm.trans he)
    refine ⟨all, true, by simp [Array.getElem?_modify, he], fun hfrozen => ?_⟩
    rcases hfrozen with hclosed | hmem
    · rw [hopen] at hclosed
      cases hclosed
    · exact absurd hmem hfree
  · exact ⟨e.interfaces, e.closed, by simp [Array.getElem?_modify, hother, he],
      fun _ => ⟨rfl, rfl⟩⟩

/-- The end of a visit: the interface set is stored and the type leaves the path. -/
theorem seal_run {type : Handle} {entry : Entry} {all rest : List Handle} {u : Unit}
    (hs : s.WellFormed) (hall : ∀ t ∈ all, t < s.size) (hentry : s.types[type]? = some entry)
    (hopen : entry.closed = false) (hvisiting : g.visiting = type :: rest) (hfree : type ∉ rest)
    (hrun : ((do
        liftM <| modifyEntry type fun entry => { entry with interfaces := all, closed := true }
        set (← (← getThe (Guard Handle)).leave type) : ClosureM Unit).run g).run s =
      .ok ((u, g'), s')) :
    s'.WellFormed ∧ Closing rest s s' ∧ g'.visiting = rest ∧
      ((∀ t ∈ all, s.Inherited type t) → s.Inheriting → s'.Inheriting) := by
  obtain ⟨_, _, s₁, hlift, hrun⟩ := run_run_bind_eq_ok.mp hrun
  obtain ⟨hmodify, rfl⟩ := run_run_lift_eq_ok.mp hlift
  obtain ⟨_, _, _, hget, hrun⟩ := run_run_bind_eq_ok.mp hrun
  cases hget
  obtain ⟨g₁, _, _, hread, hrun⟩ := run_run_bind_eq_ok.mp hrun
  obtain ⟨hleave, rfl, rfl⟩ := run_run_query_eq_ok.mp hread
  rw [Guard.leave_head hvisiting] at hleave
  cases hleave
  cases hrun
  have hwf := hs.modifyEntry hmodify (fun _ => rfl) fun e he => ⟨he.base, he.directInterfaces, hall⟩
  obtain ⟨-, rfl⟩ := modifyEntry_run hmodify
  have hclosing := closing_modify all hentry hopen hfree
  refine ⟨hwf, hclosing, rfl, fun hinherited hsound other e he super hsuper => ?_⟩
  rcases modify_getElem? he with ⟨rfl, old, hold, rfl⟩ | ⟨-, hold⟩
  · exact (hinherited super hsuper).mono fun t _ h => (hclosing.links t).trans h
  · exact (hsound other e hold super hsuper).mono fun t _ h => (hclosing.links t).trans h

theorem closeStep_run
    (hclose : ∀ {type g s u g' s'}, s.WellFormed →
      ((close type).run g).run s = .ok ((u, g'), s') → Closes g s g' s')
    {type : Handle} {u : Unit} (hs : s.WellFormed)
    (hrun : ((closeStep close type).run g).run s = .ok ((u, g'), s')) : Closes g s g' s' := by
  unfold closeStep at hrun
  obtain ⟨_, _, _, hget, hrun⟩ := run_run_bind_eq_ok.mp hrun
  cases hget
  obtain ⟨entry, _, _, hread, hrun⟩ := run_run_bind_eq_ok.mp hrun
  obtain ⟨hentry, rfl, rfl⟩ := run_run_query_eq_ok.mp hread
  rw [entry_eq_ok] at hentry
  have hlinks := hs.inRange.links hentry
  split at hrun
  · cases hrun
    exact Closes.refl hs
  · next hunclosed =>
      have hopen : entry.closed = false := by simpa using hunclosed
      obtain ⟨admission, g₁, _, henter, hrun⟩ := run_run_bind_eq_ok.mp hrun
      obtain ⟨hentered, rfl⟩ := run_run_enter_eq_ok.mp henter
      obtain ⟨-, ⟨rfl, hfree, -, hvisiting, -⟩ | ⟨rfl, -, hvisiting, -⟩ |
        ⟨hexceeded, hvisiting, -⟩⟩ := Guard.enter_cases hentered
      · obtain ⟨direct, g₂, s₂, hdirect, hrun⟩ := run_run_bind_eq_ok.mp hrun
        obtain ⟨hstep, hdirectlt, hdeclared⟩ := closeDirect_run hclose hs hlinks.directInterfaces
          (fun t ht => absurd ht (List.not_mem_nil)) hdirect
        have hdirectInherited : s.Inheriting → ∀ t ∈ direct, s₂.Inherited type t := by
          intro hsound t ht
          have hl := (hstep.closing.links type).trans (links_of_entry hentry)
          rcases hdeclared hsound t ht with ht | ⟨i, hi, rfl | ht⟩
          · cases ht
          · exact .declared hl hi
          · exact .interface hl hi ht
        -- The type is on the path of the walk, so the walk leaves its entry alone.
        have hseal : ∀ {all g₃ s₃}, Closes g₁ s g₃ s₃ → (∀ t ∈ all, t < s₃.size) →
            (s.Inheriting → ∀ t ∈ all, s₃.Inherited type t) →
            ((do
              liftM <| modifyEntry type fun entry =>
                { entry with interfaces := all, closed := true }
              set (← (← getThe (Guard Handle)).leave type) : ClosureM Unit).run g₃).run s₃ =
              .ok ((u, g'), s') → Closes g s g' s' := by
          intro all g₃ s₃ hwalk hlt hinherited hrun
          obtain ⟨interfaces, closed, hsame, hkeep⟩ := hwalk.closing.entries hentry
          obtain ⟨rfl, rfl⟩ := hkeep (Or.inr (by simp [hvisiting]))
          obtain ⟨hwf, hclosing, hleft, hsealed⟩ := seal_run hwalk.wellFormed hlt hsame hopen
            (hwalk.visiting.trans hvisiting) hfree hrun
          refine ⟨hwf, (hwalk.closing.mono ?_).trans hclosing, hleft,
            fun hsound => hsealed (hinherited hsound) (hwalk.inheriting hsound)⟩
          rw [hvisiting]
          exact List.subset_cons_self _ _
        dsimp only at hrun
        split at hrun
        · next base hbase =>
            obtain ⟨inherited, g₃, s₃, hinherit, hlt, hfromBase, hrun⟩ :=
              inherit_run hclose hstep.wellFormed hrun
            obtain ⟨_, _, _, hpure, hrun⟩ := run_run_bind_eq_ok.mp hrun
            cases hpure
            refine hseal (hstep.trans hinherit) (fun t ht => ?_) (fun hsound t ht => ?_) hrun
            · rcases mem_foldl_appendNew.mp ht with ht | ht
              · exact hinherit.closing.size ▸ hdirectlt t ht
              · exact hlt t ht
            · have hl := ((hstep.trans hinherit).closing.links type).trans (links_of_entry hentry)
              rw [hbase] at hl
              rcases mem_foldl_appendNew.mp ht with ht | ht
              · exact (hdirectInherited hsound t ht).mono
                  fun t _ h => (hinherit.closing.links t).trans h
              · exact .base hl (hfromBase (hstep.inheriting hsound) t ht)
        · obtain ⟨_, _, _, hpure, hrun⟩ := run_run_bind_eq_ok.mp hrun
          cases hpure
          exact hseal hstep hdirectlt hdirectInherited hrun
      · cases hrun
        exact ⟨hs, Closing.refl s, hvisiting, id⟩
      · have hrefused : (u, g') = ((), g₁) ∧ s' = s := by
          cases admission with
          | entered => cases hexceeded
          | cycle => cases hexceeded
          | depthExceeded =>
              cases hrun
              exact ⟨rfl, rfl⟩
          | iterationExceeded =>
              cases hrun
              exact ⟨rfl, rfl⟩
        obtain ⟨heq, rfl⟩ := hrefused
        cases heq
        exact ⟨hs, Closing.refl s', hvisiting, id⟩

theorem closeInterfaces_run {depth : Nat} {type : Handle} {u : Unit} (hs : s.WellFormed)
    (hrun : ((closeInterfaces depth type).run g).run s = .ok ((u, g'), s')) : Closes g s g' s' := by
  induction depth generalizing type g g' s s' with
  | zero =>
      refine closeStep_run (fun _ hthrow => ?_) hs hrun
      cases hthrow
  | succ depth ih => exact closeStep_run (fun hs hrun => ih hs hrun) hs hrun

end Walks

theorem closeAll_run {types : List Handle} {u : Unit} (hs : s.WellFormed)
    (hrun : (closeAll types).run s = .ok (u, s')) :
    s'.WellFormed ∧ Closing [] s s' ∧ (s.Inheriting → s'.Inheriting) := by
  unfold closeAll at hrun
  obtain ⟨⟨_, guard⟩, mid, hforM, hrun⟩ := run_bind_eq_ok.mp hrun
  obtain ⟨-, rfl⟩ := run_lift_eq_ok.mp hrun
  have hwalk : ∀ {types : List Handle} {g g' : Guard Handle} {s s' : Store} {u : PUnit},
      s.WellFormed →
      ((types.forM (closeInterfaces Limits.supertypeClosure.maxDepth)).run g).run s =
        .ok ((u, g'), s') → Closes g s g' s' := by
    intro types
    induction types with
    | nil =>
        intro g g' s s' u hs hrun
        cases hrun
        exact Closes.refl hs
    | cons type types ih =>
        intro g g' s s' u hs hrun
        obtain ⟨_, g₁, s₁, hfirst, hrun⟩ := run_run_bind_eq_ok.mp hrun
        have hstep := closeInterfaces_run hs hfirst
        exact hstep.trans (ih hstep.wellFormed hrun)
  have hcloses := hwalk hs hforM
  exact ⟨hcloses.wellFormed, hcloses.closing, hcloses.inheriting⟩

/-- Closing the pending types of a store leaves none pending and expands every type. Between
expanding the types and closing them there is a store `mid`. -/
theorem close_run {u : Unit} (hs : s.Draining) (hrun : close.run s = .ok (u, s')) :
    s'.Draining ∧ s'.pending = [] ∧ Later s s' ∧
      ∃ mid, Expands s mid ∧ (mid.Inheriting → s'.Inheriting) := by
  unfold close at hrun
  obtain ⟨types, mid, hdrain, hrun⟩ := run_bind_eq_ok.mp hrun
  obtain ⟨hmid, hempty, hlater, hexpands⟩ := drain_run hs hdrain
  obtain ⟨hwf, hclosing, hinheriting⟩ := closeAll_run hmid.wellFormed hrun
  have hempty' : s'.pending = [] := hclosing.pending.trans hempty
  refine ⟨⟨hwf, ?_, fun type hlt => Or.inr ?_⟩, hempty', hlater.trans hclosing.later, mid,
    hexpands, hinheriting⟩
  · simp [hempty']
  · have hlt' : type < mid.size := hclosing.size ▸ hlt
    have hexp := (hmid.expanded type hlt').resolve_left (by simp [hempty])
    exact hclosing.expanded hmid.wellFormed.coherent hlt' hexp

end NominalGenerics.Store
