import NominalGenerics.Proofs.Store.Expansion

/-!
# Inheritance of interfaces

A type inherits the interfaces it declares, and those that its declared interfaces and its base
inherit. The interface set of a type is computed from the sets of its direct supertypes, so it lists
only what the type inherits; where declarations are cyclic it may list less.
-/

namespace NominalGenerics.Store

variable {s s' : Store}

/-- `Inherited store type super`: the interface `super` is declared on `type`, or inherited by one of
its direct supertypes. -/
inductive Inherited (store : Store) : Handle → Handle → Prop
  | declared {type super : Handle} {base : Option Handle} {interfaces : List Handle}
      (hlinks : store.links type = some (base, interfaces)) (hmem : super ∈ interfaces) :
      Inherited store type super
  | interface {type interface super : Handle} {base : Option Handle} {interfaces : List Handle}
      (hlinks : store.links type = some (base, interfaces)) (hmem : interface ∈ interfaces)
      (hsuper : Inherited store interface super) : Inherited store type super
  | base {type base super : Handle} {interfaces : List Handle}
      (hlinks : store.links type = some (some base, interfaces))
      (hsuper : Inherited store base super) : Inherited store type super

/-- Interface sets list only inherited interfaces. -/
def Inheriting (store : Store) : Prop :=
  ∀ (type : Handle) entry, store.types[type]? = some entry → ∀ super ∈ entry.interfaces,
    store.Inherited type super

theorem links_of_entry {type : Handle} {entry : Entry} (h : s.types[type]? = some entry) :
    s.links type = some (entry.base, entry.directInterfaces) := by
  rw [links, h]
  rfl

theorem Inherited.mono (hlinks : ∀ type links, s.links type = some links →
    s'.links type = some links) {type super : Handle} (h : s.Inherited type super) :
    s'.Inherited type super := by
  induction h with
  | declared h hmem => exact .declared (hlinks _ _ h) hmem
  | interface h hmem _ ih => exact .interface (hlinks _ _ h) hmem ih
  | base h _ ih => exact .base (hlinks _ _ h) ih

/-- Interface sets that stay as they are, or are empty, list only inherited interfaces as long as
direct supertypes stay. -/
theorem Inheriting.mono (hs : s.Inheriting) (hlinks : ∀ type links, s.links type = some links →
    s'.links type = some links)
    (hinterfaces : ∀ (type : Handle) entry', s'.types[type]? = some entry' →
      entry'.interfaces = [] ∨
        ∃ entry, s.types[type]? = some entry ∧ entry'.interfaces = entry.interfaces) :
    s'.Inheriting := by
  intro type entry' hentry' super hsuper
  rcases hinterfaces type entry' hentry' with hnone | ⟨entry, hentry, heq⟩
  · rw [hnone] at hsuper
    cases hsuper
  · exact (hs type entry hentry super (heq ▸ hsuper)).mono hlinks

/-- Interning and expanding types in a store without pending types. -/
theorem Inheriting.expanded (hs : s.Inheriting) {mid : Store} (hpending : s.pending = [])
    (hgrown : Grown s mid) (hexpands : Expands mid s') : s'.Inheriting := by
  refine hs.mono (fun type links h => ?_) fun type entry' hentry' => ?_
  · have hlt : type < s.size := by
      obtain ⟨entry, hentry, -⟩ := Option.map_eq_some_iff.mp h
      exact lt_of_entry hentry
    have hfree : type ∉ mid.pending := by
      intro hmem
      rcases hgrown.mem_pending hmem with hold | ⟨hle, -⟩
      · simp [hpending] at hold
      · exact absurd hlt (Nat.not_lt.mpr hle)
    rw [(hexpands.links (hgrown.lt hlt) hfree).1, hgrown.links hlt, h]
  · rcases hexpands.interfaces hentry' with hnone | ⟨entry, hentry, heq⟩
    · exact Or.inl hnone
    · rcases hgrown.old_or_fresh hentry with hold | ⟨-, hfresh, -⟩
      · exact Or.inr ⟨entry, hold, heq⟩
      · exact Or.inl (heq.trans hfresh.interfaces)

end NominalGenerics.Store
