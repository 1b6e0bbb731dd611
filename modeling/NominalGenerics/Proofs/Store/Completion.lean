import NominalGenerics.Proofs.Store.Derivation
import NominalGenerics.Proofs.Store.Worklist

/-!
# Operations break no precondition

An operation that is allowed on a lawful store ends, unless it makes more types pending than handles
can tell apart. Every other precondition holds: the handles that it reads denote types, substitution
has an argument for each parameter, arrays have a rank, and the walk that closes supertypes leaves
the types that it entered.
-/

namespace NominalGenerics

section Completing

variable {σ α β : Type} {x : StateT σ Query α} {s : σ} {post : α → σ → Prop} {lack : Prop}

/-- The computation breaks no precondition: it ends in a result and a state that satisfy `post`, or
it runs out of fuel for the reason `lack`. -/
def Completes (lack : Prop) (x : StateT σ Query α) (s : σ) (post : α → σ → Prop) : Prop :=
  Returns x s post ∨ x.run s = .error .outOfFuel ∧ lack

namespace Completes

theorem pure {a : α} (h : post a s) : Completes lack (pure a : StateT σ Query α) s post :=
  Or.inl (.pure h)

theorem run_bind {f : α → StateT σ Query β} {a : α} {t : σ} {post : β → σ → Prop}
    (hrun : x.run s = .ok (a, t)) (h : Completes lack (f a) t post) :
    Completes lack (x >>= f) s post := by
  rcases h with hreturns | ⟨hfault, hlack⟩
  · exact Or.inl (.run_bind hrun hreturns)
  · refine Or.inr ⟨?_, hlack⟩
    rw [StateT.run_bind, hrun]
    exact hfault

theorem bind {f : α → StateT σ Query β} {post' : β → σ → Prop} (hx : Completes lack x s post)
    (hf : ∀ a s', post a s' → Completes lack (f a) s' post') :
    Completes lack (x >>= f) s post' := by
  rcases hx with ⟨a, t, hrun, ha⟩ | ⟨hrun, hlack⟩
  · exact .run_bind hrun (hf a t ha)
  · refine Or.inr ⟨?_, hlack⟩
    rw [StateT.run_bind, hrun]
    rfl

theorem get_bind {f : σ → StateT σ Query β} {post : β → σ → Prop}
    (h : Completes lack (f s) s post) : Completes lack (get >>= f) s post := h

/-- A computation that completes has the properties of all its runs. -/
theorem of_run {post' : α → σ → Prop} (hx : Completes lack x s post)
    (hpost : ∀ a s', x.run s = .ok (a, s') → post a s' → post' a s') :
    Completes lack x s post' :=
  hx.imp_left fun h => h.of_run hpost

theorem imp_lack {lack' : Prop} (hx : Completes lack x s post) (hlack : lack → lack') :
    Completes lack' x s post :=
  hx.imp_right (.imp_right hlack)

theorem discard (hx : Completes lack x s post) :
    Completes lack (discard x) s fun _ _ => True := by
  have hbind : (Functor.discard x : StateT σ Query PUnit) = x >>= fun _ => Pure.pure PUnit.unit :=
    rfl
  rw [hbind]
  exact hx.bind fun _ _ _ => .pure trivial

theorem of_discard {post : PUnit → σ → Prop} (h : Completes lack (Functor.discard x) s post) :
    Completes lack x s fun _ _ => True := by
  have hrun : (Functor.discard x : StateT σ Query PUnit).run s =
      x.run s >>= fun (_, s') => Pure.pure (PUnit.unit, s') := rfl
  unfold Completes at h
  rw [Returns, hrun] at h
  cases hx : x.run s with
  | ok result => exact Or.inl ⟨result.1, result.2, hx, trivial⟩
  | error fault =>
      rw [hx] at h
      rcases h with ⟨_, _, h, -⟩ | ⟨h, hlack⟩
      · cases h
      · exact Or.inr ⟨hx.trans (congrArg Except.error (Except.error.inj h)), hlack⟩

end Completes

end Completing

/-- More types come to be pending on the store than handles can tell apart before none is left. -/
def Store.Overfull (s : Store) : Prop :=
  ∃ types last, Store.Drains s types last ∧ Store.handleSpace < types.length

/-- The operation expands pending types, and there come to be more of them than handles can tell
apart. -/
def Operation.Overflows (op : Operation) (s : Store) : Prop :=
  op.expands s = true ∧ ∃ start, op.prepare.run s = .ok ((), start) ∧ start.Overfull

namespace Store

variable {s : Store}

/-- Pending types are expanded until none is left, unless there are too many of them. -/
theorem drain_completes (hs : s.Draining) :
    Completes s.Overfull (drain handleSpace) s fun types s' =>
      s'.WellFormed ∧ ∀ t ∈ types, t < s'.size := by
  obtain ⟨types, last, hdrains, hlast, -, hle, -, hmem⟩ :=
    hs.drains (within_ofStore s) (Nat.le_refl _)
  have hrun := hdrains.run handleSpace
  by_cases hfits : types.length ≤ handleSpace
  · rw [if_pos hfits] at hrun
    refine Or.inl ⟨types, last, hrun, hlast.wellFormed, fun t ht => ?_⟩
    rcases (hmem t).mp ht with hpending | ⟨-, hlt⟩
    · exact Nat.lt_of_lt_of_le (hs.wellFormed.inRange.pending t hpending) hle
    · exact hlt
  · rw [if_neg hfits] at hrun
    exact Or.inr ⟨hrun, types, last, hdrains, Nat.lt_of_not_le hfits⟩

theorem close_completes (hs : s.Draining) :
    Completes s.Overfull close s fun _ s' => s'.WellFormed :=
  (drain_completes hs).bind fun _ _ h =>
    Or.inl ((closeAll_returns h.1 h.2).of_run fun _ _ _ h => h.1)

theorem closeIfFinished_completes (hs : s.Draining) :
    Completes (s.finished = true ∧ s.Overfull) closeIfFinished s fun _ _ => True := by
  refine .get_bind ?_
  split
  · next hfinished =>
      exact ((close_completes hs).imp_lack (And.intro hfinished)).of_run fun _ _ _ _ => trivial
  · exact .pure trivial

theorem finish_completes (hs : s.Lawful) (hunfinished : s.finished = false) :
    Completes (Operation.finish.Overflows s) finish s fun _ _ => True := by
  have hstart := (hs.withDefaultBases hunfinished).draining
  have hclose : Completes (Operation.finish.Overflows s) close s.withDefaultBases
      fun _ s' => s'.WellFormed :=
    (close_completes hstart).imp_lack fun hfull => ⟨rfl, _, rfl, hfull⟩
  refine .run_bind rfl (hclose.bind fun _ mid hmid => .get_bind ?_)
  obtain ⟨_, _, hclose, -⟩ := closeAll_returns hmid fun t ht => List.mem_range.mp ht
  exact .run_bind hclose (Or.inl ⟨_, _, rfl, trivial⟩)

theorem instantiate_completes (hs : s.Lawful) {definition : Handle} {args : List Handle}
    (hdefinition : definition < s.size) (hargs : ∀ a ∈ args, a < s.size) :
    Completes ((Operation.instantiate definition args).Overflows s) (instantiate definition args) s
      fun _ _ => True := by
  obtain ⟨type, mid, hrun, hmid, hgrown, -⟩ :=
    internInstance_returns hs.wellFormed.coherent hdefinition hargs
  have hclose := (closeIfFinished_completes (hs.grown_draining hgrown hmid)).imp_lack
    fun ⟨hfinished, hfull⟩ =>
      (⟨hgrown.finished.symm.trans hfinished, mid, discard_run hrun, hfull⟩ :
        (Operation.instantiate definition args).Overflows s)
  exact .run_bind hrun (hclose.bind fun _ _ _ => .pure trivial)

theorem arrayOf_completes (hs : s.Lawful) {element : Handle} (helement : element < s.size)
    (rank : Nat) :
    Completes ((Operation.arrayOf element rank).Overflows s) (arrayOf element rank) s
      fun _ _ => True := by
  obtain ⟨type, mid, hrun, hmid, hgrown, -⟩ :=
    internArray_returns hs.wellFormed.coherent helement (Nat.le_max_right rank 1)
  have hclose := (closeIfFinished_completes (hs.grown_draining hgrown hmid)).imp_lack
    fun ⟨hfinished, hfull⟩ =>
      (⟨hgrown.finished.symm.trans hfinished, mid, discard_run hrun, hfull⟩ :
        (Operation.arrayOf element rank).Overflows s)
  exact .run_bind hrun (hclose.bind fun _ _ _ => .pure trivial)

theorem declareGeneric_returns (kind : TypeKind) (name : String)
    (params : List (String × Variance)) :
    Returns (declareGeneric kind name params) s fun _ _ => True := by
  refine .run_bind (push_run _) (.run_bind (mapM_push_run _ _) ?_)
  refine (modifyEntry_returns ?_ _).bind fun _ _ _ => .pure trivial
  rw [size_appended, size_appended, List.length_singleton]
  exact Nat.lt_of_lt_of_le (Nat.lt_succ_self _) (Nat.le_add_right _ _)

theorem declareCallable_returns (name : String) (typeParams : List String) :
    Returns (declareCallable name typeParams) s fun _ _ => True :=
  .get_bind (.run_bind (mapM_push_run _ _) ⟨_, _, rfl, trivial⟩)

/-- An allowed operation completes, unless it makes too many types pending. -/
theorem Lawful.run_completes (hs : s.Lawful) {op : Operation} (hallowed : op.Allowed s) :
    Completes (op.Overflows s) op.run s fun _ _ => True := by
  obtain ⟨hhandles, htime⟩ := hallowed
  have hmodify : ∀ {type : Handle} {change : Entry → Entry}, type ∈ op.handles →
      Completes (op.Overflows s) (Store.modifyEntry type change) s fun _ _ => True := fun htype =>
    Or.inl ((modifyEntry_returns (hhandles _ htype) _).of_run fun _ _ _ _ => trivial)
  cases op with
  | declare kind name => exact Or.inl ⟨_, _, rfl, trivial⟩
  | declareGeneric kind name params =>
      exact Completes.discard (Or.inl (declareGeneric_returns kind name params))
  | declarePrimitive name kind => exact Or.inl ⟨_, _, rfl, trivial⟩
  | declareEnum name underlying => exact Or.inl ⟨_, _, rfl, trivial⟩
  | declarePointer name => exact Or.inl ⟨_, _, rfl, trivial⟩
  | setBase type base => exact hmodify List.mem_cons_self
  | addInterface type interface => exact hmodify List.mem_cons_self
  | addFlags type flags => exact hmodify List.mem_cons_self
  | removeFlags type flags => exact hmodify List.mem_cons_self
  | setValueTypeRoot type => exact Or.inl ⟨_, _, rfl, trivial⟩
  | setArrayRoot type => exact Or.inl ⟨_, _, rfl, trivial⟩
  | setOptionalWrapper definition => exact Or.inl ⟨_, _, rfl, trivial⟩
  | addSequenceInterface definition => exact Or.inl ⟨_, _, rfl, trivial⟩
  | finish => exact finish_completes hs (htime rfl)
  | instantiate definition args =>
      exact (instantiate_completes hs (hhandles definition List.mem_cons_self)
        fun a ha => hhandles a (List.mem_cons_of_mem definition ha)).discard
  | arrayOf element rank =>
      exact (arrayOf_completes hs (hhandles element List.mem_cons_self) rank).discard
  | declareCallable name typeParams =>
      exact Completes.discard (Or.inl (declareCallable_returns name typeParams))
  | addParameter id type mode => exact Or.inl ⟨_, _, rfl, trivial⟩
  | setReturnType id type => exact Or.inl ⟨_, _, rfl, trivial⟩
  | setDeclaringType id type => exact Or.inl ⟨_, _, rfl, trivial⟩
  | addConstraint param constraint =>
      refine hmodify ?_
      cases constraint <;> exact List.mem_cons_self

end Store

end NominalGenerics
