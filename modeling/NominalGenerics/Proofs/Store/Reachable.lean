import NominalGenerics.Proofs.Store.Closing

/-!
# Reachable stores

A store is reachable if a sequence of operations on handles that exist builds it from the store that
holds only the root. Declarations end with `finish`; instantiations, arrays and callables may be
added at any time.

Reachable stores are coherent, every handle they record denotes a type, and a finished one has
computed the supertypes of all its types.
-/

namespace NominalGenerics

/-- The operations that build a store. -/
inductive Operation where
  | declare (kind : TypeKind) (name : String)
  | declareGeneric (kind : TypeKind) (name : String) (params : List (String × Variance))
  | declarePrimitive (name : String) (kind : Primitive)
  | declareEnum (name : String) (underlying : Handle)
  | declarePointer (name : String)
  | setBase (type base : Handle)
  | addInterface (type interface : Handle)
  | addFlags (type : Handle) (flags : Flags)
  | removeFlags (type : Handle) (flags : Flags)
  | setValueTypeRoot (type : Handle)
  | setArrayRoot (type : Handle)
  | setOptionalWrapper (definition : Handle)
  | addSequenceInterface (definition : Handle)
  | finish
  | instantiate (definition : Handle) (args : List Handle)
  | arrayOf (element : Handle) (rank : Nat)
  | declareCallable (name : String) (typeParams : List String)
  | addParameter (id : CallableId) (type : Handle) (mode : PassingMode)
  | setReturnType (id : CallableId) (type : Handle)
  | setDeclaringType (id : CallableId) (type : Handle)
  | addConstraint (param : Handle) (constraint : Constraint)
  deriving DecidableEq, Repr

namespace Operation

/-- The effect of an operation on a store. -/
def run : Operation → StoreM Unit
  | declare kind name => discard <| Store.declare kind name
  | declareGeneric kind name params => discard <| Store.declareGeneric kind name params
  | declarePrimitive name kind => discard <| Store.declarePrimitive name kind
  | declareEnum name underlying => discard <| Store.declareEnum name underlying
  | declarePointer name => discard <| Store.declarePointer name
  | setBase type base => Store.setBase type base
  | addInterface type interface => Store.addInterface type interface
  | addFlags type flags => Store.addFlags type flags
  | removeFlags type flags => Store.removeFlags type flags
  | setValueTypeRoot type => Store.setValueTypeRoot type
  | setArrayRoot type => Store.setArrayRoot type
  | setOptionalWrapper definition => Store.setOptionalWrapper definition
  | addSequenceInterface definition => Store.addSequenceInterface definition
  | finish => Store.finish
  | instantiate definition args => discard <| Store.instantiate definition args
  | arrayOf element rank => discard <| Store.arrayOf element rank
  | declareCallable name typeParams => discard <| Store.declareCallable name typeParams
  | addParameter id type mode => Store.addParameter id type mode
  | setReturnType id type => Store.setReturnType id type
  | setDeclaringType id type => Store.setDeclaringType id type
  | addConstraint param constraint => Store.addConstraint param constraint

/-- The handles that an operation is given. -/
def handles : Operation → List Handle
  | declareEnum _ underlying => [underlying]
  | setBase type base => [type, base]
  | addInterface type interface => [type, interface]
  | addFlags type _ | removeFlags type _ | setValueTypeRoot type | setArrayRoot type => [type]
  | setOptionalWrapper definition | addSequenceInterface definition => [definition]
  | instantiate definition args => definition :: args
  | arrayOf element _ => [element]
  | addParameter _ type _ | setReturnType _ type | setDeclaringType _ type => [type]
  | addConstraint param (.base target) => [param, target]
  | addConstraint param _ => [param]
  | declare .. | declareGeneric .. | declarePrimitive .. | declarePointer .. | finish
  | declareCallable .. => []

/-- Whether the operation declares types, which ends with `finish`. -/
def isDeclaration : Operation → Bool
  | instantiate .. | arrayOf .. | declareCallable .. | addParameter .. | setReturnType ..
  | setDeclaringType .. | addConstraint .. => false
  | _ => true

/-- Whether the operation interns a type. -/
def interns : Operation → Bool
  | instantiate .. | arrayOf .. => true
  | _ => false

/-- The operation is given handles of the store and comes at its time. -/
def Allowed (store : Store) (op : Operation) : Prop :=
  (∀ type ∈ op.handles, type < store.size) ∧ (op.isDeclaration = true → store.finished = false)

instance (store : Store) (op : Operation) : Decidable (op.Allowed store) :=
  inferInstanceAs (Decidable (_ ∧ _))

/-- Runs operations in order; there is no result if one is not allowed or faults. -/
def runAll : List Operation → Store → Option Store
  | [], store => some store
  | op :: rest, store =>
      if op.Allowed store then
        match op.run.run store with
        | .ok (_, next) => runAll rest next
        | .error _ => none
      else
        none

end Operation

namespace Store

/-- The stores that operations build from a root. -/
inductive Reachable : Store → Prop
  | ofRoot (name : String) : Reachable (ofRoot name)
  | step {s s' : Store} {op : Operation} (hs : Reachable s) (hallowed : op.Allowed s)
      (hrun : op.run.run s = .ok ((), s')) : Reachable s'

theorem Reachable.runAll {s s' : Store} {ops : List Operation} (hs : s.Reachable)
    (hrun : Operation.runAll ops s = some s') : s'.Reachable := by
  induction ops generalizing s with
  | nil =>
      cases hrun
      exact hs
  | cons op rest ih =>
      unfold Operation.runAll at hrun
      split at hrun
      · next hallowed =>
          split at hrun
          · next next hnext => exact ih (hs.step hallowed hnext) hrun
          · cases hrun
      · cases hrun

theorem run_discard_eq_ok {α : Type} {x : StoreM α} {s s' : Store}
    (h : (discard x).run s = .ok ((), s')) : ∃ a, x.run s = .ok (a, s') := by
  have hbind : (discard x : StoreM PUnit) = x >>= fun _ => pure PUnit.unit := rfl
  rw [hbind] at h
  obtain ⟨a, t, hx, h⟩ := run_bind_eq_ok.mp h
  obtain ⟨-, rfl⟩ := run_pure_eq_ok.mp h
  exact ⟨a, hx⟩

theorem discard_run {α : Type} {x : StoreM α} {a : α} {s s' : Store}
    (h : x.run s = .ok (a, s')) : (discard x).run s = .ok ((), s') := by
  have hbind : (discard x : StoreM PUnit) = x >>= fun _ => pure PUnit.unit := rfl
  rw [hbind]
  exact run_bind_eq_ok.mpr ⟨a, s', h, rfl⟩

/-- Instantiating interns a type and then closes what is pending. -/
theorem run_instantiate_eq_ok {definition type : Handle} {args : List Handle} {s s' : Store}
    (h : (instantiate definition args).run s = .ok (type, s')) :
    ∃ mid, (internInstance definition args).run s = .ok (type, mid) ∧
      closeIfFinished.run mid = .ok ((), s') := by
  obtain ⟨_, mid, hintern, h⟩ := run_bind_eq_ok.mp h
  obtain ⟨_, last, hclose, h⟩ := run_bind_eq_ok.mp h
  obtain ⟨rfl, rfl⟩ := run_pure_eq_ok.mp h
  exact ⟨mid, hintern, hclose⟩

theorem run_arrayOf_eq_ok {element type : Handle} {rank : Nat} {s s' : Store}
    (h : (arrayOf element rank).run s = .ok (type, s')) :
    ∃ mid, (internArray element (max rank 1)).run s = .ok (type, mid) ∧
      closeIfFinished.run mid = .ok ((), s') := by
  obtain ⟨_, mid, hintern, h⟩ := run_bind_eq_ok.mp h
  obtain ⟨_, last, hclose, h⟩ := run_bind_eq_ok.mp h
  obtain ⟨rfl, rfl⟩ := run_pure_eq_ok.mp h
  exact ⟨mid, hintern, hclose⟩

/-- The invariant of building a store. Before `finish` every instantiation and array is pending and
interface sets are empty; after it nothing is pending, every type is expanded, and interface sets
list inherited interfaces. -/
structure Lawful (store : Store) : Prop where
  wellFormed : store.WellFormed
  unclosed : ∀ type ∈ store.pending, ∀ entry, store.types[type]? = some entry →
    entry.closed = false
  unfinished : store.finished = false → ∀ type, store.Interned type → type ∈ store.pending
  finished : store.finished = true →
    store.pending = [] ∧ ∀ type, type < store.size → store.Expanded type
  quiet : store.finished = false → ∀ (type : Handle) entry, store.types[type]? = some entry →
    entry.interfaces = []
  inheriting : store.Inheriting

/-- Completing the declarations closes the pending types first, and then all types. -/
theorem finish_run {s s' : Store} {u : Unit} (hrun : finish.run s = .ok (u, s')) :
    ∃ closed last, close.run s.withDefaultBases = .ok ((), closed) ∧
      (closeAll (List.range closed.size)).run closed = .ok ((), last) ∧
      s' = { last with finished := true } := by
  obtain ⟨_, _, hmodify, hrun⟩ := run_bind_eq_ok.mp hrun
  cases hmodify
  obtain ⟨_, closed, hclose, hrun⟩ := run_bind_eq_ok.mp hrun
  obtain ⟨_, _, hget, hrun⟩ := run_bind_eq_ok.mp hrun
  cases hget
  obtain ⟨_, last, hall, hrun⟩ := run_bind_eq_ok.mp hrun
  cases hrun
  exact ⟨closed, last, hclose, hall, rfl⟩

/-- The only type of a new store is the root. -/
theorem entry_ofRoot {name : String} {type : Handle} {entry : Entry}
    (h : (ofRoot name).types[type]? = some entry) :
    type = 0 ∧ entry = { name, flags := { defaultConstructor := true }, shape := .named } := by
  obtain ⟨hlt, rfl⟩ := Array.getElem?_eq_some_iff.mp h
  obtain rfl : type = 0 := by
    simp only [ofRoot, List.size_toArray, List.length_cons, List.length_nil] at hlt
    exact Nat.lt_one_iff.mp hlt
  exact ⟨rfl, rfl⟩

namespace Lawful

variable {s s' : Store}

theorem draining (hs : s.Lawful) : s.Draining := by
  refine ⟨hs.wellFormed, hs.unclosed, fun type hlt => ?_⟩
  cases hfinished : s.finished with
  | true => exact Or.inr ((hs.finished hfinished).2 type hlt)
  | false =>
      by_cases hinterned : s.Interned type
      · exact Or.inl (hs.unfinished hfinished type hinterned)
      · exact Or.inr (expanded_of_not_interned hinterned)

theorem of_draining (hs : s.Draining) (hpending : s.pending = []) (hfinished : s.finished = true)
    (hinheriting : s.Inheriting) : s.Lawful :=
  ⟨hs.wellFormed, hs.unclosed, by simp [hfinished],
    fun _ => ⟨hpending, fun type hlt => (hs.expanded type hlt).resolve_left (by simp [hpending])⟩,
    by simp [hfinished], hinheriting⟩

theorem inheriting_of_quiet
    (h : ∀ (type : Handle) entry, s.types[type]? = some entry → entry.interfaces = []) :
    s.Inheriting := by
  intro type entry hentry super hsuper
  rw [h type entry hentry] at hsuper
  cases hsuper

/-- Changes that intern nothing, and leave direct supertypes alone once the store is finished, keep
the invariant. -/
theorem of_entries (hs : s.Lawful) (hwf : s'.WellFormed) (hext : Extends s s')
    (hroot : s'.root = s.root) (hpending : s'.pending = s.pending)
    (hfinished : s'.finished = s.finished)
    (harrayRoot : s.finished = true → s'.arrayRoot = s.arrayRoot)
    (hentries : ∀ (type : Handle) entry', s'.types[type]? = some entry' →
      (∃ entry, s.types[type]? = some entry ∧ entry'.closed = entry.closed ∧
        entry'.interfaces = entry.interfaces ∧
        (s.finished = true → s'.links type = s.links type)) ∨
      s.size ≤ type ∧ entry'.interfaces = [] ∧ ¬ s'.Interned type) : s'.Lawful := by
  have hinterned : ∀ type, s'.Interned type → s.Interned type := by
    intro type htype
    obtain ⟨form, hform, hshape⟩ := id htype
    obtain ⟨entry', hentry', -⟩ := form_eq_some.mp hform
    rcases hentries type entry' hentry' with ⟨entry, hentry, -⟩ | ⟨-, -, hnot⟩
    · have hold : s.form type = some entry.form := form_of_entry hentry
      obtain rfl : entry.form = form := Option.some.inj ((hext.forms hold).symm.trans hform)
      exact ⟨entry.form, hold, hshape⟩
    · exact absurd htype hnot
  have hlinks : s.finished = true → ∀ type, type < s.size → s'.links type = s.links type := by
    intro hfin type hlt
    obtain ⟨form, hform⟩ := form_isSome hlt
    obtain ⟨entry', hentry', -⟩ := form_eq_some.mp (hext.forms hform)
    rcases hentries type entry' hentry' with ⟨-, -, -, -, hlinks⟩ | ⟨hle, -⟩
    · exact hlinks hfin
    · exact absurd hlt (Nat.not_lt.mpr hle)
  have hquiet : s'.finished = false → ∀ (type : Handle) entry', s'.types[type]? = some entry' →
      entry'.interfaces = [] := by
    intro hfin type entry' hentry'
    rcases hentries type entry' hentry' with ⟨entry, hentry, -, heq, -⟩ | ⟨-, hnone, -⟩
    · exact heq.trans (hs.quiet (hfinished ▸ hfin) type entry hentry)
    · exact hnone
  refine ⟨hwf, fun type htype entry' hentry' => ?_, fun hfin type htype => ?_, fun hfin => ?_,
    hquiet, ?_⟩
  · rw [hpending] at htype
    rcases hentries type entry' hentry' with ⟨entry, hentry, hclosed, -⟩ | ⟨hle, -⟩
    · rw [hclosed]
      exact hs.unclosed type htype entry hentry
    · exact absurd (hs.wellFormed.inRange.pending type htype) (Nat.not_lt.mpr hle)
  · rw [hpending]
    exact hs.unfinished (hfinished ▸ hfin) type (hinterned type htype)
  · rw [hfinished] at hfin
    obtain ⟨hempty, hexp⟩ := hs.finished hfin
    refine ⟨hpending.trans hempty, fun type hlt => ?_⟩
    by_cases hold : type < s.size
    · refine (hexp type hold).mono hext (harrayRoot hfin) hroot hold (hlinks hfin type hold)
        (fun definition params hd => ?_) hs.wellFormed.coherent
      obtain ⟨form, hform, -⟩ := hd
      exact hlinks hfin definition (form_lt hform)
    · obtain ⟨entry', hentry'⟩ := entry_of_lt hlt
      rcases hentries type entry' hentry' with ⟨entry, hentry, -⟩ | ⟨-, -, hnot⟩
      · exact absurd (lt_of_entry hentry) hold
      · exact expanded_of_not_interned hnot
  · cases hfin : s.finished with
    | false => exact inheriting_of_quiet (hquiet (hfinished.trans hfin))
    | true =>
        refine hs.inheriting.mono (fun type links h => ?_) fun type entry' hentry' => ?_
        · obtain ⟨entry, hentry, -⟩ := Option.map_eq_some_iff.mp h
          exact (hlinks hfin type (lt_of_entry hentry)).trans h
        · rcases hentries type entry' hentry' with ⟨entry, hentry, -, heq, -⟩ | ⟨-, hnone, -⟩
          · exact Or.inr ⟨entry, hentry, heq⟩
          · exact Or.inl hnone

theorem appended (hs : s.Lawful) {new : List Entry} {callables : Array Signature}
    (hwf : (s.appended new callables).WellFormed) (hext : Extends s (s.appended new callables))
    (hnew : ∀ entry ∈ new, entry.interfaces = [] ∧
      (∀ definition args, entry.shape ≠ .instantiation definition args) ∧
      ∀ element rank, entry.shape ≠ .array element rank) :
    (s.appended new callables).Lawful := by
  refine hs.of_entries hwf hext rfl rfl rfl (fun _ => rfl) fun type entry' hentry' => ?_
  have hget := hentry'
  rw [appended_getElem?] at hget
  split at hget
  · next hlt =>
      refine Or.inl ⟨entry', hget, rfl, rfl, fun _ => ?_⟩
      rw [links, appended_getElem?, if_pos hlt]
      rfl
  · next hlt =>
      obtain ⟨hnone, hinst, harray⟩ := hnew entry' (List.mem_of_getElem? hget)
      refine Or.inr ⟨Nat.le_of_not_lt hlt, hnone, ?_⟩
      rintro ⟨form, hform, hshape⟩
      obtain rfl : entry'.form = form := Option.some.inj ((form_of_entry hentry').symm.trans hform)
      rcases hshape with ⟨definition, args, hshape⟩ | ⟨element, rank, hshape⟩
      · exact hinst definition args (Entry.form_shape_eq_instantiation.mp hshape)
      · exact harray element rank (Entry.form_shape_eq_array.mp hshape)

theorem modifyEntry (hs : s.Lawful) {type : Handle} {change : Entry → Entry} {u : Unit}
    (hrun : (Store.modifyEntry type change).run s = .ok (u, s')) (hwf : s'.WellFormed)
    (hform : ∀ entry, (change entry).form = entry.form)
    (hclosed : ∀ entry, (change entry).closed = entry.closed ∧
      (change entry).interfaces = entry.interfaces)
    (hlinks : s.finished = true → ∀ entry, (change entry).base = entry.base ∧
      (change entry).directInterfaces = entry.directInterfaces) : s'.Lawful := by
  obtain ⟨-, rfl⟩ := modifyEntry_run hrun
  refine hs.of_entries hwf (sameForms_modify hform).extends rfl rfl rfl (fun _ => rfl)
    fun other entry' hentry' => Or.inl ?_
  rcases modify_getElem? hentry' with ⟨rfl, old, hold, rfl⟩ | ⟨hne, hold⟩
  · refine ⟨old, hold, (hclosed old).1, (hclosed old).2, fun hfin => ?_⟩
    obtain ⟨hbase, hinterfaces⟩ := hlinks hfin old
    simp only [links, hold, hentry', Option.map_some, hbase, hinterfaces]
  · refine ⟨entry', hold, rfl, rfl, fun _ => ?_⟩
    simp only [links, hold, hentry']

theorem of_types (hs : s.Lawful) (hwf : s'.WellFormed) (htypes : s'.types = s.types)
    (hparams : ∀ {id params}, s.typeParams? id = some params → s'.typeParams? id = some params)
    (hroot : s'.root = s.root) (hpending : s'.pending = s.pending)
    (hfinished : s'.finished = s.finished)
    (harrayRoot : s.finished = true → s'.arrayRoot = s.arrayRoot) : s'.Lawful := by
  refine hs.of_entries hwf ⟨fun {type form} h => ?_, hparams⟩ hroot hpending hfinished harrayRoot
    fun type entry' hentry' => Or.inl ⟨entry', htypes ▸ hentry', rfl, rfl, fun _ => ?_⟩
  · rw [Store.form, htypes]
    exact h
  · rw [links, htypes]
    rfl

/-- Interning keeps the invariant of draining. -/
theorem grown_draining (hs : s.Lawful) (hgrown : Grown s s') (hs' : s'.Coherent) :
    s'.Draining := by
  have hold := hs.draining
  refine ⟨hgrown.wellFormed hs.wellFormed hs', fun type htype entry hentry => ?_,
    fun type hlt => ?_⟩
  · rcases hgrown.old_or_fresh hentry with hentry | ⟨-, hfresh, -⟩
    · rcases hgrown.mem_pending htype with htype | ⟨hle, -⟩
      · exact hs.unclosed type htype entry hentry
      · exact absurd (lt_of_entry hentry) (Nat.not_lt.mpr hle)
    · exact hfresh.closed
  · obtain ⟨entry, hentry⟩ := entry_of_lt hlt
    rcases hgrown.old_or_fresh hentry with hentry | ⟨-, -, hpending⟩
    · have hlt' : type < s.size := lt_of_entry hentry
      refine (hold.expanded type hlt').imp (hgrown.pending_subset ·) fun hexp => ?_
      refine hexp.mono hgrown.extends hgrown.arrayRoot hgrown.root hlt' (hgrown.links hlt')
        (fun definition params hd => ?_) hs.wellFormed.coherent
      obtain ⟨form, hform, -⟩ := hd
      exact hgrown.links (form_lt hform)
    · exact Or.inl hpending

/-- Interning a type, and closing it if the store is finished, keeps the invariant and all closed
types. -/
theorem intern (hs : s.Lawful) {mid : Store} {u : Unit} (hgrown : Grown s mid)
    (hmid : mid.Coherent) (hrun : closeIfFinished.run mid = .ok (u, s')) :
    s'.Lawful ∧ Later s s' := by
  have hdraining := hs.grown_draining hgrown hmid
  unfold closeIfFinished at hrun
  obtain ⟨_, _, hget, hrun⟩ := run_bind_eq_ok.mp hrun
  cases hget
  split at hrun
  · next hfin =>
      obtain ⟨hlast, hempty, hlater, last, hexpands, hinheriting⟩ := close_run hdraining hrun
      have hpending := (hs.finished (hgrown.finished ▸ hfin)).1
      exact ⟨of_draining hlast hempty (hlater.finished.trans hfin)
        (hinheriting (hs.inheriting.expanded hpending hgrown hexpands)),
        hgrown.later.trans hlater⟩
  · next hfin =>
      obtain ⟨-, rfl⟩ := run_pure_eq_ok.mp hrun
      have hunfinished : s.finished = false := by simpa [hgrown.finished] using hfin
      have hquiet : ∀ (type : Handle) entry, mid.types[type]? = some entry →
          entry.interfaces = [] := by
        intro type entry hentry
        rcases hgrown.old_or_fresh hentry with hold | ⟨-, hfresh, -⟩
        · exact hs.quiet hunfinished type entry hold
        · exact hfresh.interfaces
      refine ⟨⟨hdraining.wellFormed, hdraining.unclosed, fun _ type htype => ?_,
        fun h => absurd h hfin, fun _ => hquiet, inheriting_of_quiet hquiet⟩, hgrown.later⟩
      obtain ⟨form, hform, hshape⟩ := id htype
      obtain ⟨entry, hentry, rfl⟩ := form_eq_some.mp hform
      rcases hgrown.old_or_fresh hentry with hold | ⟨-, -, hpending⟩
      · exact hgrown.pending_subset (hs.unfinished hunfinished type
          ⟨_, form_of_entry hold, hshape⟩)
      · exact hpending

theorem instantiate (hs : s.Lawful) {definition type : Handle} {args : List Handle}
    (hrun : (Store.instantiate definition args).run s = .ok (type, s')) :
    s'.Lawful ∧ Later s s' := by
  obtain ⟨mid, hintern, hclose⟩ := run_instantiate_eq_ok hrun
  obtain ⟨hcoherent, hgrown, -⟩ := internInstance_run hs.wellFormed.coherent hintern
  exact hs.intern hgrown hcoherent hclose

theorem arrayOf (hs : s.Lawful) {element type : Handle} {rank : Nat}
    (hrun : (Store.arrayOf element rank).run s = .ok (type, s')) : s'.Lawful ∧ Later s s' := by
  obtain ⟨mid, hintern, hclose⟩ := run_arrayOf_eq_ok hrun
  obtain ⟨hcoherent, hgrown, -⟩ := internArray_run hs.wellFormed.coherent hintern
  exact hs.intern hgrown hcoherent hclose

theorem withDefaultBases (hs : s.Lawful) (hunfinished : s.finished = false) :
    s.withDefaultBases.Lawful := by
  refine hs.of_entries hs.wellFormed.withDefaultBases
    ⟨fun {type form} h => (form_withDefaultBases type).trans h, fun h => h⟩ rfl rfl rfl (fun _ => rfl)
    fun type entry' hentry' => Or.inl ?_
  obtain ⟨old, hold, rfl⟩ := entry_withDefaultBases hentry'
  exact ⟨old, hold, rfl, rfl, by simp [hunfinished]⟩

theorem finish (hs : s.Lawful) (hunfinished : s.finished = false) {u : Unit}
    (hrun : Store.finish.run s = .ok (u, s')) : s'.Lawful := by
  have hbases := hs.withDefaultBases hunfinished
  obtain ⟨mid, last, hclose, hall, rfl⟩ := finish_run hrun
  obtain ⟨hmid, hempty, -, drained, hexpands, hinheriting⟩ := close_run hbases.draining hclose
  have hdrained : drained.Inheriting := inheriting_of_quiet fun type entry hentry => by
    rcases hexpands.interfaces hentry with hnone | ⟨old, hold, heq⟩
    · exact hnone
    · exact heq.trans (hbases.quiet hunfinished type old hold)
  obtain ⟨hwf, hclosing, hinheriting'⟩ := closeAll_run hmid.wellFormed hall
  have hsame : SameForms last { last with finished := true } :=
    ⟨fun _ => rfl, rfl, rfl, fun _ => rfl, rfl⟩
  have hwf' : { last with finished := true : Store }.WellFormed :=
    hwf.of_sameForms hsame (fun _ _ h => hwf.inRange.links h)
      (fun _ _ h => hwf.inRange.signatures h) hwf.inRange.pending hwf.inRange.valueTypeRoot
      hwf.inRange.arrayRoot
  have hempty' : last.pending = [] := hclosing.pending.trans hempty
  have hlast : { last with finished := true : Store }.Inheriting :=
    (hinheriting' (hinheriting hdrained)).mono (fun _ _ h => h)
      fun _ entry hentry => Or.inr ⟨entry, hentry, rfl⟩
  refine of_draining ⟨hwf', ?_, fun type hlt => Or.inr ?_⟩ hempty' rfl hlast
  · simp [hempty']
  · have hlt' : type < mid.size := hclosing.size ▸ hlt
    have hexp := (hmid.expanded type hlt').resolve_left (by simp [hempty])
    exact (hclosing.expanded hmid.wellFormed.coherent hlt' hexp).mono hsame.extends rfl rfl hlt rfl
      (fun _ _ _ => rfl) hwf.coherent

theorem ofRoot (name : String) : (Store.ofRoot name).Lawful := by
  have hform : ∀ {type form}, (Store.ofRoot name).form type = some form →
      type = 0 ∧ form.shape = .named ∧ form.isOpen = false ∧ form.nesting = 0 := by
    intro type form h
    obtain ⟨entry, he, rfl⟩ := form_eq_some.mp h
    obtain ⟨rfl, rfl⟩ := entry_ofRoot he
    exact ⟨rfl, rfl, rfl, rfl⟩
  refine ⟨⟨⟨?_, ?_, ?_, by simp [Store.ofRoot], rfl, _, rfl, rfl⟩, ?_, by simp [Store.ofRoot],
    by simp [Store.ofRoot], by simp [Store.ofRoot], by simp [Store.ofRoot]⟩,
    by simp [Store.ofRoot], fun _ type htype => ?_, by simp [Store.ofRoot], fun _ type entry h => ?_,
    inheriting_of_quiet fun type entry h => ?_⟩
  · intro type form h
    obtain ⟨rfl, hshape, hopen, hnesting⟩ := hform h
    rw [FormCoherent, hshape]
    exact ⟨hopen, hnesting⟩
  · intro definition args type
    simp only [Store.ofRoot, List.lookup_nil, reduceCtorEq, false_iff]
    rintro ⟨form, h, hshape⟩
    rw [(hform h).2.1] at hshape
    cases hshape
  · intro element rank type
    simp only [Store.ofRoot, List.lookup_nil, reduceCtorEq, false_iff]
    rintro ⟨form, h, hshape⟩
    rw [(hform h).2.1] at hshape
    cases hshape
  · intro type entry h
    obtain ⟨rfl, rfl⟩ := entry_ofRoot h
    exact linksInRange_of_none rfl rfl rfl
  · obtain ⟨form, h, hshape⟩ := htype
    rw [(hform h).2.1] at hshape
    rcases hshape with ⟨_, _, hshape⟩ | ⟨_, _, hshape⟩ <;> cases hshape
  · rw [(entry_ofRoot h).2]
  · rw [(entry_ofRoot h).2]

theorem push_named (hs : s.Lawful) {entry : Entry} (hshape : entry.shape = .named)
    (hopen : entry.isOpen = false) (hnesting : entry.nesting = 0) (hbase : entry.base = none)
    (hdirect : entry.directInterfaces = []) (hall : entry.interfaces = []) :
    (s.appended [entry] s.callables).Lawful := by
  refine hs.appended (hs.wellFormed.push_named hshape hopen hnesting hbase hdirect hall)
    ⟨form_appended, fun h => h⟩ fun e he => ?_
  rw [List.mem_singleton.mp he, hshape]
  simp [hall]

theorem declareGeneric (hs : s.Lawful) {kind : TypeKind} {name : String}
    {params : List (String × Variance)} {definition : Handle}
    (hrun : (Store.declareGeneric kind name params).run s = .ok (definition, s')) : s'.Lawful := by
  have hwf := hs.wellFormed.declareGeneric hrun
  obtain rfl := declareGeneric_run hrun
  refine hs.appended hwf ⟨form_appended, fun h => h⟩ fun e he => ?_
  rcases List.mem_cons.mp he with rfl | he
  · simp
  · obtain ⟨_, -, rfl⟩ := List.mem_map.mp he
    simp [paramEntry]

theorem declareCallable (hs : s.Lawful) {name : String} {typeParams : List String} {id : CallableId}
    (hrun : (Store.declareCallable name typeParams).run s = .ok (id, s')) : s'.Lawful := by
  have hwf := hs.wellFormed.declareCallable hrun
  obtain rfl := declareCallable_run hrun
  refine hs.appended hwf ⟨form_appended, fun {id params} h => ?_⟩ fun e he => ?_
  · obtain ⟨signature, hsig, rfl⟩ := Option.map_eq_some_iff.mp h
    have hlt : id < s.callables.size := (Array.getElem?_eq_some_iff.mp hsig).choose
    rw [typeParams?, Store.appended, Array.getElem?_push, if_neg (Nat.ne_of_lt hlt), hsig]
    rfl
  · obtain ⟨_, -, rfl⟩ := List.mem_map.mp he
    simp [paramEntry]

/-- Changing a signature outside its identity changes no type. -/
theorem modifySignature (hs : s.Lawful) {id : CallableId} {change : Signature → Signature}
    {u : Unit} (hrun : (Store.modifySignature id change).run s = .ok (u, s'))
    (hwf : s'.WellFormed) (hparams : ∀ g, (change g).typeParams = g.typeParams) : s'.Lawful := by
  cases hrun
  refine hs.of_types hwf rfl (fun {other params} h => ?_) rfl rfl rfl fun _ => rfl
  rw [typeParams?, Array.getElem?_modify]
  split
  · next heq =>
      subst heq
      simpa [Function.comp_def, hparams, typeParams?] using h
  · exact h

theorem step (hs : s.Lawful) {op : Operation} (hallowed : op.Allowed s)
    (hrun : op.run.run s = .ok ((), s')) : s'.Lawful := by
  obtain ⟨hhandles, htime⟩ := hallowed
  -- The result of an operation that returns a handle is thrown away.
  cases op with
  | declare kind name =>
      obtain ⟨_, hrun⟩ := run_discard_eq_ok hrun
      cases (push_run _).symm.trans hrun
      exact hs.push_named rfl rfl rfl rfl rfl rfl
  | declareGeneric kind name params =>
      obtain ⟨_, hrun⟩ := run_discard_eq_ok hrun
      exact hs.declareGeneric hrun
  | declarePrimitive name kind =>
      obtain ⟨_, hrun⟩ := run_discard_eq_ok hrun
      cases (push_run _).symm.trans hrun
      exact hs.push_named rfl rfl rfl rfl rfl rfl
  | declareEnum name underlying =>
      obtain ⟨_, hrun⟩ := run_discard_eq_ok hrun
      cases (push_run _).symm.trans hrun
      exact hs.push_named rfl rfl rfl rfl rfl rfl
  | declarePointer name =>
      obtain ⟨_, hrun⟩ := run_discard_eq_ok hrun
      cases (push_run _).symm.trans hrun
      exact hs.push_named rfl rfl rfl rfl rfl rfl
  | setBase type base =>
      have hbase : base < s.size := hhandles base (by simp [Operation.handles])
      refine hs.modifyEntry hrun (hs.wellFormed.setBase hbase hrun) (fun _ => rfl)
        (fun _ => ⟨rfl, rfl⟩) fun hfin => ?_
      rw [htime rfl] at hfin
      cases hfin
  | addInterface type interface =>
      have hinterface : interface < s.size := hhandles interface (by simp [Operation.handles])
      refine hs.modifyEntry hrun (hs.wellFormed.addInterface hinterface hrun) (fun _ => rfl)
        (fun _ => ⟨rfl, rfl⟩) fun hfin => ?_
      rw [htime rfl] at hfin
      cases hfin
  | addFlags type flags =>
      exact hs.modifyEntry hrun (hs.wellFormed.addFlags hrun) (fun _ => rfl)
        (fun _ => ⟨rfl, rfl⟩) fun _ _ => ⟨rfl, rfl⟩
  | removeFlags type flags =>
      exact hs.modifyEntry hrun (hs.wellFormed.removeFlags hrun) (fun _ => rfl)
        (fun _ => ⟨rfl, rfl⟩) fun _ _ => ⟨rfl, rfl⟩
  | setValueTypeRoot type =>
      cases hrun
      refine hs.of_types (hs.wellFormed.setRoles ?_ hs.wellFormed.inRange.arrayRoot) rfl
        (fun h => h) rfl rfl rfl fun _ => rfl
      rintro _ ⟨rfl⟩
      exact hhandles type (by simp [Operation.handles])
  | setArrayRoot type =>
      cases hrun
      refine hs.of_types (hs.wellFormed.setRoles hs.wellFormed.inRange.valueTypeRoot ?_) rfl
        (fun h => h) rfl rfl rfl fun hfin => ?_
      · rintro _ ⟨rfl⟩
        exact hhandles type (by simp [Operation.handles])
      · rw [htime rfl] at hfin
        cases hfin
  | setOptionalWrapper definition =>
      cases hrun
      exact hs.of_types (hs.wellFormed.setRoles hs.wellFormed.inRange.valueTypeRoot
        hs.wellFormed.inRange.arrayRoot) rfl (fun h => h) rfl rfl rfl fun _ => rfl
  | addSequenceInterface definition =>
      cases hrun
      exact hs.of_types (hs.wellFormed.setRoles hs.wellFormed.inRange.valueTypeRoot
        hs.wellFormed.inRange.arrayRoot) rfl (fun h => h) rfl rfl rfl fun _ => rfl
  | finish => exact hs.finish (htime rfl) hrun
  | instantiate definition args =>
      obtain ⟨_, hrun⟩ := run_discard_eq_ok hrun
      exact (hs.instantiate hrun).1
  | arrayOf element rank =>
      obtain ⟨_, hrun⟩ := run_discard_eq_ok hrun
      exact (hs.arrayOf hrun).1
  | declareCallable name typeParams =>
      obtain ⟨_, hrun⟩ := run_discard_eq_ok hrun
      exact hs.declareCallable hrun
  | addParameter id type mode =>
      have htype : type < s.size := hhandles type (by simp [Operation.handles])
      exact hs.modifySignature hrun (hs.wellFormed.addParameter htype hrun) fun _ => rfl
  | setReturnType id type =>
      have htype : type < s.size := hhandles type (by simp [Operation.handles])
      exact hs.modifySignature hrun (hs.wellFormed.setReturnType htype hrun) fun _ => rfl
  | setDeclaringType id type =>
      have htype : type < s.size := hhandles type (by simp [Operation.handles])
      exact hs.modifySignature hrun (hs.wellFormed.setDeclaringType htype hrun) fun _ => rfl
  | addConstraint param constraint =>
      refine hs.modifyEntry hrun (hs.wellFormed.addConstraint hrun) (fun entry => ?_)
        (fun entry => ?_) fun _ entry => ?_
      · split
        · next info hshape => simp [Entry.form, hshape, Shape.bare]
        · rfl
      · split <;> exact ⟨rfl, rfl⟩
      · split <;> exact ⟨rfl, rfl⟩

end Lawful

theorem Reachable.lawful {s : Store} (hs : s.Reachable) : s.Lawful := by
  induction hs with
  | ofRoot name => exact Lawful.ofRoot name
  | step _ hallowed hrun ih => exact ih.step hallowed hrun

namespace Lawful

variable {s s' : Store}

/-- An operation that interns a type adds some types and closes what is pending. -/
theorem interning (hs : s.Lawful) {op : Operation} (hop : op.interns = true)
    (hrun : op.run.run s = .ok ((), s')) :
    ∃ mid, Grown s mid ∧ mid.Coherent ∧ closeIfFinished.run mid = .ok ((), s') := by
  cases op with
  | instantiate definition args =>
      obtain ⟨_, hrun⟩ := run_discard_eq_ok hrun
      obtain ⟨mid, hintern, hclose⟩ := run_instantiate_eq_ok hrun
      obtain ⟨hcoherent, hgrown, -⟩ := internInstance_run hs.wellFormed.coherent hintern
      exact ⟨mid, hgrown, hcoherent, hclose⟩
  | arrayOf element rank =>
      obtain ⟨_, hrun⟩ := run_discard_eq_ok hrun
      obtain ⟨mid, hintern, hclose⟩ := run_arrayOf_eq_ok hrun
      obtain ⟨hcoherent, hgrown, -⟩ := internArray_run hs.wellFormed.coherent hintern
      exact ⟨mid, hgrown, hcoherent, hclose⟩
  | _ => cases hop

/-- An operation that interns a type keeps the invariant and all closed types. -/
theorem later_of_interns (hs : s.Lawful) {op : Operation} (hop : op.interns = true)
    (hrun : op.run.run s = .ok ((), s')) : s'.Lawful ∧ Later s s' := by
  obtain ⟨mid, hgrown, hmid, hclose⟩ := hs.interning hop hrun
  exact hs.intern hgrown hmid hclose

theorem later_of_runAll (hs : s.Lawful) {ops : List Operation}
    (hops : ∀ op ∈ ops, op.interns = true) (hrun : Operation.runAll ops s = some s') :
    s'.Lawful ∧ Later s s' := by
  induction ops generalizing s with
  | nil =>
      cases hrun
      exact ⟨hs, Later.refl _⟩
  | cons op rest ih =>
      unfold Operation.runAll at hrun
      split at hrun
      · split at hrun
        · next next hnext =>
            obtain ⟨hs₁, hlater₁⟩ := hs.later_of_interns (hops op List.mem_cons_self) hnext
            obtain ⟨hs₂, hlater₂⟩ := ih hs₁ (fun op h => hops op (List.mem_cons_of_mem _ h)) hrun
            exact ⟨hs₂, hlater₁.trans hlater₂⟩
        · cases hrun
      · cases hrun

end Lawful

end Store

end NominalGenerics
