import NominalGenerics.Proofs.ConstraintTermination
import NominalGenerics.Proofs.Fixing
import NominalGenerics.Proofs.Store.Roles

/-!
# Progress of inference

An inference call on types of a well-formed store comes to an outcome: it collects bounds, fixes the
type parameters and feeds the constraints back without a fault, whatever its options. Only the
constraint check at its end may lack fuel.

The steps are followed with one invariant, `Tracks`: what was recorded stays recorded, and witnesses
and fixed types are types of the store. When fixing succeeds, directly or after some passes of the
bootstrap, every parameter has a type that meets its bounds.
-/

namespace NominalGenerics

namespace Query

/-- The answer of a query that does not fault, and `false` otherwise. -/
def holds (x : Query Bool) : Bool :=
  match x with
  | .ok answer => answer
  | .error _ => false

theorem eq_ok_holds {x : Query Bool} (h : ∃ answer, x = .ok answer) : x = .ok x.holds := by
  obtain ⟨answer, rfl⟩ := h
  rfl

theorem allM_of_total {α : Type} {test : α → Query Bool} {p : α → Bool} {as : List α}
    (h : ∀ a ∈ as, test a = .ok (p a)) : as.allM test = .ok (as.all p) := by
  induction as with
  | nil => rfl
  | cons a as ih =>
      have hrest := ih fun b hb => h b (List.mem_cons_of_mem a hb)
      rw [List.allM, h a List.mem_cons_self, ok_bind, List.all_cons]
      cases p a with
      | true => simpa using hrest
      | false => rfl

theorem bind_total {α β : Type} {x : Query α} {f : α → Query β} (hx : ∃ a, x = .ok a)
    (hf : ∀ a, ∃ b, f a = .ok b) : ∃ b, (x >>= f) = .ok b := by
  obtain ⟨a, rfl⟩ := hx
  exact hf a

theorem mapM_total {α β : Type} {f : α → Query β} {as : List α}
    (h : ∀ a ∈ as, ∃ b, f a = .ok b) : ∃ bs, as.mapM f = .ok bs := by
  induction as with
  | nil => exact ⟨[], rfl⟩
  | cons a as ih =>
      rw [List.mapM_cons]
      refine bind_total (h a List.mem_cons_self) fun b => ?_
      exact bind_total (ih fun c hc => h c (List.mem_cons_of_mem a hc)) fun bs => ⟨b :: bs, rfl⟩

end Query

namespace BoundSet

/-- The type that fixing picks where assignability is known. -/
def pick (below : Handle → Handle → Bool) (bounds : BoundSet) : Option Handle :=
  match bounds.exact with
  | [exact] =>
      if bounds.upper.all (below exact) && bounds.lower.all (below · exact) then some exact
      else none
  | _ :: _ :: _ => none
  | [] =>
      match bounds.upper.find? fun upper => bounds.upper.all (below upper) with
      | some upper => if bounds.lower.all (below · upper) then some upper else none
      | none =>
          match bounds.lower.find? fun lower => bounds.lower.all (below · lower) with
          | some lower => if bounds.upper.all (below lower) then some lower else none
          | none => none

/-- Fixing faults only if assignability of witnesses does. -/
theorem fix?_eq_pick {assignable : Handle → Handle → Query Bool} {below : Handle → Handle → Bool}
    {bounds : BoundSet} (h : ∀ flow flow' a b, a ∈ bounds.side flow → b ∈ bounds.side flow' →
      assignable a b = .ok (below a b)) : bounds.fix? assignable = .ok (bounds.pick below) := by
  have habove : ∀ flow a, a ∈ bounds.side flow →
      bounds.upper.allAbove assignable a = .ok (bounds.upper.all (below a)) := by
    intro flow a ha
    exact Query.allM_of_total fun b hb => h flow .contravariant a b ha hb
  have hbelow : ∀ flow a, a ∈ bounds.side flow →
      bounds.lower.allBelow assignable a = .ok (bounds.lower.all (below · a)) := by
    intro flow a ha
    exact Query.allM_of_total fun b hb => h .covariant flow b a hb ha
  have hupper : Query.first? (bounds.upper.allAbove assignable) bounds.upper =
      .ok (bounds.upper.find? fun upper => bounds.upper.all (below upper)) :=
    Query.first?_of_total (habove .contravariant)
  have hlower : Query.first? (bounds.lower.allBelow assignable) bounds.lower =
      .ok (bounds.lower.find? fun lower => bounds.lower.all (below · lower)) :=
    Query.first?_of_total (hbelow .covariant)
  unfold fix? pick
  rcases hexact : bounds.exact with - | ⟨exact, - | ⟨other, rest⟩⟩
  · rw [hupper, Query.ok_bind]
    cases hfound : bounds.upper.find? fun upper => bounds.upper.all (below upper) with
    | some upper =>
        dsimp only
        rw [hbelow .contravariant upper (List.mem_of_find?_eq_some hfound)]
        cases bounds.lower.all (below · upper) <;> rfl
    | none =>
        dsimp only
        rw [hlower, Query.ok_bind]
        cases hfound : bounds.lower.find? fun lower => bounds.lower.all (below · lower) with
        | some lower =>
            dsimp only
            rw [habove .covariant lower (List.mem_of_find?_eq_some hfound)]
            cases bounds.upper.all (below lower) <;> rfl
        | none => rfl
  · have hmem : exact ∈ bounds.side .invariant := by simp [side, hexact]
    dsimp only
    rw [habove .invariant exact hmem, Query.ok_bind, hbelow .invariant exact hmem]
    cases bounds.upper.all (below exact) <;> cases bounds.lower.all (below · exact) <;> rfl
  · rfl

end BoundSet

namespace Inference

open Collection (enclosingArgument enclosingArgument_total collect_matches)

section Outcomes

variable {α β : Type} {I : InferredBounds → Prop} {inferred : InferredBounds}
  {first : InferM α} {Q : α → InferredBounds → Prop}

/-- The steps come to an outcome without a fault. The invariant holds after them, and `Q` if they
succeed. -/
def Concludes (I : InferredBounds → Prop) (steps : InferM α) (inferred : InferredBounds)
    (Q : α → InferredBounds → Prop) : Prop :=
  ∃ outcome inferred', run steps inferred = .ok (outcome, inferred') ∧ I inferred' ∧
    ∀ a, outcome = .ok a → Q a inferred'

theorem Concludes.pure {a : α} (hI : I inferred) (hQ : Q a inferred) :
    Concludes I (pure a) inferred Q :=
  ⟨.ok a, inferred, rfl, hI, by rintro _ ⟨⟩; exact hQ⟩

theorem Concludes.throw (failure : InferenceFailure) (hI : I inferred) :
    Concludes I (throw failure : InferM α) inferred Q :=
  ⟨.error failure, inferred, rfl, hI, by rintro _ ⟨⟩⟩

theorem Concludes.bind {next : α → InferM β} {R : β → InferredBounds → Prop}
    (h : Concludes I first inferred Q)
    (hnext : ∀ a inferred', I inferred' → Q a inferred' → Concludes I (next a) inferred' R) :
    Concludes I (first >>= next) inferred R := by
  obtain ⟨outcome, inferred', hrun, hI, hQ⟩ := h
  cases outcome with
  | error failure =>
      refine ⟨.error failure, inferred', ?_, hI, by rintro _ ⟨⟩⟩
      rw [run_bind, hrun]
      rfl
  | ok a =>
      obtain ⟨outcome', inferred'', hrun', hI', hR⟩ := hnext a inferred' hI (hQ a rfl)
      refine ⟨outcome', inferred'', ?_, hI', hR⟩
      rw [run_bind, hrun]
      exact hrun'

theorem Concludes.read {x : Query α} {a : α} {next : α → InferM β}
    {R : β → InferredBounds → Prop} (hx : x = .ok a) (h : Concludes I (next a) inferred R) :
    Concludes I (liftM x >>= next) inferred R := by
  subst hx
  exact h

theorem Concludes.get {next : InferredBounds → InferM β} {R : β → InferredBounds → Prop}
    (h : Concludes I (next inferred) inferred R) : Concludes I (get >>= next) inferred R := h

theorem Concludes.imp {R : α → InferredBounds → Prop} (h : Concludes I first inferred Q)
    (hQ : ∀ a inferred', Q a inferred' → R a inferred') : Concludes I first inferred R := by
  obtain ⟨outcome, inferred', hrun, hI, hafter⟩ := h
  exact ⟨outcome, inferred', hrun, hI, fun a ha => hQ a inferred' (hafter a ha)⟩

/-- A loop whose steps conclude and keep the invariant does so. -/
theorem Concludes.forM {f : α → InferM Unit} {as : List α}
    (hf : ∀ a ∈ as, ∀ inferred, I inferred → Concludes I (f a) inferred fun _ _ => True)
    (hI : I inferred) : Concludes I (as.forM f) inferred fun _ _ => True := by
  induction as generalizing inferred with
  | nil => exact .pure hI trivial
  | cons a as ih =>
      refine (hf a List.mem_cons_self inferred hI).bind fun _ inferred' hI' _ => ?_
      exact ih (fun b hb => hf b (List.mem_cons_of_mem a hb)) hI'

/-- What holds after steps that conclude holds after each run of them. -/
theorem Concludes.of_run (h : Concludes I first inferred Q) {a : α} {inferred' : InferredBounds}
    (hrun : run first inferred = .ok (.ok a, inferred')) : I inferred' ∧ Q a inferred' := by
  obtain ⟨_, _, hrun', hI, hQ⟩ := h
  cases hrun.symm.trans hrun'
  exact ⟨hI, hQ a rfl⟩

end Outcomes

variable {store : Store} {signature : Signature} {inferred : InferredBounds}
  {base : List BoundSet}

/-- The state of a call whose bounds have grown from `base`: there is a bound set and a place for a
type for each type parameter, and witnesses and fixed types are types of the store. -/
structure Tracks (store : Store) (signature : Signature) (base : List BoundSet)
    (inferred : InferredBounds) : Prop where
  typeParams : inferred.typeParams = signature.typeParams
  width : inferred.bounds.length = signature.typeParams.length
  places : inferred.fixed.length = signature.typeParams.length
  grown : BoundsGrow store.size base inferred.bounds
  witnesses : ∀ {position type flow}, Recorded inferred.bounds position type flow →
    type < store.size
  fixed : ∀ type, some type ∈ inferred.fixed → type < store.size

/-- A call starts without bounds. -/
theorem tracks_ofTypeParams (store : Store) (signature : Signature) :
    Tracks store signature (InferredBounds.ofTypeParams signature.typeParams).bounds
      (.ofTypeParams signature.typeParams) where
  typeParams := rfl
  width := by simp [InferredBounds.ofTypeParams]
  places := by simp [InferredBounds.ofTypeParams]
  grown := BoundsGrow.refl _ _
  witnesses := by
    rintro position type flow ⟨set, hset, hmem⟩
    obtain ⟨_, -, rfl⟩ := List.mem_map.mp (List.mem_of_getElem? hset)
    cases flow <;> cases hmem
  fixed := by simp [InferredBounds.ofTypeParams]

namespace Tracks

/-- What was recorded so far can be taken as the base. -/
theorem rebase (h : Tracks store signature base inferred) :
    Tracks store signature inferred.bounds inferred :=
  { h with grown := BoundsGrow.refl _ _ }

theorem recordMore (h : Tracks store signature base inferred) {bounds : List BoundSet}
    (hgrow : BoundsGrow store.size inferred.bounds bounds) :
    Tracks store signature base { inferred with bounds } where
  typeParams := h.typeParams
  width := hgrow.length.trans h.width
  places := h.places
  grown := h.grown.trans hgrow
  witnesses hrecorded := (hgrow.fresh hrecorded).elim h.witnesses id
  fixed := h.fixed

theorem fix (h : Tracks store signature base inferred) (position : Nat) {type? : Option Handle}
    (htype : ∀ type, type? = some type → type < store.size) :
    Tracks store signature base
      { inferred with fixed := inferred.fixed.set position type? } where
  typeParams := h.typeParams
  width := h.width
  places := by simpa using h.places
  grown := h.grown
  witnesses := h.witnesses
  fixed type hmem := by
    rcases List.mem_or_eq_of_mem_set hmem with hmem | heq
    · exact h.fixed type hmem
    · exact htype type heq.symm

end Tracks

section Checks

variable {source target : Handle}

theorem isAssignable_holds (hs : store.WellFormed) (hsource : source < store.size)
    (htarget : target < store.size) :
    store.isAssignable source target = .ok (store.isAssignable source target).holds := by
  obtain ⟨answer, hanswer, -⟩ := Assignability.isAssignable_decides hs hsource htarget
  exact Query.eq_ok_holds ⟨answer, hanswer⟩

theorem valueKind?_total (hroles : store.RolesInRange) (hsource : source < store.size) :
    ∃ kind, store.valueKind? source = .ok kind := by
  obtain ⟨entry, hentry⟩ := Store.entry_of_lt hsource
  have hvalue : entry.underlying.getD source < store.size := by
    cases hunderlying : entry.underlying with
    | none => exact hsource
    | some integral => exact hroles.underlying hentry integral hunderlying
  obtain ⟨value, hvalue⟩ := Store.entry_of_lt hvalue
  refine ⟨value.primitive, ?_⟩
  rw [Store.valueKind?, Store.underlying?, Store.query_of_entry hentry (·.underlying),
    Query.ok_bind]
  exact Store.query_of_entry hvalue (·.primitive)

theorem compatible_total (hs : store.Reachable) (hsource : source < store.size)
    (htarget : target < store.size) :
    ∃ answer, compatible store source target = .ok answer := by
  obtain ⟨assignable, hassignable, -⟩ :=
    Assignability.isAssignable_decides hs.lawful.wellFormed hsource htarget
  obtain ⟨entry, hentry⟩ := Store.entry_of_lt hsource
  obtain ⟨entry', hentry'⟩ := Store.entry_of_lt htarget
  obtain ⟨kind, hkind⟩ := valueKind?_total hs.rolesInRange hsource
  obtain ⟨kind', hkind'⟩ := valueKind?_total hs.rolesInRange htarget
  rw [compatible, hassignable, Query.ok_bind]
  split
  · exact ⟨true, rfl⟩
  · rw [Store.isSpecialCastSource, Store.entry_eq_ok.mpr hentry, Query.ok_bind]
    simp only [pure, Except.pure, bind, Except.bind]
    split
    · simp only [Store.canSpecialCast, Store.flags, Store.query_of_entry hentry (·.flags),
        Store.query_of_entry hentry' (·.flags), hkind, hkind', Query.ok_bind]
      split
      · exact ⟨true, rfl⟩
      · split
        · exact ⟨_, rfl⟩
        · split <;> exact ⟨_, rfl⟩
    · exact ⟨false, rfl⟩

end Checks

section Collecting

variable {source target arg expected returns : Handle} {param : Parameter} {index : Nat}

theorem collect_concludes (hs : store.Reachable) (hsignature : store.SignatureInRange signature)
    (hsource : source < store.size) (htarget : target < store.size) (flow : Flow)
    (hI : Tracks store signature base inferred) :
    Concludes (Tracks store signature base) (collect store signature source target flow) inferred
      fun _ _ => True := by
  obtain ⟨matched, bounds, hcollect, hgrow, -⟩ := collect_matches hs.lawful.wellFormed hsignature
    ⟨source, target, flow⟩ inferred.bounds hsource htarget
  exact ⟨.ok matched, { inferred with bounds }, run_collect (c := ⟨source, target, flow⟩) hcollect,
    hI.recordMore hgrow, fun _ _ => trivial⟩

/-- Matching a template, with a failure to throw if it does not match. -/
theorem match_concludes (hs : store.Reachable) (hsignature : store.SignatureInRange signature)
    (hsource : source < store.size) (htarget : target < store.size) (flow : Flow)
    (failure : InferenceFailure) (hI : Tracks store signature base inferred) :
    Concludes (Tracks store signature base)
      (do if ← collect store signature source target flow then return else throw failure)
      inferred fun _ _ => True := by
  refine (collect_concludes hs hsignature hsource htarget flow hI).bind
    fun matched inferred' hI' _ => ?_
  cases matched with
  | true => exact .pure hI' trivial
  | false => exact .throw failure hI'

theorem checkParameter_concludes (hs : store.Reachable)
    (hsignature : store.SignatureInRange signature) (hparam : param.type < store.size)
    (harg : arg < store.size) (hI : Tracks store signature base inferred) :
    Concludes (Tracks store signature base) (checkParameter store signature param arg index)
      inferred fun _ _ => True := by
  obtain ⟨template, htemplate, hlt⟩ :=
    enclosingArgument_total hs.lawful.wellFormed hsignature hparam
  obtain ⟨form, hform⟩ := Store.form_isSome hlt
  obtain ⟨accepted, haccepted⟩ := compatible_total hs harg hlt
  refine .read htemplate (.read (Store.isOpen_of_form hform) ?_)
  split
  · exact .pure hI trivial
  · refine .read haccepted ?_
    split
    · exact .pure hI trivial
    · exact .throw _ hI

theorem checkReturn_concludes (hs : store.Reachable)
    (hsignature : store.SignatureInRange signature) (hexpected : expected < store.size)
    (hI : Tracks store signature base inferred) :
    Concludes (Tracks store signature base) (checkReturn store signature expected) inferred
      fun _ _ => True := by
  unfold checkReturn
  cases hreturns : signature.returns with
  | none => exact .throw _ hI
  | some returns =>
      obtain ⟨template, htemplate, hlt⟩ := enclosingArgument_total hs.lawful.wellFormed hsignature
        (hsignature.returns returns hreturns)
      obtain ⟨form, hform⟩ := Store.form_isSome hlt
      obtain ⟨accepted, haccepted⟩ := compatible_total hs hlt hexpected
      refine .read htemplate (.read (Store.isOpen_of_form hform) ?_)
      split
      · exact .pure hI trivial
      · refine .read haccepted ?_
        split
        · exact .pure hI trivial
        · exact .throw _ hI

theorem collectParameter_concludes (hs : store.Reachable)
    (hsignature : store.SignatureInRange signature) (hparam : param.type < store.size)
    (harg : arg < store.size) (hI : Tracks store signature base inferred) :
    Concludes (Tracks store signature base) (collectParameter store signature param arg index)
      inferred fun _ _ => True := by
  have hwf := hs.lawful.wellFormed
  obtain ⟨template, htemplate, hlt⟩ := enclosingArgument_total hwf hsignature hparam
  obtain ⟨form, hform⟩ := Store.form_isSome hlt
  obtain ⟨inner?, hunwrap, hinner⟩ := unwrap?_total hwf hlt harg
  refine .read htemplate (.read (Store.isOpen_of_form hform) ?_)
  split
  · refine .read hunwrap ?_
    cases inner? with
    | none => exact match_concludes hs hsignature harg hlt _ _ hI
    | some inner => exact match_concludes hs hsignature harg (hinner inner rfl).1 _ _ hI
  · exact .pure hI trivial

theorem collectReturn_concludes (hs : store.Reachable)
    (hsignature : store.SignatureInRange signature) (hexpected : expected < store.size)
    (hreturns : returns < store.size) (hI : Tracks store signature base inferred) :
    Concludes (Tracks store signature base) (collectReturn store signature expected returns)
      inferred fun _ _ => True := by
  obtain ⟨inner?, hunwrap, hinner⟩ := unwrap?_total hs.lawful.wellFormed hexpected hreturns
  refine .read hunwrap ?_
  cases inner? with
  | none => exact match_concludes hs hsignature hexpected hreturns _ _ hI
  | some inner => exact match_concludes hs hsignature (hinner inner rfl).1 hreturns _ _ hI

/-- With an argument for each parameter, bounds are collected without a fault. -/
theorem collectBounds_concludes (hs : store.Reachable)
    (hsignature : store.SignatureInRange signature) {args : List Handle}
    (hargs : ∀ arg ∈ args, arg < store.size) (hlength : signature.params.length ≤ args.length)
    (hI : Tracks store signature base inferred) :
    Concludes (Tracks store signature base) (collectBounds store signature args) inferred
      fun _ _ => True := by
  have hposition : ∀ p ∈ (signature.params.zip args).zipIdx,
      p.1.1.type < store.size ∧ p.1.2 < store.size := by
    intro p hp
    obtain ⟨hparam, harg⟩ := List.of_mem_zip (List.fst_mem_of_mem_zipIdx hp)
    exact ⟨hsignature.params _ hparam, hargs _ harg⟩
  have hchecks : ∀ inferred, Tracks store signature base inferred →
      Concludes (Tracks store signature base) ((signature.params.zip args).zipIdx.forM fun p =>
        checkParameter store signature p.1.1 p.1.2 p.2) inferred fun _ _ => True := fun _ =>
    .forM fun p hp _ =>
      checkParameter_concludes hs hsignature (hposition p hp).1 (hposition p hp).2
  have hcollects : ∀ inferred, Tracks store signature base inferred →
      Concludes (Tracks store signature base) ((signature.params.zip args).zipIdx.forM fun p =>
        collectParameter store signature p.1.1 p.1.2 p.2) inferred fun _ _ => True := fun _ =>
    .forM fun p hp _ =>
      collectParameter_concludes hs hsignature (hposition p hp).1 (hposition p hp).2
  unfold collectBounds
  rw [if_neg (Nat.not_lt.mpr hlength)]
  cases hexpected : args[signature.params.length]? with
  | none =>
      refine (hchecks inferred hI).bind fun _ inferred₁ hI₁ _ => ?_
      exact (hcollects inferred₁ hI₁).bind fun _ _ hI₂ _ => .pure hI₂ trivial
  | some expected =>
      have he := hargs expected (List.mem_of_getElem? hexpected)
      refine (hchecks inferred hI).bind fun _ inferred₁ hI₁ _ => ?_
      refine (checkReturn_concludes hs hsignature he hI₁).bind fun _ inferred₂ hI₂ _ => ?_
      refine (hcollects inferred₂ hI₂).bind fun _ inferred₃ hI₃ _ => ?_
      cases hreturns : signature.returns with
      | none => exact .pure hI₃ trivial
      | some returns =>
          exact collectReturn_concludes hs hsignature he (hsignature.returns returns hreturns) hI₃

end Collecting

section Fixing

/-- The fixed types meet their bounds. -/
def Met (store : Store) (inferred : InferredBounds) : Prop :=
  ∀ (i : Nat) type, inferred.fixed[i]? = some (some type) →
    (inferred.bounds[i]?.getD {}).Meets store.isAssignable type

/-- Fixing from types of the store picks one of them, or none. -/
theorem fix?_pick (hs : store.WellFormed) {bounds : BoundSet}
    (hlt : ∀ flow, ∀ type ∈ bounds.side flow, type < store.size) :
    bounds.fix? store.isAssignable =
      .ok (bounds.pick fun a b => (store.isAssignable a b).holds) :=
  BoundSet.fix?_eq_pick fun flow flow' a b ha hb =>
    isAssignable_holds hs (hlt flow a ha) (hlt flow' b hb)

theorem fixAt_concludes (hs : store.Reachable) (hI : Tracks store signature base inferred)
    (breakEarly : Bool) (position : Nat) :
    Concludes (Tracks store signature base) (fixAt store breakEarly position) inferred
      fun _ _ => True := by
  have hlt : ∀ flow, ∀ type ∈ (inferred.bounds[position]?.getD {}).side flow, type < store.size :=
    fun _ _ hmem => hI.witnesses (recorded_of_mem_side hmem)
  obtain ⟨type?, hfix⟩ : ∃ type?, (inferred.bounds[position]?.getD {}).fix? store.isAssignable =
      .ok type? := ⟨_, fix?_pick hs.lawful.wellFormed hlt⟩
  have hI' : Tracks store signature base
      { inferred with fixed := inferred.fixed.set position type? } := by
    refine hI.fix position ?_
    rintro type rfl
    obtain ⟨flow, hmem⟩ := (BoundSet.meets_of_fix? hfix).witness
    exact hlt flow type hmem
  refine .get (.read hfix ?_)
  refine Concludes.bind (Q := fun _ _ => True) ⟨.ok (), _, rfl, hI', fun _ _ => trivial⟩
    fun _ inferred' hI' _ => ?_
  split
  · exact .throw _ hI'
  · exact .pure hI' trivial

/-- Fixing concludes, and succeeds only with types that meet their bounds. -/
theorem fixAll_concludes (hs : store.Reachable) (hI : Tracks store signature base inferred)
    (breakEarly : Bool) :
    Concludes (Tracks store signature base) (fixAll store breakEarly) inferred
      fun _ => Met store := by
  have hends : Concludes (Tracks store signature base) (fixAll store breakEarly) inferred
      fun _ _ => True := by
    refine .get ((Concludes.forM (fun position _ _ hI' => fixAt_concludes hs hI' breakEarly
      position) hI).bind fun _ inferred' hI' _ => .get ?_)
    dsimp only
    split
    · exact .throw _ hI'
    · exact .pure hI' trivial
  obtain ⟨outcome, inferred', hrun, hI', -⟩ := hends
  refine ⟨outcome, inferred', hrun, hI', ?_⟩
  rintro u rfl i type htype
  obtain ⟨fixed, rfl, -, -, hfixes⟩ := fixAll_run hrun
  refine BoundSet.meets_of_fix? (hfixes i ?_ (some type) htype)
  rw [hI.typeParams, ← hI'.places]
  exact (List.getElem?_eq_some_iff.mp htype).1

theorem feedConstraints_concludes (hs : store.Reachable) (hcallable : store.HasCallable signature)
    (hI : Tracks store signature base inferred) (position : Nat) :
    Concludes (Tracks store signature base) (feedConstraints store signature position) inferred
      fun _ _ => True := by
  have hwf := hs.lawful.wellFormed
  refine .get ?_
  split
  · next fixed param hfixed hparam =>
      have hflt := hI.fixed fixed (List.mem_of_getElem? hfixed)
      rw [hI.typeParams] at hparam
      obtain ⟨_, form, _, hform, -⟩ := hcallable.paramAt hwf.coherent (List.mem_of_getElem? hparam)
      obtain ⟨entry, hentry⟩ := Store.entry_of_lt (Store.form_lt hform)
      refine .read (Store.query_of_entry hentry (·.param?)) ?_
      split
      · next info hinfo =>
          refine .forM (fun target htarget inferred' hI' => ?_) hI
          have hshape : entry.shape = .parameter info := by
            rw [Entry.param?] at hinfo
            split at hinfo
            · next hshape => rw [hshape, Option.some.inj hinfo]
            · cases hinfo
          obtain ⟨constraint, hmem, hbase⟩ := List.mem_filterMap.mp htarget
          have htlt : target < store.size := by
            split at hbase
            · cases hbase
              exact hs.constraintsInRange hentry hshape hmem
            · cases hbase
          exact match_concludes hs (hwf.inRange.signatures hcallable) hflt htlt _ _ hI'
      · exact .pure hI trivial
  · exact .pure hI trivial

/-- The bootstrap concludes: every pass but the last leaves fewer parameters without a type. -/
theorem bootstrapPasses_concludes (hs : store.Reachable) (hcallable : store.HasCallable signature)
    (hI : Tracks store signature base inferred) {passes : Nat}
    (hpasses : inferred.unresolved < passes) :
    Concludes (Tracks store signature base) (bootstrapPasses store signature passes) inferred
      fun _ => Met store := by
  induction passes generalizing inferred with
  | zero => exact absurd hpasses (Nat.not_lt_zero _)
  | succ passes ih =>
      refine .get (.get ((Concludes.forM (fun position _ _ hI' =>
        feedConstraints_concludes hs hcallable hI' position) hI).bind fun _ fed hI₁ _ => ?_))
      obtain ⟨outcome, fixedAll, hrun, hI₂, hmet⟩ := fixAll_concludes hs hI₁ false
      cases outcome with
      | ok u =>
          refine ⟨.ok u, fixedAll, ?_, hI₂, hmet⟩
          rw [run_tryCatch, hrun]
          rfl
      | error failure =>
          have hafter : Concludes (Tracks store signature base) (do
              let after := (← get).unresolved
              if inferred.unresolved ≤ after then
                throw (.unresolved after)
              else
                bootstrapPasses store signature passes) fixedAll fun _ => Met store := by
            refine .get ?_
            dsimp only
            split
            · exact .throw _ hI₂
            · exact ih hI₂ (by omega)
          obtain ⟨outcome, last, hrun', hlast⟩ := hafter
          refine ⟨outcome, last, ?_, hlast⟩
          rw [run_tryCatch, hrun]
          exact hrun'

end Fixing

section Calls

variable {args types : List Handle} {options : InferenceOptions}

/-- Fixing with the bootstrap as a second attempt, if that is asked for. -/
theorem fixOrBootstrap_concludes (hs : store.Reachable) (hcallable : store.HasCallable signature)
    (hI : Tracks store signature base inferred) (options : InferenceOptions) :
    Concludes (Tracks store signature base)
      (fixOrBootstrap store signature options.bootstrapFromConstraints) inferred fun _ => Met store := by
  obtain ⟨outcome, fixedAll, hrun, hI₁, hmet⟩ :=
    fixAll_concludes hs hI (!options.bootstrapFromConstraints)
  cases outcome with
  | ok u =>
      refine ⟨.ok u, fixedAll, ?_, hI₁, hmet⟩
      rw [fixOrBootstrap, run_tryCatch, hrun]
      rfl
  | error failure =>
      have hagain : Concludes (Tracks store signature base) (do
          if options.bootstrapFromConstraints then
            bootstrap store signature
          else
            throw failure) fixedAll fun _ => Met store := by
        split
        · exact .get (bootstrapPasses_concludes hs hcallable hI₁ (Nat.lt_succ_self _))
        · exact .throw failure hI₁
      obtain ⟨outcome, last, hrun', hlast⟩ := hagain
      refine ⟨outcome, last, ?_, hlast⟩
      rw [fixOrBootstrap, run_tryCatch, hrun]
      exact hrun'

/-- An inference call on types of the store returns, or the constraint check of the types that it
infers has no end. -/
theorem infer_returns (hs : store.Reachable) (hcallable : store.HasCallable signature)
    (hargs : ∀ arg ∈ args, arg < store.size) (hlength : signature.params.length ≤ args.length)
    (options : InferenceOptions) :
    (∃ result, runFresh signature (infer store signature args options) = .ok result) ∨
      runFresh signature (infer store signature args options) = .error .outOfFuel ∧
        ∃ types, (∀ type ∈ types, type < store.size) ∧
          store.CheckDiverges (.callable signature) types := by
  have hwf := hs.lawful.wellFormed
  obtain ⟨outcome, collected, hcollect, hI, -⟩ := collectBounds_concludes hs
    (hwf.inRange.signatures hcallable) hargs hlength (tracks_ofTypeParams store signature)
  rw [runFresh, infer_eq, run_bind, hcollect, Query.ok_bind]
  cases outcome with
  | error failure => exact Or.inl ⟨_, rfl⟩
  | ok u =>
      dsimp only
      obtain ⟨outcome, last, hfixing, hI', -⟩ := fixOrBootstrap_concludes hs hcallable hI options
      rw [run_bind, hfixing, Query.ok_bind]
      cases outcome with
      | error failure => exact Or.inl ⟨_, rfl⟩
      | ok u =>
          dsimp only
          rw [run_get_bind]
          cases htypes : last.fixedTypes? with
          | none => exact Or.inl ⟨_, rfl⟩
          | some types =>
              have hlt : ∀ type ∈ types, type < store.size := by
                intro type htype
                refine hI'.fixed type ?_
                rw [eq_map_some_of_mapM_id htypes]
                exact List.mem_map_of_mem htype
              dsimp only
              split
              · exact Or.inl ⟨_, rfl⟩
              · rcases Store.satisfiesConstraints_cases hwf hs.constraintsInRange
                  (show (Declaration.callable signature).DeclaredIn store from hcallable) hlt with
                  ⟨answer, hanswer⟩ | ⟨hfault, params, sub, hbinding, -, hdiverges⟩
                · rw [hanswer]
                  cases answer <;> exact Or.inl ⟨_, rfl⟩
                · rw [hfault]
                  exact Or.inr ⟨rfl, types, hlt, params, sub, hbinding, hdiverges⟩

/-- The types that a successful call returns meet its last bounds, which have grown from those that
its arguments left. -/
theorem inferTypes?_met (hs : store.Reachable) (hcallable : store.HasCallable signature)
    (hargs : ∀ arg ∈ args, arg < store.size)
    (hinfer : store.inferTypes? signature args options = .ok (some types)) :
    ∃ collected last,
      run (collectBounds store signature args) (.ofTypeParams signature.typeParams) =
        .ok (.ok (), collected) ∧
      Tracks store signature collected.bounds last ∧ Met store last ∧
      last.fixed = types.map some := by
  rw [inferTypes?_eq] at hinfer
  obtain ⟨⟨outcome, last⟩, hsolve, haccepted⟩ := Query.bind_eq_ok.mp hinfer
  cases outcome with
  | error failure => cases haccepted
  | ok u =>
      obtain ⟨⟨⟩, collected, hcollect, hfixing⟩ := run_bind_eq_ok.mp hsolve
      have hlength : signature.params.length ≤ args.length := by
        by_contra hfew
        rw [collectBounds, if_pos (Nat.lt_of_not_le hfew)] at hcollect
        cases hcollect
      have hI := ((collectBounds_concludes hs (hs.lawful.wellFormed.inRange.signatures hcallable)
        hargs hlength (tracks_ofTypeParams store signature)).of_run hcollect).1.rebase
      obtain ⟨hI', hmet⟩ := (fixOrBootstrap_concludes hs hcallable hI options).of_run hfixing
      exact ⟨collected, last, hcollect, hI', hmet,
        eq_map_some_of_mapM_id (fixedTypes?_of_accepted? haccepted)⟩

theorem inferTypes?_lt (hs : store.Reachable) (hcallable : store.HasCallable signature)
    (hargs : ∀ arg ∈ args, arg < store.size)
    (hinfer : store.inferTypes? signature args options = .ok (some types)) :
    ∀ type ∈ types, type < store.size := by
  obtain ⟨_, last, -, htracks, -, hfixed⟩ := inferTypes?_met hs hcallable hargs hinfer
  intro type htype
  exact htracks.fixed type (hfixed ▸ List.mem_map_of_mem htype)

end Calls

end Inference

end NominalGenerics
