import NominalGenerics.Proofs.Guard
import NominalGenerics.Proofs.Store.Reachable
import NominalGenerics.Proofs.Subtyping

/-!
# The assignability walk decides subtyping

A walk runs under a guard that holds the pairs on its path. `Decides` states what such a walk
achieves: it ends without a fault and with the path it started from, a positive answer is sound, and
a negative answer is complete unless a limit was hit. The two sides speak of different relations:
positive answers derive `Sub`, negative ones exclude derivations that avoid the path.
-/

namespace NominalGenerics.Assignability

open Substitution (Identical BindsClosed resolve_cases resolve_lt resolve_resolved equal_answers)

/-- The guard holds exactly the pairs of the path. -/
structure OnPath (limits : Limits) (path : List (Handle × Handle)) (guard : PairGuard) : Prop where
  limits : guard.limits = limits
  visiting : guard.visiting = path
  depth : guard.depth = path.length

/-- The walk answers a question on any guard that holds the path: a positive answer means `P`, and a
negative one excludes `Q` unless a limit was hit. -/
def Decides (limits : Limits) (path : List (Handle × Handle)) (walk : RelationM Bool)
    (P Q : Prop) : Prop :=
  ∀ guard, OnPath limits path guard →
    ∃ answer guard', walk.run guard = .ok (answer, guard') ∧ OnPath limits path guard' ∧
      (guard.exceeded = true → guard'.exceeded = true) ∧ (answer = true → P) ∧
      (answer = false → guard'.exceeded = false → ¬ Q)

section Walks

variable {limits : Limits} {path : List (Handle × Handle)} {P Q P' Q' : Prop}

theorem Decides.imp {walk : RelationM Bool} (h : Decides limits path walk P Q) (hP : P → P')
    (hQ : Q' → Q) : Decides limits path walk P' Q' := by
  intro guard hguard
  obtain ⟨answer, guard', hrun, hon, hexceeded, hsound, hcomplete⟩ := h guard hguard
  exact ⟨answer, guard', hrun, hon, hexceeded, fun ha => hP (hsound ha),
    fun ha he hq => hcomplete ha he (hQ hq)⟩

theorem decides_pure {answer : Bool} (hP : answer = true → P) (hQ : answer = false → ¬ Q) :
    Decides limits path (pure answer) P Q := by
  intro guard hguard
  exact ⟨answer, guard, rfl, hguard, fun h => h, hP, fun ha _ => hQ ha⟩

/-- Reading an answer of the store does not touch the guard. -/
theorem decides_read {α : Type} {x : Query α} {a : α} {f : α → RelationM Bool} (hx : x = .ok a)
    (h : Decides limits path (f a) P Q) : Decides limits path (liftM x >>= f) P Q := by
  subst hx
  exact h

theorem decides_query {x : Query Bool} (h : Query.Answers x P) :
    Decides limits path (liftM x) P P := by
  obtain ⟨b, rfl, hb⟩ := h
  intro guard hguard
  refine ⟨b, guard, rfl, hguard, fun h => h, hb.mp, fun hfalse _ hP => ?_⟩
  rw [hb.mpr hP] at hfalse
  cases hfalse

/-- The second walk runs only if the first one answers negatively. -/
theorem Decides.orElse {first second : RelationM Bool} (h : Decides limits path first P Q)
    (h' : Decides limits path second P' Q') :
    Decides limits path (do if ← first then return true else second) (P ∨ P') (Q ∨ Q') := by
  intro guard hguard
  obtain ⟨answer, guard₁, hrun, hon, hexceeded, hsound, hcomplete⟩ := h guard hguard
  cases answer with
  | true =>
      refine ⟨true, guard₁, run_bind_eq_ok.mpr ⟨true, guard₁, hrun, rfl⟩, hon, hexceeded,
        fun _ => Or.inl (hsound rfl), fun hfalse => ?_⟩
      cases hfalse
  | false =>
      obtain ⟨answer', guard₂, hrun', hon', hexceeded', hsound', hcomplete'⟩ := h' guard₁ hon
      refine ⟨answer', guard₂, run_bind_eq_ok.mpr ⟨false, guard₁, hrun, hrun'⟩, hon',
        fun he => hexceeded' (hexceeded he), fun ha => Or.inr (hsound' ha), fun ha he => ?_⟩
      rintro (hQ | hQ')
      · refine hcomplete rfl ?_ hQ
        -- A limit that was hit in the first walk is still recorded after the second.
        cases hfirst : guard₁.exceeded with
        | false => rfl
        | true => rw [hexceeded' hfirst] at he; cases he
      · exact hcomplete' ha he hQ'

theorem decides_allM {α : Type} {f : α → RelationM Bool} {P Q : α → Prop} {as : List α}
    (h : ∀ a ∈ as, Decides limits path (f a) (P a) (Q a)) :
    Decides limits path (as.allM f) (∀ a ∈ as, P a) (∀ a ∈ as, Q a) := by
  induction as with
  | nil => exact decides_pure (by simp) (by simp)
  | cons a as ih =>
      have hrest := ih fun b hb => h b (List.mem_cons_of_mem a hb)
      intro guard hguard
      obtain ⟨answer, guard₁, hrun, hon, hexceeded, hsound, hcomplete⟩ :=
        h a List.mem_cons_self guard hguard
      rw [List.allM]
      cases answer with
      | false =>
          refine ⟨false, guard₁, run_bind_eq_ok.mpr ⟨false, guard₁, hrun, rfl⟩, hon, hexceeded, ?_,
            fun _ he hall => hcomplete rfl he (hall a List.mem_cons_self)⟩
          intro htrue
          cases htrue
      | true =>
          obtain ⟨answer', guard₂, hrun', hon', hexceeded', hsound', hcomplete'⟩ := hrest guard₁ hon
          refine ⟨answer', guard₂, run_bind_eq_ok.mpr ⟨true, guard₁, hrun, hrun'⟩, hon',
            fun he => hexceeded' (hexceeded he), fun ha b hb => ?_, fun ha he hall => ?_⟩
          · rcases List.mem_cons.mp hb with rfl | hb
            · exact hsound rfl
            · exact hsound' ha b hb
          · exact hcomplete' ha he fun b hb => hall b (List.mem_cons_of_mem a hb)

theorem decides_anyM {α : Type} {f : α → RelationM Bool} {P Q : α → Prop} {as : List α}
    (h : ∀ a ∈ as, Decides limits path (f a) (P a) (Q a)) :
    Decides limits path (as.anyM f) (∃ a ∈ as, P a) (∃ a ∈ as, Q a) := by
  induction as with
  | nil => exact decides_pure (by simp) (by simp)
  | cons a as ih =>
      have hrest := ih fun b hb => h b (List.mem_cons_of_mem a hb)
      have hwalk : (a :: as).anyM f = (do if (← f a) then return true else as.anyM f) := by
        rw [List.anyM]
        congr 1
        funext b
        cases b <;> rfl
      rw [hwalk]
      refine ((h a List.mem_cons_self).orElse hrest).imp ?_ ?_
      · rintro (hP | ⟨b, hb, hP⟩)
        · exact ⟨a, List.mem_cons_self, hP⟩
        · exact ⟨b, List.mem_cons_of_mem a hb, hP⟩
      · rintro ⟨b, hb, hQ⟩
        rcases List.mem_cons.mp hb with rfl | hb
        · exact Or.inl hQ
        · exact Or.inr ⟨b, hb, hQ⟩

end Walks

section Queries

variable {store : Store} {sub : Substitution} {source target : Handle}

theorem isReferenceType_total (hlt : source < store.size) :
    ∃ b, store.isReferenceType source = .ok b := by
  obtain ⟨entry, hentry⟩ := Store.entry_of_lt hlt
  exact ⟨_, Store.query_of_entry hentry fun e => !e.flags.valueType && !e.isParameter⟩

theorem declaredVariance_total (hs : store.Coherent) {definition : Handle}
    (hlt : definition < store.size) (position : Nat) :
    ∃ variance, store.declaredVariance definition position = .ok variance := by
  obtain ⟨form, hform⟩ := Store.form_isSome hlt
  rw [Store.declaredVariance, Store.arguments_of_form hform, Query.ok_bind]
  cases hparam : form.arguments[position]? with
  | none => exact ⟨.invariant, rfl⟩
  | some param =>
      obtain ⟨part, hpart, -⟩ := hs.argument hform (List.mem_of_getElem? hparam)
      obtain ⟨entry, hentry⟩ := Store.entry_of_lt (Store.form_lt hpart)
      refine ⟨(entry.param?.map (·.variance)).getD .invariant, ?_⟩
      simp only [Store.param?, Store.query_of_entry hentry (·.param?), Query.ok_bind]
      rfl

theorem isOptionalWrapper_total (hlt : target < store.size) :
    ∃ b, store.isOptionalWrapper target = .ok b := by
  obtain ⟨form, hform⟩ := Store.form_isSome hlt
  rw [Store.isOptionalWrapper, Store.definition?_of_form hform, Query.ok_bind]
  split <;> exact ⟨_, rfl⟩

theorem wraps_answers (hs : store.Coherent) (hsub : sub.BindsClosed store)
    (hsource : source < store.size) (htarget : target < store.size) :
    Query.Answers (wraps store sub source target) (Wraps store sub source target) := by
  obtain ⟨form, hform⟩ := Store.form_isSome htarget
  obtain ⟨b, hb⟩ := isOptionalWrapper_total htarget
  rw [wraps, hb, Query.ok_bind]
  cases b with
  | false =>
      refine Query.answers_false ?_
      rintro ⟨inner, hwrapper, -⟩
      rw [hb] at hwrapper
      cases hwrapper
  | true =>
      have hargs := Store.arguments_of_form hform
      rw [if_pos rfl, hargs, Query.ok_bind]
      split
      · next inner hinner =>
          have hmem : inner ∈ form.arguments := by simp [hinner]
          obtain ⟨part, hpart, -⟩ := hs.argument hform hmem
          refine (equal_answers hs hsub hsource (Store.form_lt hpart)).congr ⟨fun h => ?_, ?_⟩
          · exact ⟨inner, hb, by rw [hargs, hinner], h⟩
          · rintro ⟨inner', -, hargs', h⟩
            rw [hargs, hinner] at hargs'
            cases hargs'
            exact h
      · next hother =>
          refine Query.answers_false ?_
          rintro ⟨inner, -, hargs', -⟩
          exact hother inner (Except.ok.inj (hargs.symm.trans hargs'))

theorem definition?_of_isSequenceInstance {form : Entry} (hform : store.form target = some form)
    (h : isSequenceInstance store target = .ok true) :
    ∃ definition, form.definition? target = some definition ∧ definition ≠ target ∧
      store.isSequenceInterface definition = true := by
  rw [isSequenceInstance, Store.definition?_of_form hform, Query.ok_bind] at h
  split at h
  · next definition hdefinition =>
      obtain ⟨hne, hsequence⟩ := (Bool.and_eq_true _ _).mp (Query.pure_eq_ok.mp h)
      exact ⟨definition, hdefinition, by simpa using hne, hsequence⟩
  · cases h

theorem isSequenceInstance_total (hlt : target < store.size) :
    ∃ b, isSequenceInstance store target = .ok b := by
  obtain ⟨form, hform⟩ := Store.form_isSome hlt
  rw [isSequenceInstance, Store.definition?_of_form hform, Query.ok_bind]
  split <;> exact ⟨_, rfl⟩

end Queries

section Steps

variable {store : Store} {sub : Substitution} {limits : Limits} {path : List (Handle × Handle)}
  {rel : Handle → Handle → RelationM Bool} {R R' : Handle → Handle → Prop} {source target : Handle}

theorem element_decides (hs : store.WellFormed) (hsub : sub.BindsClosed store)
    (hrel : ∀ a b, a < store.size → b < store.size → Decides limits path (rel a b) (R a b) (R' a b))
    (hsource : source < store.size) (htarget : target < store.size) :
    Decides limits path (element store sub rel source target) (Compatible store sub R source target)
      (Compatible store sub R' source target) := by
  obtain ⟨source', hrs, -⟩ := resolve_cases sub hsource
  obtain ⟨target', hrt, -⟩ := resolve_cases sub htarget
  have hsource' := resolve_lt hsub hsource hrs
  have htarget' := resolve_lt hsub htarget hrt
  obtain ⟨b, hb⟩ := isReferenceType_total hsource'
  obtain ⟨b', hb'⟩ := isReferenceType_total htarget'
  refine (decides_query (equal_answers hs.coherent hsub hsource htarget)).orElse ?_
  refine decides_read hrs (decides_read hrt (decides_read hb ?_))
  -- Either side that is no reference type refutes the second alternative.
  have hrefuted : ∀ {S : Handle → Handle → Prop}, b = false ∨ b' = false →
      ¬ ∃ s t, sub.resolve store source = .ok s ∧ sub.resolve store target = .ok t ∧
        store.isReferenceType s = .ok true ∧ store.isReferenceType t = .ok true ∧ S s t := by
    rintro S hfalse ⟨s, t, hs', ht', hsr, htr, -⟩
    obtain rfl := Except.ok.inj (hrs.symm.trans hs')
    obtain rfl := Except.ok.inj (hrt.symm.trans ht')
    rcases hfalse with rfl | rfl
    · cases hb.symm.trans hsr
    · cases hb'.symm.trans htr
  cases b with
  | false => exact decides_pure (by simp) fun _ => hrefuted (Or.inl rfl)
  | true =>
      refine decides_read hb' ?_
      cases b' with
      | false => exact decides_pure (by simp) fun _ => hrefuted (Or.inr rfl)
      | true =>
          refine (hrel source' target' hsource' htarget').imp
            (fun h => ⟨source', target', hrs, hrt, hb, hb', h⟩) ?_
          rintro ⟨s, t, hs', ht', -, -, h⟩
          obtain rfl := Except.ok.inj (hrs.symm.trans hs')
          obtain rfl := Except.ok.inj (hrt.symm.trans ht')
          exact h

theorem argument_decides (hs : store.WellFormed) (hsub : sub.BindsClosed store)
    (hrel : ∀ a b, a < store.size → b < store.size → Decides limits path (rel a b) (R a b) (R' a b))
    {definition : Handle} {position : Nat} (hdefinition : definition < store.size)
    (hsource : source < store.size) (htarget : target < store.size) :
    Decides limits path (argument store sub rel definition source target position)
      (∃ variance, store.declaredVariance definition position = .ok variance ∧
        ArgumentCompatible store sub R source target variance)
      (∃ variance, store.declaredVariance definition position = .ok variance ∧
        ArgumentCompatible store sub R' source target variance) := by
  obtain ⟨variance, hvariance⟩ := declaredVariance_total hs.coherent hdefinition position
  have hread : ∀ {walk : RelationM Bool},
      Decides limits path walk (ArgumentCompatible store sub R source target variance)
        (ArgumentCompatible store sub R' source target variance) →
      Decides limits path walk
        (∃ variance, store.declaredVariance definition position = .ok variance ∧
          ArgumentCompatible store sub R source target variance)
        (∃ variance, store.declaredVariance definition position = .ok variance ∧
          ArgumentCompatible store sub R' source target variance) := by
    intro walk h
    refine h.imp (fun h => ⟨variance, hvariance, h⟩) ?_
    rintro ⟨variance', hvariance', h⟩
    obtain rfl := Except.ok.inj (hvariance.symm.trans hvariance')
    exact h
  refine decides_read hvariance (hread ?_)
  cases variance with
  | invariant => exact decides_query (equal_answers hs.coherent hsub hsource htarget)
  | covariant => exact element_decides hs hsub hrel hsource htarget
  | contravariant => exact element_decides hs hsub hrel htarget hsource

theorem arguments_decides (hs : store.WellFormed) (hsub : sub.BindsClosed store)
    (hrel : ∀ a b, a < store.size → b < store.size → Decides limits path (rel a b) (R a b) (R' a b))
    {definition : Handle} (hdefinition : definition < store.size)
    (hsource : source < store.size) (htarget : target < store.size) :
    Decides limits path (arguments store sub rel definition source target)
      (ArgumentsCompatible store sub R definition source target)
      (ArgumentsCompatible store sub R' definition source target) := by
  obtain ⟨sform, hsform⟩ := Store.form_isSome hsource
  obtain ⟨tform, htform⟩ := Store.form_isSome htarget
  have hsargs := Store.arguments_of_form hsform
  have htargs := Store.arguments_of_form htform
  refine decides_read hsargs (decides_read htargs ?_)
  split
  · next hlength =>
      have hall : Decides limits path
          ((sform.arguments.zip tform.arguments).zipIdx.allM fun p =>
            argument store sub rel definition p.1.1 p.1.2 p.2)
          (∀ p ∈ (sform.arguments.zip tform.arguments).zipIdx,
            ∃ variance, store.declaredVariance definition p.2 = .ok variance ∧
              ArgumentCompatible store sub R p.1.1 p.1.2 variance)
          (∀ p ∈ (sform.arguments.zip tform.arguments).zipIdx,
            ∃ variance, store.declaredVariance definition p.2 = .ok variance ∧
              ArgumentCompatible store sub R' p.1.1 p.1.2 variance) := by
        refine decides_allM fun p hp => ?_
        obtain ⟨hx, hy⟩ := List.of_mem_zip (List.fst_mem_of_mem_zipIdx hp)
        obtain ⟨_, hxform, -⟩ := hs.coherent.argument hsform hx
        obtain ⟨_, hyform, -⟩ := hs.coherent.argument htform hy
        exact argument_decides hs hsub hrel hdefinition (Store.form_lt hxform)
          (Store.form_lt hyform)
      refine hall.imp (fun h => ?_) ?_
      · exact ⟨_, _, hsargs, htargs, hlength, forall_mem_zip_zipIdx.mp h⟩
      · rintro ⟨sargs, targs, hsargs', htargs', -, h⟩
        obtain rfl := Except.ok.inj (hsargs.symm.trans hsargs')
        obtain rfl := Except.ok.inj (htargs.symm.trans htargs')
        exact forall_mem_zip_zipIdx.mpr h
  · next hlength =>
      refine decides_pure (by simp) fun _ => ?_
      rintro ⟨sargs, targs, hsargs', htargs', hlength', -⟩
      obtain rfl := Except.ok.inj (hsargs.symm.trans hsargs')
      obtain rfl := Except.ok.inj (htargs.symm.trans htargs')
      exact hlength hlength'

theorem sequence_decides (hs : store.WellFormed) (hsub : sub.BindsClosed store)
    (hrel : ∀ a b, a < store.size → b < store.size → Decides limits path (rel a b) (R a b) (R' a b))
    (hsource : source < store.size) (htarget : target < store.size) :
    Decides limits path (sequence store sub rel source target)
      (SequenceOf store sub R source target) (SequenceOf store sub R' source target) := by
  obtain ⟨form, hform⟩ := Store.form_isSome htarget
  obtain ⟨b, hb⟩ := isSequenceInstance_total htarget
  have hargs := Store.arguments_of_form hform
  refine decides_read hb ?_
  cases b with
  | false =>
      refine decides_pure (by simp) fun _ => ?_
      rintro ⟨element, hsequence, -⟩
      rw [hb] at hsequence
      cases hsequence
  | true =>
      refine decides_read hargs ?_
      split
      · next element helement =>
          have hmem : element ∈ form.arguments := by simp [helement]
          obtain ⟨part, hpart, -⟩ := hs.coherent.argument hform hmem
          refine (element_decides hs hsub hrel hsource (Store.form_lt hpart)).imp
            (fun h => ⟨element, hb, by rw [hargs, helement], h⟩) ?_
          rintro ⟨element', -, hargs', h⟩
          rw [hargs, helement] at hargs'
          cases hargs'
          exact h
      · next hother =>
          refine decides_pure (by simp) fun _ => ?_
          rintro ⟨element, -, hargs', -⟩
          exact hother element (Except.ok.inj (hargs.symm.trans hargs'))

theorem nominal_decides (hs : store.WellFormed) (hsub : sub.BindsClosed store)
    (hrel : ∀ a b, a < store.size → b < store.size → Decides limits path (rel a b) (R a b) (R' a b))
    (hsource : source < store.size) (htarget : target < store.size) :
    Decides limits path (nominal store sub rel source target)
      (Inherits store sub R source target) (Inherits store sub R' source target) := by
  obtain ⟨form, hform⟩ := Store.form_isSome htarget
  obtain ⟨supers, hsupers, hlt⟩ := Store.supertypes_total hs hsource
  have hdef := Store.definitionOrSelf_of_form hform
  have hdeflt := hs.coherent.definition_lt hform
  refine decides_read hdef (decides_read hsupers ?_)
  have hany : Decides limits path
      (supers.anyM fun candidate => do
        if (← store.definitionOrSelf candidate) = (form.definition? target).getD target then
          arguments store sub rel ((form.definition? target).getD target) candidate target
        else
          return false)
      (∃ super ∈ supers, store.definitionOrSelf super = store.definitionOrSelf target ∧
        ArgumentsCompatible store sub R ((form.definition? target).getD target) super target)
      (∃ super ∈ supers, store.definitionOrSelf super = store.definitionOrSelf target ∧
        ArgumentsCompatible store sub R' ((form.definition? target).getD target) super target) := by
    refine decides_anyM fun super hsuper => ?_
    obtain ⟨sform, hsform⟩ := Store.form_isSome (hlt super hsuper)
    have hsdef := Store.definitionOrSelf_of_form hsform
    refine decides_read hsdef ?_
    rw [hdef, hsdef]
    split
    · next heq =>
        rw [heq]
        exact (arguments_decides hs hsub hrel hdeflt (hlt super hsuper) htarget).imp
          (fun h => ⟨rfl, h⟩) And.right
    · next hne => exact decides_pure (by simp) fun _ h => hne (Except.ok.inj h.1)
  refine hany.imp ?_ ?_
  · rintro ⟨super, hsuper, hsame, hargs⟩
    exact ⟨super, _, ⟨supers, hsupers, hsuper⟩, hsame.trans hdef, hdef, hargs⟩
  · rintro ⟨super, definition, ⟨supers', hsupers', hsuper⟩, hsdef, htdef, hargs⟩
    obtain rfl := Except.ok.inj (hsupers.symm.trans hsupers')
    obtain rfl := Except.ok.inj (hdef.symm.trans htdef)
    exact ⟨super, hsuper, hsdef.trans hdef.symm, hargs⟩

/-- What the rules say about two different resolved types, by their shapes. -/
theorem Rule.of_ne (hs : store.WellFormed) {sform tform : Entry}
    (hsform : store.form source = some sform) (htform : store.form target = some tform)
    (hrs : sub.resolve store source = .ok source) (hrt : sub.resolve store target = .ok target)
    (hne : source ≠ target) (h : Rule store sub R source target) :
    target = store.root ∨ Wraps store sub source target ∨
      match sform.array?, tform.array? with
      | some (sourceElement, sourceRank), some (targetElement, targetRank) =>
          sourceRank = targetRank ∧ Compatible store sub R sourceElement targetElement
      | some (sourceElement, sourceRank), none =>
          sourceRank = 1 ∧ SequenceOf store sub R sourceElement target ∨
            Inherits store sub R source target
      | none, some _ => False
      | none, none => Inherits store sub R source target := by
  have hinherits : ∀ definition, sform.definition? source = some definition →
      tform.definition? target = some definition →
      (∀ (i : Nat) x y, sform.arguments[i]? = some x → tform.arguments[i]? = some y →
        Identical store sub x y) → Inherits store sub R source target := by
    intro definition hsdef htdef hargs
    have hsapplies := hs.coherent.applies_of_form hsform hsdef
    have htapplies := hs.coherent.applies_of_form htform htdef
    obtain ⟨_, ⟨_, hdform, -⟩, -⟩ := hsapplies
    refine ⟨source, definition, Store.supertype_self hs (Store.form_lt hsform), ?_, ?_, _, _,
      Store.arguments_of_form hsform, Store.arguments_of_form htform,
      (hs.coherent.applies_of_form hsform hsdef).length_eq htapplies, fun i x y hx hy => ?_⟩
    · rw [Store.definitionOrSelf_of_form hsform, hsdef]
      rfl
    · rw [Store.definitionOrSelf_of_form htform, htdef]
      rfl
    · obtain ⟨variance, hvariance⟩ :=
        declaredVariance_total hs.coherent (Store.form_lt hdform) i
      refine ⟨variance, hvariance, ?_⟩
      cases variance with
      | invariant => exact hargs i x y hx hy
      | covariant => exact Or.inl (hargs i x y hx hy)
      | contravariant => exact Or.inl (hargs i x y hx hy).symm
  cases h with
  | identity hidentical =>
      refine Or.inr (Or.inr ?_)
      split
      · next sourceElement sourceRank targetElement targetRank hsarray htarray =>
          obtain ⟨hrank, helement⟩ := (Substitution.identical_iff_array hrs hrt
            (Store.isArray_of_form hsform hsarray) (Store.isArray_of_form htform htarray) hne).mp
            hidentical
          exact ⟨hrank, Or.inl helement⟩
      · next hsarray htarray =>
          obtain ⟨definition, hsdef, -⟩ := (Substitution.identical_iff_definition hs.coherent hrs
            hrt hsform htform hne (Or.inr htarray)).mp hidentical
          rw [Store.array?_of_definition? hsdef] at hsarray
          cases hsarray
      · next hsarray htarray =>
          obtain ⟨definition, -, htdef, -⟩ := (Substitution.identical_iff_definition hs.coherent hrs
            hrt hsform htform hne (Or.inl hsarray)).mp hidentical
          rw [Store.array?_of_definition? htdef] at htarray
          cases htarray
      · next hsarray htarray =>
          obtain ⟨definition, hsdef, htdef, hargs⟩ := (Substitution.identical_iff_definition
            hs.coherent hrs hrt hsform htform hne (Or.inl hsarray)).mp hidentical
          exact hinherits definition hsdef htdef hargs
  | root => exact Or.inl rfl
  | wrapper hwraps => exact Or.inr (Or.inl hwraps)
  | arrays hsource htarget helement =>
      obtain ⟨_, hsform', hsarray, -⟩ := hsource.exists_form
      obtain ⟨_, htform', htarray, -⟩ := htarget.exists_form
      obtain rfl := Option.some.inj (hsform.symm.trans hsform')
      obtain rfl := Option.some.inj (htform.symm.trans htform')
      rw [hsarray, htarray]
      exact Or.inr (Or.inr ⟨rfl, helement⟩)
  | sequence hsource htarget =>
      obtain ⟨_, hsform', hsarray, -⟩ := hsource.exists_form
      obtain rfl := Option.some.inj (hsform.symm.trans hsform')
      obtain ⟨targetElement, hsequence, -⟩ := id htarget
      obtain ⟨definition, htdef, -⟩ := definition?_of_isSequenceInstance htform hsequence
      rw [hsarray, Store.array?_of_definition? htdef]
      exact Or.inr (Or.inr (Or.inl ⟨rfl, htarget⟩))
  | supertype harray hinherits =>
      rw [Store.array?_of_form htform, Except.ok.injEq] at harray
      refine Or.inr (Or.inr ?_)
      rw [harray]
      cases sform.array? with
      | none => exact hinherits
      | some shape => exact Or.inr hinherits

theorem rules_decides (hs : store.WellFormed) (hsub : sub.BindsClosed store)
    (hrel : ∀ a b, a < store.size → b < store.size → Decides limits path (rel a b) (R a b) (R' a b))
    (hsource : source < store.size) (htarget : target < store.size)
    (hrs : sub.resolve store source = .ok source) (hrt : sub.resolve store target = .ok target)
    (hne : source ≠ target) :
    Decides limits path (rules store sub rel source target) (Rule store sub R source target)
      (Rule store sub R' source target) := by
  obtain ⟨sform, hsform⟩ := Store.form_isSome hsource
  obtain ⟨tform, htform⟩ := Store.form_isSome htarget
  have hshapes : Rule store sub R' source target → _ := Rule.of_ne hs hsform htform hrs hrt hne
  rw [rules]
  split
  · next hroot => exact decides_pure (fun _ => hroot ▸ .root) (by simp)
  · next hroot =>
      refine ((decides_query (wraps_answers hs.coherent hsub hsource htarget)).orElse ?_).imp
        (fun h => h.elim .wrapper id) fun h => (hshapes h).resolve_left hroot
      refine decides_read (Store.array?_of_form hsform) (decides_read (Store.array?_of_form htform) ?_)
      cases hsarray : sform.array? with
      | none =>
          cases htarray : tform.array? with
          | none =>
              refine (nominal_decides hs hsub hrel hsource htarget).imp (fun h => ?_) id
              exact .supertype (by rw [Store.array?_of_form htform, htarray]) h
          | some tshape => exact decides_pure (by simp) (by simp)
      | some sshape =>
          obtain ⟨sourceElement, sourceRank⟩ := sshape
          have hsourceArray := Store.isArray_of_form hsform hsarray
          obtain ⟨_, hspart, -⟩ := hs.coherent.element hsform hsarray
          cases htarray : tform.array? with
          | some tshape =>
              obtain ⟨targetElement, targetRank⟩ := tshape
              obtain ⟨_, htpart, -⟩ := hs.coherent.element htform htarray
              dsimp only
              split
              · next hrank =>
                  subst hrank
                  exact (element_decides hs hsub hrel (Store.form_lt hspart)
                    (Store.form_lt htpart)).imp
                    (.arrays hsourceArray (Store.isArray_of_form htform htarray)) And.right
              · next hrank => exact decides_pure (by simp) fun _ h => hrank h.1
          | none =>
              have hnominal : Decides limits path (nominal store sub rel source target)
                  (Rule store sub R source target) (Inherits store sub R' source target) := by
                refine (nominal_decides hs hsub hrel hsource htarget).imp (fun h => ?_) id
                exact .supertype (by rw [Store.array?_of_form htform, htarray]) h
              dsimp only
              split
              · next hrank =>
                  subst hrank
                  refine ((sequence_decides hs hsub hrel (Store.form_lt hspart) htarget).orElse
                    hnominal).imp (fun h => h.elim (.sequence hsourceArray) id) ?_
                  exact Or.imp_left And.right
              · next hrank => exact hnominal.imp id fun h => h.resolve_left fun h => hrank h.1

theorem step_decides (hs : store.WellFormed) (hsub : sub.BindsClosed store)
    (hrel : path.length < limits.maxDepth → ∀ pair a b, a < store.size → b < store.size →
      Decides limits (pair :: path) (rel a b) (Sub store sub a b)
        (SubAvoiding store sub (pair :: path) a b))
    (hsource : source < store.size) (htarget : target < store.size) :
    Decides limits path (step store sub rel source target) (Sub store sub source target)
      (SubAvoiding store sub path source target) := by
  obtain ⟨source', hrs, -⟩ := resolve_cases sub hsource
  obtain ⟨target', hrt, -⟩ := resolve_cases sub htarget
  have hrs' := resolve_resolved hs.coherent hsub hsource hrs
  have hrt' := resolve_resolved hs.coherent hsub htarget hrt
  -- Only resolved types count, for derivations as for the walk.
  have hresolved : SubAvoiding store sub path source target →
      (source', target') ∉ path ∧ SubAvoiding store sub path source' target' := by
    rintro ⟨hpremises, hs₁, ht₁, hallowed, hrule⟩
    obtain rfl := Except.ok.inj (hrs.symm.trans hs₁)
    obtain rfl := Except.ok.inj (hrt.symm.trans ht₁)
    exact ⟨hallowed, .derive hpremises hrs' hrt' hallowed hrule⟩
  refine decides_read hrs (decides_read hrt ?_)
  split
  · next heq =>
      subst heq
      refine decides_pure (fun _ => ?_) (by simp)
      exact .derive (R := fun _ _ => False) (fun _ _ h => h.elim) hrs hrt
        (.identity (.same hrs' hrt'))
  · next hne =>
      intro guard hguard
      obtain ⟨admission, guard₁, henter⟩ : ∃ admission guard₁,
          guard.enter (source', target') = (admission, guard₁) := ⟨_, _, rfl⟩
      have hentered : (modifyGet (·.enter (source', target')) : RelationM Admission).run guard =
          .ok (admission, guard₁) := congrArg Except.ok henter
      rw [StateT.run_bind, hentered, Query.ok_bind]
      obtain ⟨hlimits, ⟨rfl, hfree, hdepth, hvisiting, hdepth₁, hexceeded⟩ |
        ⟨rfl, hmem, hvisiting, hdepth₁, hexceeded⟩ | ⟨hrefused, hvisiting, hdepth₁, hexceeded⟩⟩ :=
        Guard.enter_cases henter
      · rw [hguard.depth, hguard.limits] at hdepth
        have hon : OnPath limits ((source', target') :: path) guard₁ :=
          ⟨hlimits.trans hguard.limits, hvisiting.trans (by rw [hguard.visiting]),
            hdepth₁.trans (by rw [hguard.depth]; rfl)⟩
        obtain ⟨answer, guard₂, hrun, hon₂, hexceeded₂, hsound, hcomplete⟩ :=
          rules_decides hs hsub (hrel hdepth (source', target'))
            (resolve_lt hsub hsource hrs) (resolve_lt hsub htarget hrt) hrs' hrt' hne guard₁ hon
        refine ⟨answer, { guard₂ with visiting := path, depth := guard₂.depth - 1 }, ?_,
          ⟨hon₂.limits, rfl, ?_⟩, fun he => hexceeded₂ (hexceeded.trans he), fun ha => ?_,
          fun ha he havoid => ?_⟩
        · refine run_bind_eq_ok.mpr ⟨answer, guard₂, hrun, run_bind_eq_ok.mpr ⟨guard₂, guard₂, rfl,
            run_bind_eq_ok.mpr ⟨_, guard₂, ?_, rfl⟩⟩⟩
          exact run_lift_eq_ok.mpr ⟨Guard.leave_head hon₂.visiting, rfl⟩
        · simp [hon₂.depth]
        · exact sub_iff.mpr ⟨source', target', hrs, hrt, hsound ha⟩
        · exact hcomplete ha he ((hresolved havoid).2.rule_avoiding_self hrs' hrt')
      · refine ⟨false, guard₁, rfl, ⟨hlimits.trans hguard.limits, hvisiting.trans hguard.visiting,
          hdepth₁.trans hguard.depth⟩, fun he => hexceeded.trans he, by simp, fun _ _ havoid => ?_⟩
        exact (hresolved havoid).1 (hguard.visiting ▸ hmem)
      · refine ⟨false, guard₁, ?_, ⟨hlimits.trans hguard.limits, hvisiting.trans hguard.visiting,
          hdepth₁.trans hguard.depth⟩, fun _ => hexceeded, by simp, fun _ he => ?_⟩
        · cases admission with
          | entered => cases hrefused
          | cycle => cases hrefused
          | depthExceeded => rfl
          | iterationExceeded => rfl
        · rw [hexceeded] at he
          cases he

/-- The fuel covers the depth that the guard still allows, so the walk never runs out of it. -/
theorem relate_decides (hs : store.WellFormed) (hsub : sub.BindsClosed store) {fuel : Nat}
    (hfuel : limits.maxDepth ≤ path.length + fuel) (hsource : source < store.size)
    (htarget : target < store.size) :
    Decides limits path (relate store sub fuel source target) (Sub store sub source target)
      (SubAvoiding store sub path source target) := by
  induction fuel generalizing path source target with
  | zero =>
      refine step_decides hs hsub (fun hdepth => ?_) hsource htarget
      exact absurd hdepth (Nat.not_lt.mpr hfuel)
  | succ fuel ih =>
      refine step_decides hs hsub (fun _ pair a b ha hb => ?_) hsource htarget
      exact ih (by simp only [List.length_cons]; omega) ha hb

end Steps

section Decision

variable {store : Store} {sub : Substitution} {source target : Handle}

theorem check_decides (hs : store.WellFormed) (hsub : sub.BindsClosed store)
    (hsource : source < store.size) (htarget : target < store.size) :
    ∃ answer guard, (check store sub source target).run (Guard.ofLimits Limits.assignability) =
        .ok (answer, guard) ∧ guard.visiting = [] ∧
      (answer = true → Sub store sub source target) ∧
      (answer = false → guard.exceeded = false → ¬ Sub store sub source target) := by
  have hfresh : OnPath Limits.assignability [] (Guard.ofLimits Limits.assignability) :=
    ⟨rfl, rfl, rfl⟩
  obtain ⟨answer, guard, hrun, hon, -, hsound, hcomplete⟩ :=
    relate_decides hs hsub (Nat.le_add_left _ _) hsource htarget _ hfresh
  exact ⟨answer, guard, hrun, hon.visiting, hsound,
    fun ha he h => hcomplete ha he h.avoiding_nil⟩

/-- A check of the two types on a new guard hits no limit. -/
def WithinLimits (store : Store) (sub : Substitution) (source target : Handle) : Prop :=
  ∀ answer guard, (check store sub source target).run (Guard.ofLimits Limits.assignability) =
    .ok (answer, guard) → guard.exceeded = false

/-- Assignability does not fault, a positive answer is sound, and a negative one is complete within
the limits. -/
theorem isAssignable_decides (hs : store.WellFormed) (hsource : source < store.size)
    (htarget : target < store.size) :
    ∃ answer, store.isAssignable source target = .ok answer ∧
      (answer = true → Sub store .empty source target) ∧
      (WithinLimits store .empty source target → Sub store .empty source target →
        answer = true) := by
  obtain ⟨answer, guard, hrun, hvisiting, hsound, hcomplete⟩ :=
    check_decides hs Substitution.bindsClosed_empty hsource htarget
  refine ⟨answer, ?_, hsound, fun hlimits hsub => ?_⟩
  · rw [Store.isAssignable, RelationM.runFresh, hrun, Query.ok_bind]
    simp [Guard.release, hvisiting, pure, Except.pure]
  · cases answer with
    | true => rfl
    | false => exact absurd hsub (hcomplete rfl (hlimits false guard hrun))

theorem isAssignable_of_sub (hs : store.WellFormed) (hsource : source < store.size)
    (htarget : target < store.size) (hlimits : WithinLimits store .empty source target)
    (h : Sub store .empty source target) : store.isAssignable source target = .ok true := by
  obtain ⟨answer, hanswer, -, hcomplete⟩ := isAssignable_decides hs hsource htarget
  rw [hanswer, hcomplete hlimits h]

/-- The answer of a check on a new guard, and whether it hit a limit. -/
def outcome? (store : Store) (sub : Substitution) (source target : Handle) :
    Option (Bool × Bool) :=
  match (check store sub source target).run (Guard.ofLimits Limits.assignability) with
  | .ok (answer, guard) => some (answer, guard.exceeded)
  | .error _ => none

theorem sub_of_outcome? (hs : store.WellFormed) (hsub : sub.BindsClosed store)
    (hsource : source < store.size) (htarget : target < store.size)
    (h : outcome? store sub source target = some (true, false)) :
    Sub store sub source target := by
  obtain ⟨answer, guard, hrun, -, hsound, -⟩ := check_decides hs hsub hsource htarget
  simp only [outcome?, hrun, Option.some.injEq, Prod.mk.injEq] at h
  exact hsound h.1

theorem withinLimits_of_outcome?
    (h : (outcome? store sub source target).map (·.2) = some false) :
    WithinLimits store sub source target := by
  intro answer guard hrun
  simpa only [outcome?, hrun, Option.map_some, Option.some.injEq] using h

/-- Sources of animals and sources of dogs. -/
def sourceOperations : List Operation :=
  [.declareGeneric .interfaceType "ISource" [("T", .covariant)],
    .declare .classType "Animal",
    .declare .classType "Dog",
    .setBase 4 3,
    .finish,
    .instantiate 1 [3],
    .instantiate 1 [4]]

/-- The store that `sourceOperations` build. -/
def sourceStore : Store := (Operation.runAll sourceOperations (.ofRoot "object")).getD {}

end Decision

end NominalGenerics.Assignability
