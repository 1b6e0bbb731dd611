import Mathlib.Data.Finset.Card
import Mathlib.Data.Finset.Prod
import Mathlib.Order.Interval.Finset.Nat
import NominalGenerics.Proofs.Identity

/-!
# Ends of identity walks

Identity of two types is decided by a walk that replaces bound parameters as it meets them. No guard
cuts it, so it may have no end: if an argument mentions a parameter that the substitution binds, a
pair of types can come back below itself.

A walk that ends at all is no longer than there are pairs of types, since the pairs on its longest
path need fewer and fewer steps and are therefore all different. `Substitution.equal` allows that
many steps, so it faults exactly if the walk has no end. A walk ends if no argument mentions a bound
parameter.
-/

namespace NominalGenerics

namespace Query

variable {α : Type} {f g : α → Query Bool} {as : List α}

/-- A conjunction that is answered stays so if its parts keep their answers. -/
theorem allM_ok_of_imp {answer : Bool} (h : as.allM f = .ok answer)
    (hfg : ∀ a ∈ as, ∀ b, f a = .ok b → g a = .ok b) : as.allM g = .ok answer := by
  induction as with
  | nil => exact h
  | cons a as ih =>
      rw [List.allM] at h ⊢
      obtain ⟨b, hb, hrest⟩ := bind_eq_ok.mp h
      rw [hfg a List.mem_cons_self b hb, ok_bind]
      cases b with
      | true => exact ih hrest fun c hc => hfg c (List.mem_cons_of_mem a hc)
      | false => exact hrest

/-- A conjunction of parts that are answered or fault in one way is answered or faults in that
way. -/
theorem allM_ok_or_error {fault : Fault}
    (h : ∀ a ∈ as, (∃ b, f a = .ok b) ∨ f a = .error fault) :
    (∃ b, as.allM f = .ok b) ∨ as.allM f = .error fault := by
  induction as with
  | nil => exact Or.inl ⟨true, rfl⟩
  | cons a as ih =>
      rw [List.allM]
      rcases h a List.mem_cons_self with ⟨b, hb⟩ | hfault
      · rw [hb, ok_bind]
        cases b with
        | true => exact ih fun c hc => h c (List.mem_cons_of_mem a hc)
        | false => exact Or.inl ⟨false, rfl⟩
      · rw [hfault]
        exact Or.inr rfl

theorem allM_ok (h : ∀ a ∈ as, ∃ b, f a = .ok b) : ∃ b, as.allM f = .ok b := by
  induction as with
  | nil => exact ⟨true, rfl⟩
  | cons a as ih =>
      obtain ⟨b, hb⟩ := h a List.mem_cons_self
      rw [List.allM, hb, ok_bind]
      cases b with
      | true => exact ih fun c hc => h c (List.mem_cons_of_mem a hc)
      | false => exact ⟨false, rfl⟩

end Query

namespace Store

/-- `part` is an argument of `type`, a parameter of the definition `type`, or its element. -/
def PartOf (store : Store) (part type : Handle) : Prop :=
  ∃ form, store.form type = some form ∧
    (part ∈ form.arguments ∨ ∃ rank, form.array? = some (part, rank))

/-- `part` is `type` or occurs in it. Unlike `Mentions`, this looks into a definition that stands for
itself, which is the definition applied to its parameters. -/
inductive Occurs (store : Store) (part : Handle) : Handle → Prop
  | self : Occurs store part part
  | inside {type inner : Handle} (hinner : store.PartOf inner type)
      (hpart : Occurs store part inner) : Occurs store part type

variable {store : Store} {part type : Handle}

theorem PartOf.lt (hs : store.Coherent) (h : store.PartOf part type) : part < store.size := by
  obtain ⟨form, hform, harg | ⟨rank, harray⟩⟩ := h
  · obtain ⟨inner, hinner, -⟩ := hs.argument hform harg
    exact form_lt hinner
  · obtain ⟨inner, hinner, -⟩ := hs.element hform harray
    exact form_lt hinner

/-- A part comes before the type, unless the type is a definition and the part its parameter, which
has no parts. -/
theorem PartOf.lt_or_param (hs : store.Coherent) (h : store.PartOf part type) :
    part < type ∨ ∀ inner, ¬ store.PartOf inner part := by
  obtain ⟨form, hform, harg | ⟨rank, harray⟩⟩ := h
  · cases hshape : form.shape with
    | definition params =>
        refine Or.inr fun inner hinner => ?_
        obtain ⟨i, hi⟩ := List.getElem?_of_mem harg
        have hargs : form.arguments = params := by simp [Entry.arguments, hshape]
        obtain ⟨pform, info, hpform, hpshape, -⟩ := hs.paramAt hform hshape (hargs ▸ hi)
        obtain ⟨form', hform', hparts⟩ := hinner
        obtain rfl := Option.some.inj (hpform.symm.trans hform')
        simp [Entry.arguments, Entry.array?, hpshape] at hparts
    | instantiation definition args =>
        obtain ⟨-, -, parts, hparts, -⟩ := hs.instantiation hform hshape
        have hargs : form.arguments = args := by simp [Entry.arguments, hshape]
        obtain ⟨_, -, hlt, -⟩ := mem_of_forall₂ hparts (hargs ▸ harg)
        exact Or.inl hlt
    | named => simp [Entry.arguments, hshape] at harg
    | array element rank => simp [Entry.arguments, hshape] at harg
    | parameter info => simp [Entry.arguments, hshape] at harg
  · obtain ⟨_, -, -, hlt⟩ := hs.element hform harray
    exact Or.inl hlt

end Store

namespace Substitution

variable {store : Store} {sub : Substitution} {a b : Handle}

/-- The substitution binds parameters to types of the store. -/
def InRange (sub : Substitution) (store : Store) : Prop :=
  ∀ arg ∈ sub.typeArgs ++ sub.callableArgs, arg < store.size

theorem InRange.resolve (h : sub.InRange store) (ha : a < store.size) :
    ∃ a', sub.resolve store a = .ok a' ∧ a' < store.size ∧
      (a' = a ∨ a' ∈ sub.typeArgs ++ sub.callableArgs) := by
  obtain ⟨a', ha', hcases⟩ := resolve_cases sub ha
  refine ⟨a', ha', ?_, hcases⟩
  rcases hcases with rfl | harg
  · exact ha
  · exact h a' harg

/-- The walk from two types has no end. -/
def Diverges (sub : Substitution) (store : Store) (a b : Handle) : Prop :=
  ∀ fuel, sub.equalWithin store fuel a b = .error .outOfFuel

/-- What a step of the walk does: it answers, or it asks for the identity of pairs of parts. -/
theorem equalWithin_step (hs : store.Coherent) (hsub : sub.InRange store) (ha : a < store.size)
    (hb : b < store.size) :
    ∃ a', sub.resolve store a = .ok a' ∧
      ((∃ answer, ∀ fuel, sub.equalWithin store (fuel + 1) a b = .ok answer) ∨
        ∃ pairs : List (Handle × Handle),
          (∀ pair ∈ pairs, store.PartOf pair.1 a' ∧ pair.2 < store.size) ∧
          ∀ fuel, sub.equalWithin store (fuel + 1) a b =
            pairs.allM fun pair => sub.equalWithin store fuel pair.1 pair.2) := by
  obtain ⟨a', hra, halt, -⟩ := hsub.resolve ha
  obtain ⟨b', hrb, hblt, -⟩ := hsub.resolve hb
  obtain ⟨aForm, haForm⟩ := Store.form_isSome halt
  obtain ⟨bForm, hbForm⟩ := Store.form_isSome hblt
  refine ⟨a', hra, ?_⟩
  simp only [equalWithin, hra, hrb, Query.ok_bind, Store.isOpen_of_form haForm,
    Store.isOpen_of_form hbForm, Store.array?_of_form haForm, Store.array?_of_form hbForm,
    Store.definition?_of_form haForm, Store.definition?_of_form hbForm,
    Store.arguments_of_form haForm, Store.arguments_of_form hbForm]
  split
  · exact Or.inl ⟨true, fun _ => rfl⟩
  split
  · exact Or.inl ⟨false, fun _ => rfl⟩
  split
  · next aElement aRank bElement bRank haArray hbArray =>
      split
      · refine Or.inr ⟨[(aElement, bElement)], ?_, fun fuel => ?_⟩
        · simp only [List.mem_singleton, forall_eq]
          exact ⟨⟨aForm, haForm, Or.inr ⟨aRank, haArray⟩⟩,
            Store.PartOf.lt hs ⟨bForm, hbForm, Or.inr ⟨bRank, hbArray⟩⟩⟩
        · rw [List.allM]
          cases sub.equalWithin store fuel aElement bElement with
          | error fault => rfl
          | ok answer => cases answer <;> rfl
      · exact Or.inl ⟨false, fun _ => rfl⟩
  · split
    · split
      · split
        · refine Or.inr ⟨aForm.arguments.zip bForm.arguments, fun pair hpair => ?_, fun _ => rfl⟩
          obtain ⟨haArg, hbArg⟩ := List.of_mem_zip (show (pair.1, pair.2) ∈ _ from hpair)
          exact ⟨⟨aForm, haForm, Or.inl haArg⟩,
            Store.PartOf.lt hs ⟨bForm, hbForm, Or.inl hbArg⟩⟩
        · exact Or.inl ⟨false, fun _ => rfl⟩
      · exact Or.inl ⟨false, fun _ => rfl⟩
    · exact Or.inl ⟨false, fun _ => rfl⟩

/-- With any fuel a walk answers or runs out of it, and an answer stays with more fuel. -/
theorem equalWithin_total (hs : store.Coherent) (hsub : sub.InRange store) (fuel : Nat)
    (ha : a < store.size) (hb : b < store.size) :
    ((∃ answer, sub.equalWithin store fuel a b = .ok answer) ∨
        sub.equalWithin store fuel a b = .error .outOfFuel) ∧
      ∀ answer, sub.equalWithin store fuel a b = .ok answer →
        sub.equalWithin store (fuel + 1) a b = .ok answer := by
  induction fuel generalizing a b with
  | zero =>
      refine ⟨Or.inr rfl, fun answer h => ?_⟩
      cases h
  | succ fuel ih =>
      obtain ⟨a', -, ⟨answer, hanswer⟩ | ⟨pairs, hpairs, hstep⟩⟩ := equalWithin_step hs hsub ha hb
      · refine ⟨Or.inl ⟨answer, hanswer fuel⟩, fun answer' h => ?_⟩
        rw [hanswer (fuel + 1), ← hanswer fuel, h]
      · rw [hstep fuel, hstep (fuel + 1)]
        have hlt : ∀ pair ∈ pairs, pair.1 < store.size ∧ pair.2 < store.size := fun pair hpair =>
          ⟨(hpairs pair hpair).1.lt hs, (hpairs pair hpair).2⟩
        refine ⟨Query.allM_ok_or_error fun pair hpair => ?_, fun answer h =>
          Query.allM_ok_of_imp h fun pair hpair => ?_⟩
        · exact (ih (hlt pair hpair).1 (hlt pair hpair).2).1
        · exact (ih (hlt pair hpair).1 (hlt pair hpair).2).2

theorem equalWithin_le (hs : store.Coherent) (hsub : sub.InRange store) {fuel fuel' : Nat}
    (hle : fuel ≤ fuel') (ha : a < store.size) (hb : b < store.size) {answer : Bool}
    (h : sub.equalWithin store fuel a b = .ok answer) :
    sub.equalWithin store fuel' a b = .ok answer := by
  induction hle with
  | refl => exact h
  | step _ ih => exact (equalWithin_total hs hsub _ ha hb).2 answer ih

section Length

/-- The walk from the pair ends with this fuel and not with less. -/
def EndsAfter (sub : Substitution) (store : Store) (fuel : Nat) (pair : Handle × Handle) : Prop :=
  (∃ answer, sub.equalWithin store fuel pair.1 pair.2 = .ok answer) ∧
    ∀ less < fuel, sub.equalWithin store less pair.1 pair.2 = .error .outOfFuel

theorem EndsAfter.unique {fuel fuel' : Nat} {pair : Handle × Handle}
    (h : sub.EndsAfter store fuel pair) (h' : sub.EndsAfter store fuel' pair) : fuel = fuel' := by
  obtain ⟨⟨answer, hanswer⟩, hless⟩ := h
  obtain ⟨⟨answer', hanswer'⟩, hless'⟩ := h'
  rcases Nat.lt_trichotomy fuel fuel' with hlt | heq | hlt
  · rw [hless' fuel hlt] at hanswer
    cases hanswer
  · exact heq
  · rw [hless fuel' hlt] at hanswer'
    cases hanswer'

/-- A walk of more than one step goes through a pair that needs one step less. -/
theorem EndsAfter.below (hs : store.Coherent) (hsub : sub.InRange store) {fuel : Nat}
    {pair : Handle × Handle} (h : sub.EndsAfter store (fuel + 2) pair)
    (hlt : pair.1 < store.size ∧ pair.2 < store.size) :
    ∃ part : Handle × Handle, (part.1 < store.size ∧ part.2 < store.size) ∧
      sub.EndsAfter store (fuel + 1) part := by
  obtain ⟨⟨answer, hanswer⟩, hless⟩ := h
  obtain ⟨a', -, ⟨answer', hanswer'⟩ | ⟨pairs, hpairs, hstep⟩⟩ :=
    equalWithin_step hs hsub hlt.1 hlt.2
  · have hfault := hless 1 (by omega)
    rw [hanswer' 0] at hfault
    cases hfault
  · have hrange : ∀ part ∈ pairs, part.1 < store.size ∧ part.2 < store.size := fun part hpart =>
      ⟨(hpairs part hpart).1.lt hs, (hpairs part hpart).2⟩
    by_contra hnone
    -- Otherwise every part that ends at all ends one step earlier, and so does the whole walk.
    have hearlier : ∀ part ∈ pairs, ∀ answer,
        sub.equalWithin store (fuel + 1) part.1 part.2 = .ok answer →
        sub.equalWithin store fuel part.1 part.2 = .ok answer := by
      intro part hpart answer hpartAnswer
      obtain ⟨hfirst, hsecond⟩ := hrange part hpart
      rcases (equalWithin_total hs hsub fuel hfirst hsecond).1 with ⟨other, hother⟩ | hfault
      · rw [(equalWithin_total hs hsub fuel hfirst hsecond).2 other hother] at hpartAnswer
        rw [hother, hpartAnswer]
      · refine absurd ⟨part, hrange part hpart, ⟨answer, hpartAnswer⟩, fun less hlt => ?_⟩ hnone
        rcases (equalWithin_total hs hsub less hfirst hsecond).1 with ⟨other, hother⟩ | hfault'
        · rw [equalWithin_le hs hsub (Nat.le_of_lt_succ hlt) hfirst hsecond hother] at hfault
          cases hfault
        · exact hfault'
    rw [hstep (fuel + 1)] at hanswer
    have hfault := hless (fuel + 1) (Nat.lt_succ_self _)
    rw [hstep fuel, Query.allM_ok_of_imp hanswer hearlier] at hfault
    cases hfault

theorem EndsAfter.exists_of_le (hs : store.Coherent) (hsub : sub.InRange store) {fuel : Nat}
    {pair : Handle × Handle} (h : sub.EndsAfter store fuel pair)
    (hlt : pair.1 < store.size ∧ pair.2 < store.size) {less : Nat} (hpos : 1 ≤ less)
    (hle : less ≤ fuel) :
    ∃ part : Handle × Handle, (part.1 < store.size ∧ part.2 < store.size) ∧
      sub.EndsAfter store less part := by
  induction fuel generalizing pair with
  | zero => omega
  | succ fuel ih =>
      rcases Nat.lt_or_eq_of_le hle with hless | rfl
      · obtain ⟨rest, rfl⟩ : ∃ rest, fuel = rest + 1 := ⟨fuel - 1, by omega⟩
        obtain ⟨part, hpart, hends⟩ := h.below hs hsub hlt
        exact ih hends hpart (Nat.le_of_lt_succ hless)
      · exact ⟨pair, hlt, h⟩

/-- A walk that ends takes no more steps than there are pairs of types: for each smaller number of
steps there is a pair that needs just as many, and these pairs are different. -/
theorem EndsAfter.le_pairs (hs : store.Coherent) (hsub : sub.InRange store) {fuel : Nat}
    {pair : Handle × Handle} (h : sub.EndsAfter store fuel pair)
    (hlt : pair.1 < store.size ∧ pair.2 < store.size) : fuel ≤ store.size * store.size := by
  have hexists : ∀ less : Nat, ∃ part : Handle × Handle, 1 ≤ less → less ≤ fuel →
      (part.1 < store.size ∧ part.2 < store.size) ∧ sub.EndsAfter store less part := by
    intro less
    by_cases hless : 1 ≤ less ∧ less ≤ fuel
    · obtain ⟨part, hpart⟩ := h.exists_of_le hs hsub hlt hless.1 hless.2
      exact ⟨part, fun _ _ => hpart⟩
    · exact ⟨pair, fun hpos hle => absurd ⟨hpos, hle⟩ hless⟩
  choose part hpart using hexists
  have hcard : (Finset.Icc 1 fuel).card ≤
      (Finset.range store.size ×ˢ Finset.range store.size).card := by
    refine Finset.card_le_card_of_injOn part (fun less hless => ?_) fun x hx y hy hxy => ?_
    · obtain ⟨hpos, hle⟩ := Finset.mem_Icc.mp hless
      exact Finset.mem_product.mpr ⟨Finset.mem_range.mpr (hpart less hpos hle).1.1,
        Finset.mem_range.mpr (hpart less hpos hle).1.2⟩
    · obtain ⟨hposx, hlex⟩ := Finset.mem_Icc.mp hx
      obtain ⟨hposy, hley⟩ := Finset.mem_Icc.mp hy
      exact (hpart x hposx hlex).2.unique (hxy ▸ (hpart y hposy hley).2)
  rw [Finset.card_product, Finset.card_range, Nat.card_Icc] at hcard
  omega

end Length

/-- Identity is answered, or the walk has no end. -/
theorem equal_or_diverges (hs : store.Coherent) (hsub : sub.InRange store) (ha : a < store.size)
    (hb : b < store.size) : (∃ answer, sub.equal store a b = .ok answer) ∨
      sub.equal store a b = .error .outOfFuel ∧ sub.Diverges store a b := by
  by_cases hends : ∃ fuel answer, sub.equalWithin store fuel a b = .ok answer
  · left
    classical
    obtain ⟨answer, hanswer⟩ := Nat.find_spec hends
    have hfirst : sub.EndsAfter store (Nat.find hends) (a, b) := by
      refine ⟨⟨answer, hanswer⟩, fun less hless => ?_⟩
      rcases (equalWithin_total hs hsub less ha hb).1 with ⟨other, hother⟩ | hfault
      · exact absurd ⟨other, hother⟩ (Nat.find_min hends hless)
      · exact hfault
    have hle := hfirst.le_pairs hs hsub ⟨ha, hb⟩
    exact ⟨answer, equalWithin_le hs hsub (Nat.le_succ_of_le hle) ha hb hanswer⟩
  · right
    have hdiverges : sub.Diverges store a b := by
      intro fuel
      rcases (equalWithin_total hs hsub fuel ha hb).1 with ⟨answer, hanswer⟩ | hfault
      · exact absurd ⟨fuel, answer, hanswer⟩ hends
      · exact hfault
    exact ⟨hdiverges _, hdiverges⟩

/-- A walk without an end goes on without an end below some pair of parts. -/
theorem Diverges.part (hs : store.Coherent) (hsub : sub.InRange store) (ha : a < store.size)
    (hb : b < store.size) (h : sub.Diverges store a b) :
    ∃ a' part other, sub.resolve store a = .ok a' ∧ store.PartOf part a' ∧ other < store.size ∧
      sub.Diverges store part other := by
  obtain ⟨a', hra, ⟨answer, hanswer⟩ | ⟨pairs, hpairs, hstep⟩⟩ := equalWithin_step hs hsub ha hb
  · have hfault := h 1
    rw [hanswer 0] at hfault
    cases hfault
  · by_contra hnone
    have hfault : pairs.allM (fun pair => sub.equal store pair.1 pair.2) = .error .outOfFuel :=
      (hstep _).symm.trans (h _)
    have htotal : ∀ pair ∈ pairs, ∃ answer, sub.equal store pair.1 pair.2 = .ok answer := by
      intro pair hpair
      obtain ⟨hpart, hother⟩ := hpairs pair hpair
      rcases equal_or_diverges hs hsub (hpart.lt hs) hother with hanswer | ⟨-, hdiverges⟩
      · exact hanswer
      · exact absurd ⟨a', pair.1, pair.2, hra, hpart, hother, hdiverges⟩ hnone
    obtain ⟨answer, hanswer⟩ := Query.allM_ok htotal
    rw [hanswer] at hfault
    cases hfault

section Untouched

/-- No type that occurs in `type` is bound to another one. -/
def Untouched (sub : Substitution) (store : Store) (type : Handle) : Prop :=
  ∀ part, store.Occurs part type → sub.resolve store part = .ok part

theorem Untouched.part {type part : Handle} (h : sub.Untouched store type)
    (hpart : store.PartOf part type) : sub.Untouched store part :=
  fun inner hinner => h inner (.inside hpart hinner)

/-- A walk from a type that the substitution leaves alone ends: it only goes down. -/
theorem Untouched.not_diverges (hs : store.Coherent) (hsub : sub.InRange store)
    (h : sub.Untouched store a) (ha : a < store.size) (hb : b < store.size) :
    ¬ sub.Diverges store a b := by
  induction a using Nat.strong_induction_on generalizing b with
  | _ a ih =>
      intro hdiverges
      obtain ⟨a', part, other, hra, hpart, hother, hbelow⟩ := hdiverges.part hs hsub ha hb
      obtain rfl := Except.ok.inj ((h a .self).symm.trans hra)
      rcases hpart.lt_or_param hs with hlt | hparam
      · exact ih part hlt (h.part hpart) (hpart.lt hs) hother hbelow
      · -- A parameter of a definition has no parts to go down to.
        obtain ⟨part', inner, _, hrp, hinner, -⟩ := hbelow.part hs hsub (hpart.lt hs) hother
        obtain rfl := Except.ok.inj ((h.part hpart part .self).symm.trans hrp)
        exact hparam inner hinner

/-- The arguments of the substitution mention no parameter that it binds to another type. -/
def Grounded (sub : Substitution) (store : Store) : Prop :=
  ∀ arg ∈ sub.typeArgs ++ sub.callableArgs, sub.Untouched store arg

/-- Closed arguments mention no parameter at all. -/
theorem BindsClosed.grounded (hs : store.Coherent) (hsub : sub.BindsClosed store) :
    sub.Grounded store := by
  intro arg harg part hpart
  obtain ⟨form, hform, hclosed⟩ := hsub arg harg
  clear harg
  induction hpart generalizing form with
  | self => exact resolve_closed hs hform hclosed
  | inside hinner _ ih =>
      obtain ⟨form', hform', harg | ⟨rank, harray⟩⟩ := hinner
      · obtain rfl := Option.some.inj (hform.symm.trans hform')
        obtain ⟨inner, hinner, hopen⟩ := hs.argument hform harg
        exact ih inner hinner (hopen hclosed).1
      · obtain rfl := Option.some.inj (hform.symm.trans hform')
        obtain ⟨inner, hinner, hopen, -⟩ := hs.element hform harray
        exact ih inner hinner (hopen.trans hclosed)

/-- Under a grounded substitution every walk ends: once it has replaced a parameter it never does so
again below. -/
theorem Grounded.not_diverges (hs : store.Coherent) (hsub : sub.InRange store)
    (hgrounded : sub.Grounded store) (ha : a < store.size) (hb : b < store.size) :
    ¬ sub.Diverges store a b := by
  -- Below an argument the walk ends, by the previous lemma.
  have hargument : ∀ {a b : Handle}, a < store.size → b < store.size → sub.Diverges store a b →
      ∃ part other, store.PartOf part a ∧ other < store.size ∧ sub.Diverges store part other := by
    intro a b ha hb hdiverges
    obtain ⟨a', part, other, hra, hpart, hother, hbelow⟩ := hdiverges.part hs hsub ha hb
    obtain ⟨a'', hra', -, rfl | harg⟩ := hsub.resolve ha
    · obtain rfl := Except.ok.inj (hra.symm.trans hra')
      exact ⟨part, other, hpart, hother, hbelow⟩
    · obtain rfl := Except.ok.inj (hra.symm.trans hra')
      exact absurd hbelow (((hgrounded _ harg).part hpart).not_diverges hs hsub (hpart.lt hs) hother)
  induction a using Nat.strong_induction_on generalizing b with
  | _ a ih =>
      intro hdiverges
      obtain ⟨part, other, hpart, hother, hbelow⟩ := hargument ha hb hdiverges
      rcases hpart.lt_or_param hs with hlt | hparam
      · exact ih part hlt (hpart.lt hs) hother hbelow
      · obtain ⟨inner, _, hinner, -⟩ := hargument (hpart.lt hs) hother hbelow
        exact hparam inner hinner

end Untouched

end Substitution

end NominalGenerics
