import NominalGenerics.Fault
import Mathlib.Data.List.Forall2

/-!
# Running computations that may fault

Queries are values of `Except Fault`, and the steps that change a store, a guard or a collector are
state transformers over them. This module says what it means for a sequence of steps to end without
a fault, and packages the two arguments that recur for loops: what every element of a list gives,
and what every step of a loop preserves.
-/

namespace NominalGenerics

/-- Lists are related elementwise if they have one length and related elements at each position. -/
theorem forall₂_iff_getElem? {α β : Type} {R : α → β → Prop} {as : List α} {bs : List β} :
    List.Forall₂ R as bs ↔ as.length = bs.length ∧
      ∀ (i : Nat) a b, as[i]? = some a → bs[i]? = some b → R a b := by
  rw [List.forall₂_iff_get]
  refine and_congr_right fun _ => ⟨fun h i a b ha hb => ?_, fun h i ha hb => ?_⟩
  · obtain ⟨hi, rfl⟩ := List.getElem?_eq_some_iff.mp ha
    obtain ⟨hj, rfl⟩ := List.getElem?_eq_some_iff.mp hb
    exact h i hi hj
  · exact h i _ _ (List.getElem?_eq_getElem ha) (List.getElem?_eq_getElem hb)

/-- Lists related elementwise to one list are related to each other. -/
theorem forall₂_of_common {α β γ : Type} {R : α → β → Prop} {S : α → γ → Prop} {T : β → γ → Prop}
    {as : List α} {bs : List β} {cs : List γ} (hR : List.Forall₂ R as bs)
    (hS : List.Forall₂ S as cs) (hT : ∀ a ∈ as, ∀ b c, R a b → S a c → T b c) :
    List.Forall₂ T bs cs := by
  induction hR generalizing cs with
  | nil =>
      cases hS
      exact .nil
  | cons hab _ ih =>
      cases hS with
      | cons hac hS =>
          exact .cons (hT _ List.mem_cons_self _ _ hab hac)
            (ih hS fun a ha => hT a (List.mem_cons_of_mem _ ha))

theorem getElem?_of_length_eq {α β : Type} {as : List α} {bs : List β} {i : Nat} {b : β}
    (hlength : as.length = bs.length) (h : bs[i]? = some b) : ∃ a, as[i]? = some a := by
  obtain ⟨hi, -⟩ := List.getElem?_eq_some_iff.mp h
  exact ⟨as[i], List.getElem?_eq_getElem (hlength ▸ hi)⟩

theorem mem_of_forall₂ {α β : Type} {R : α → β → Prop} {as : List α} {bs : List β}
    (h : List.Forall₂ R as bs) {a : α} (ha : a ∈ as) : ∃ b ∈ bs, R a b := by
  obtain ⟨i, hi⟩ := List.getElem?_of_mem ha
  obtain ⟨hlength, hrel⟩ := forall₂_iff_getElem?.mp h
  obtain ⟨b, hb⟩ := getElem?_of_length_eq hlength.symm hi
  exact ⟨b, List.mem_of_getElem? hb, hrel i a b hi hb⟩

theorem eq_of_getElem? {α : Type} {as bs : List α} (hlength : as.length = bs.length)
    (h : ∀ (i : Nat) a b, as[i]? = some a → bs[i]? = some b → a = b) : as = bs := by
  have hforall : List.Forall₂ Eq as bs := forall₂_iff_getElem?.mpr ⟨hlength, h⟩
  rwa [List.forall₂_eq_eq_eq] at hforall

/-- A statement about the pairs of two lists is one about their elements at each position. -/
theorem forall_mem_zip {α β : Type} {R : α → β → Prop} {as : List α} {bs : List β} :
    (∀ p ∈ as.zip bs, R p.1 p.2) ↔
      ∀ (i : Nat) a b, as[i]? = some a → bs[i]? = some b → R a b := by
  constructor
  · intro h i a b ha hb
    exact h (a, b) (List.mem_of_getElem? (List.getElem?_zip_eq_some.mpr ⟨ha, hb⟩))
  · rintro h ⟨a, b⟩ hp
    obtain ⟨i, hi⟩ := List.getElem?_of_mem hp
    obtain ⟨ha, hb⟩ := List.getElem?_zip_eq_some.mp hi
    exact h i a b ha hb

/-- The same where the statement reads the position. -/
theorem forall_mem_zip_zipIdx {α β : Type} {R : Nat → α → β → Prop} {as : List α} {bs : List β} :
    (∀ p ∈ (as.zip bs).zipIdx, R p.2 p.1.1 p.1.2) ↔
      ∀ (i : Nat) a b, as[i]? = some a → bs[i]? = some b → R i a b := by
  constructor
  · intro h i a b ha hb
    exact h ((a, b), i) (List.mem_zipIdx_iff_getElem?.mpr
      (List.getElem?_zip_eq_some.mpr ⟨ha, hb⟩))
  · rintro h ⟨⟨a, b⟩, i⟩ hp
    obtain ⟨ha, hb⟩ := List.getElem?_zip_eq_some.mp (List.mem_zipIdx_iff_getElem?.mp hp)
    exact h i a b ha hb

namespace Query

variable {α β : Type}

theorem bind_eq_ok {x : Query α} {f : α → Query β} {b : β} :
    (x >>= f) = .ok b ↔ ∃ a, x = .ok a ∧ f a = .ok b := by
  cases x with
  | error fault => simp [bind, Except.bind]
  | ok a => simp [bind, Except.bind]

@[simp] theorem pure_eq_ok {a b : α} : (pure a : Query α) = .ok b ↔ a = b := by
  simp [pure, Except.pure]

@[simp] theorem ok_bind (a : α) (f : α → Query β) : (Except.ok a >>= f) = f a := rfl

theorem mapM_eq_ok {f : α → Query β} {as : List α} {bs : List β} :
    as.mapM f = .ok bs ↔ List.Forall₂ (fun a b => f a = .ok b) as bs := by
  induction as generalizing bs with
  | nil => cases bs <;> simp
  | cons a as ih =>
      simp only [List.mapM_cons, bind_eq_ok, pure_eq_ok, ih, List.forall₂_cons_left_iff]
      constructor
      · rintro ⟨b, hb, rest, hrest, rfl⟩
        exact ⟨b, rest, hb, hrest, rfl⟩
      · rintro ⟨b, rest, hb, hrest, rfl⟩
        exact ⟨b, hb, rest, hrest, rfl⟩

theorem mem_of_mapM {f : α → Query β} {as : List α} {bs : List β} (h : as.mapM f = .ok bs) {a : α}
    (ha : a ∈ as) : ∃ b ∈ bs, f a = .ok b :=
  mem_of_forall₂ (mapM_eq_ok.mp h) ha

/-- A search whose test is total finds the first element that passes it. -/
theorem first?_of_total {test : α → Query Bool} {p : α → Bool} {as : List α}
    (h : ∀ a ∈ as, test a = .ok (p a)) : first? test as = .ok (as.find? p) := by
  induction as with
  | nil => rfl
  | cons a as ih =>
      have hrest := ih fun b hb => h b (List.mem_cons_of_mem a hb)
      rw [first?, h a List.mem_cons_self, ok_bind, List.find?_cons]
      cases p a with
      | true => rfl
      | false => simpa using hrest

theorem select_of_total {test : α → Query Bool} {p : α → Bool} {as : List α}
    (h : ∀ a ∈ as, test a = .ok (p a)) : select test as = .ok (as.filter p) := by
  induction as with
  | nil => rfl
  | cons a as ih =>
      have hrest := ih fun b hb => h b (List.mem_cons_of_mem a hb)
      rw [select, h a List.mem_cons_self, ok_bind, List.filter_cons]
      cases p a with
      | true => simp [hrest, pure, Except.pure]
      | false => simpa using hrest

/-- The query answers the question `P` and does not fault. -/
def Answers (x : Query Bool) (P : Prop) : Prop := ∃ b, x = .ok b ∧ (b = true ↔ P)

theorem Answers.congr {x : Query Bool} {P Q : Prop} (h : Answers x P) (hPQ : P ↔ Q) :
    Answers x Q := by
  obtain ⟨b, hb, hP⟩ := h
  exact ⟨b, hb, hP.trans hPQ⟩

theorem answers_true {P : Prop} (h : P) : Answers (pure true) P := ⟨true, rfl, by simp [h]⟩

theorem answers_false {P : Prop} (h : ¬ P) : Answers (pure false) P := ⟨false, rfl, by simp [h]⟩

theorem answers_allM {test : α → Query Bool} {P : α → Prop} {as : List α}
    (h : ∀ a ∈ as, Answers (test a) (P a)) : Answers (as.allM test) (∀ a ∈ as, P a) := by
  induction as with
  | nil => exact answers_true (by simp)
  | cons a as ih =>
      obtain ⟨b, hb, hP⟩ := h a List.mem_cons_self
      rw [List.allM, hb, ok_bind]
      cases b with
      | true =>
          refine (ih fun c hc => h c (List.mem_cons_of_mem a hc)).congr ?_
          simp [hP.mp rfl]
      | false =>
          refine answers_false fun hall => ?_
          have := hP.mpr (hall a List.mem_cons_self)
          cases this

end Query

section Steps

variable {σ α β : Type}

theorem run_bind_eq_ok {x : StateT σ Query α} {f : α → StateT σ Query β} {s s' : σ} {b : β} :
    (x >>= f).run s = .ok (b, s') ↔
      ∃ a t, x.run s = .ok (a, t) ∧ (f a).run t = .ok (b, s') := by
  rw [StateT.run_bind, Query.bind_eq_ok]
  constructor
  · rintro ⟨⟨a, t⟩, hx, hf⟩
    exact ⟨a, t, hx, hf⟩
  · rintro ⟨a, t, hx, hf⟩
    exact ⟨(a, t), hx, hf⟩

theorem run_pure_eq_ok {a b : α} {s s' : σ} :
    (pure a : StateT σ Query α).run s = .ok (b, s') ↔ a = b ∧ s = s' := by
  rw [StateT.run_pure, Query.pure_eq_ok, Prod.mk.injEq]

theorem run_lift_eq_ok {x : Query α} {s s' : σ} {a : α} :
    (liftM x : StateT σ Query α).run s = .ok (a, s') ↔ x = .ok a ∧ s = s' := by
  cases x with
  | error fault => simp [liftM, bind, Except.bind]
  | ok b => simp [liftM, bind, Except.bind, pure, Except.pure]

theorem run_mapM_lift_eq_ok {f : α → Query β} {as : List α} {bs : List β} {s s' : σ} :
    (as.mapM fun a => (liftM (f a) : StateT σ Query β)).run s = .ok (bs, s') ↔
      List.Forall₂ (fun a b => f a = .ok b) as bs ∧ s = s' := by
  induction as generalizing bs s s' with
  | nil => cases bs <;> simp
  | cons a as ih =>
      simp only [List.mapM_cons, run_bind_eq_ok, run_lift_eq_ok, run_pure_eq_ok, ih,
        List.forall₂_cons_left_iff]
      constructor
      · rintro ⟨b, _, ⟨hb, rfl⟩, rest, _, ⟨hrest, rfl⟩, rfl, rfl⟩
        exact ⟨⟨b, rest, hb, hrest, rfl⟩, rfl⟩
      · rintro ⟨⟨b, rest, hb, hrest, rfl⟩, rfl⟩
        exact ⟨b, s, ⟨hb, rfl⟩, rest, s, ⟨hrest, rfl⟩, rfl, rfl⟩

/-- A step lifted to where errors can be thrown. -/
theorem run_liftM {ε : Type} (x : StateT σ Query α) :
    (liftM x : ExceptT ε (StateT σ Query) α).run = x >>= fun a => pure (.ok a) := by
  rw [bind_pure_comp]
  rfl

theorem run_getThe_bind {ε : Type} (f : σ → ExceptT ε (StateT σ Query) α) (s : σ) :
    (getThe σ >>= f).run.run s = (f s).run.run s := rfl

theorem run_adapt {ε ε' : Type} (f : ε → ε') (x : ExceptT ε (StateT σ Query) α) :
    (ExceptT.adapt f x).run = x.run >>= fun outcome => pure (outcome.mapError f) := by
  rw [bind_pure_comp]
  rfl

end Steps

end NominalGenerics
