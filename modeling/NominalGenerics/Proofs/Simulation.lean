import NominalGenerics.Proofs.Computation

/-!
# Related computations

Two runs of one computation on different stores do the same if they go through related steps: they
return related values or fault alike. A `MonadRelation` lifts relations between values to relations
between computations, so that returning and sequencing respect them. Queries, walks with a state and
steps that may fail are related in this way, and the rules for loops are proved once for all of
them.
-/

namespace NominalGenerics

section Lists

variable {α β γ δ : Type} {R : α → β → Prop} {S : γ → δ → Prop} {as : List α} {bs : List β}
  {cs : List γ} {ds : List δ}

theorem forall₂_zip (h : List.Forall₂ R as bs) (h' : List.Forall₂ S cs ds) :
    List.Forall₂ (fun p q => R p.1 q.1 ∧ S p.2 q.2) (as.zip cs) (bs.zip ds) := by
  induction h generalizing cs ds with
  | nil => exact .nil
  | cons hab _ ih =>
      cases h' with
      | nil => exact .nil
      | cons hcd h' => exact .cons ⟨hab, hcd⟩ (ih h')

theorem forall₂_zipIdx {start : Nat} (h : List.Forall₂ R as bs) :
    List.Forall₂ (fun p q => R p.1 q.1 ∧ p.2 = q.2) (as.zipIdx start) (bs.zipIdx start) := by
  induction h generalizing start with
  | nil => exact .nil
  | cons hab _ ih => exact .cons ⟨hab, rfl⟩ ih

theorem forall₂_append (h : List.Forall₂ R as bs) {as' : List α} {bs' : List β}
    (h' : List.Forall₂ R as' bs') : List.Forall₂ R (as ++ as') (bs ++ bs') := by
  induction h with
  | nil => exact h'
  | cons hab _ ih => exact .cons hab ih

theorem forall₂_filter {p : α → Bool} {q : β → Bool} (hpq : ∀ a b, R a b → p a = q b)
    (h : List.Forall₂ R as bs) : List.Forall₂ R (as.filter p) (bs.filter q) := by
  induction h with
  | nil => exact .nil
  | cons hab _ ih =>
      rw [List.filter_cons, List.filter_cons, hpq _ _ hab]
      split
      · exact .cons hab ih
      · exact ih

theorem forall₂_modify {f : α → α} {g : β → β} (hfg : ∀ a b, R a b → R (f a) (g b))
    (h : List.Forall₂ R as bs) (i : Nat) :
    List.Forall₂ R (as.modify i f) (bs.modify i g) := by
  induction h generalizing i with
  | nil => simp
  | cons hab htail ih =>
      cases i with
      | zero => exact .cons (hfg _ _ hab) htail
      | succ i => exact .cons hab (ih i)

theorem forall₂_set {a : α} {b : β} (hab : R a b) (h : List.Forall₂ R as bs) (i : Nat) :
    List.Forall₂ R (as.set i a) (bs.set i b) := by
  induction h generalizing i with
  | nil => exact .nil
  | cons hhead htail ih =>
      cases i with
      | zero => exact .cons hab htail
      | succ i => exact .cons hhead (ih i)

theorem rel_getElem? (h : List.Forall₂ R as bs) (i : Nat) : Option.Rel R as[i]? bs[i]? := by
  induction h generalizing i with
  | nil => exact .none
  | cons hab _ ih =>
      cases i with
      | zero => exact .some hab
      | succ i => simpa using ih i

end Lists

/-- Results are related if both are values and these are, or both are the same error. -/
inductive Alike {ε α β : Type} (R : α → β → Prop) : Except ε α → Except ε β → Prop
  | ok {a : α} {b : β} (h : R a b) : Alike R (.ok a) (.ok b)
  | error (e : ε) : Alike R (.error e) (.error e)

/-- Results are equal if related values are. -/
theorem Alike.eq_of {ε α : Type} {R : α → α → Prop} {x y : Except ε α} (h : Alike R x y)
    (hR : ∀ a b, R a b → a = b) : x = y := by
  cases h with
  | ok h => rw [hR _ _ h]
  | error e => rfl

theorem Alike.eq {ε α : Type} {x y : Except ε α} (h : Alike (· = ·) x y) : x = y :=
  h.eq_of fun _ _ h => h

/-- A lifting of relations between values to relations between the computations of two monads. -/
structure MonadRelation (m n : Type → Type) [Monad m] [Monad n] where
  Rel {α β : Type} (R : α → β → Prop) : m α → n β → Prop
  pure {α β : Type} {R : α → β → Prop} {a : α} {b : β} (h : R a b) : Rel R (pure a) (pure b)
  bind {α β γ δ : Type} {R : α → β → Prop} {S : γ → δ → Prop} {x : m α} {y : n β} {f : α → m γ}
    {g : β → n δ} (hx : Rel R x y) (hf : ∀ a b, R a b → Rel S (f a) (g b)) :
    Rel S (x >>= f) (y >>= g)

namespace MonadRelation

section Loops

variable {m n : Type → Type} [Monad m] [Monad n] (L : MonadRelation m n) {α β γ δ : Type}
  {R : α → β → Prop} {S : γ → δ → Prop} {as : List α} {bs : List β}

theorem allM {f : α → m Bool} {g : β → n Bool} (h : List.Forall₂ R as bs)
    (hf : ∀ a b, R a b → L.Rel (· = ·) (f a) (g b)) :
    L.Rel (· = ·) (as.allM f) (bs.allM g) := by
  induction h with
  | nil => exact L.pure rfl
  | cons hab _ ih =>
      refine L.bind (hf _ _ hab) ?_
      rintro answer _ rfl
      cases answer with
      | true => exact ih
      | false => exact L.pure rfl

theorem anyM {f : α → m Bool} {g : β → n Bool} (h : List.Forall₂ R as bs)
    (hf : ∀ a b, R a b → L.Rel (· = ·) (f a) (g b)) :
    L.Rel (· = ·) (as.anyM f) (bs.anyM g) := by
  induction h with
  | nil => exact L.pure rfl
  | cons hab _ ih =>
      refine L.bind (hf _ _ hab) ?_
      rintro answer _ rfl
      cases answer with
      | true => exact L.pure rfl
      | false => exact ih

theorem forM {f : α → m PUnit} {g : β → n PUnit} (h : List.Forall₂ R as bs)
    (hf : ∀ a b, R a b → L.Rel (· = ·) (f a) (g b)) :
    L.Rel (· = ·) (as.forM f) (bs.forM g) := by
  induction h with
  | nil => exact L.pure rfl
  | cons hab _ ih => exact L.bind (hf _ _ hab) fun _ _ _ => ih

theorem mapM [LawfulMonad m] [LawfulMonad n] {f : α → m γ} {g : β → n δ}
    (h : List.Forall₂ R as bs) (hf : ∀ a b, R a b → L.Rel S (f a) (g b)) :
    L.Rel (List.Forall₂ S) (as.mapM f) (bs.mapM g) := by
  induction h with
  | nil => simpa using L.pure List.Forall₂.nil
  | cons hab _ ih =>
      rw [List.mapM_cons, List.mapM_cons]
      refine L.bind (hf _ _ hab) fun c d hcd => ?_
      exact L.bind ih fun cs ds h => L.pure (.cons hcd h)

theorem ite {p q : Prop} [Decidable p] [Decidable q] (hpq : p ↔ q) {x x' : m α} {y y' : n β}
    (hx : p → L.Rel R x y) (hx' : ¬ p → L.Rel R x' y') :
    L.Rel R (if p then x else x') (if q then y else y') := by
  by_cases hp : p
  · rw [if_pos hp, if_pos (hpq.mp hp)]
    exact hx hp
  · rw [if_neg hp, if_neg fun hq => hp (hpq.mpr hq)]
    exact hx' hp

/-- Branching on answers that agree. -/
theorem branch {a b : Bool} (hab : a = b) {x x' : m α} {y y' : n β} (hx : L.Rel R x y)
    (hx' : L.Rel R x' y') :
    L.Rel R (if a then x else x') (if b then y else y') := by
  subst hab
  exact L.ite Iff.rfl (fun _ => hx) fun _ => hx'

end Loops

/-- Queries agree if their results do. -/
def query : MonadRelation Query Query where
  Rel := Alike
  pure h := .ok h
  bind hx hf := by
    cases hx with
    | ok h => exact hf _ _ h
    | error e => exact .error e

theorem query_refl {α : Type} (x : Query α) : query.Rel (· = ·) x x := by
  cases x with
  | ok a => exact .ok rfl
  | error fault => exact .error fault

/-- Walks from related states agree in their results and end in related states. -/
def withState {m n : Type → Type} [Monad m] [Monad n] (L : MonadRelation m n) {σ τ : Type}
    (S : σ → τ → Prop) : MonadRelation (StateT σ m) (StateT τ n) where
  Rel R x y := ∀ s t, S s t → L.Rel (fun p q => R p.1 q.1 ∧ S p.2 q.2) (x.run s) (y.run t)
  pure h := fun _ _ hst => L.pure ⟨h, hst⟩
  bind hx hf := fun s t hst => by
    rw [StateT.run_bind, StateT.run_bind]
    exact L.bind (hx s t hst) fun p q hpq => hf p.1 q.1 hpq.1 p.2 q.2 hpq.2

theorem withState_get {m n : Type → Type} [Monad m] [Monad n] (L : MonadRelation m n) {σ τ : Type}
    {S : σ → τ → Prop} : (L.withState S).Rel S (get : StateT σ m σ) (get : StateT τ n τ) :=
  fun _ _ hst => L.pure ⟨hst, hst⟩

theorem withState_set {m n : Type → Type} [Monad m] [Monad n] (L : MonadRelation m n) {σ τ : Type}
    {S : σ → τ → Prop} {s : σ} {t : τ} (hst : S s t) :
    (L.withState S).Rel (· = ·) (set s : StateT σ m PUnit) (set t : StateT τ n PUnit) :=
  fun _ _ _ => L.pure ⟨rfl, hst⟩

theorem withState_modify {m n : Type → Type} [Monad m] [Monad n] (L : MonadRelation m n)
    {σ τ : Type} {S : σ → τ → Prop} {f : σ → σ} {g : τ → τ} (hfg : ∀ s t, S s t → S (f s) (g t)) :
    (L.withState S).Rel (· = ·) (modify f : StateT σ m PUnit) (modify g : StateT τ n PUnit) :=
  fun s t hst => L.pure ⟨rfl, hfg s t hst⟩

/-- Steps that may fail agree if they fail in the same way or give related results. -/
def withError {m n : Type → Type} [Monad m] [Monad n] (L : MonadRelation m n) (ε : Type) :
    MonadRelation (ExceptT ε m) (ExceptT ε n) where
  Rel R x y := L.Rel (Alike R) x.run y.run
  pure h := L.pure (.ok h)
  bind hx hf := by
    refine L.bind hx ?_
    rintro _ _ (h | e)
    · exact hf _ _ h
    · exact L.pure (.error e)

section Errors

variable {m n : Type → Type} [Monad m] [Monad n] (L : MonadRelation m n) {ε α β : Type}
  {R : α → β → Prop}

theorem withError_throw (e : ε) :
    (L.withError ε).Rel R (throw e : ExceptT ε m α) (throw e : ExceptT ε n β) :=
  L.pure (.error e)

theorem withError_lift [LawfulMonad m] [LawfulMonad n] {x : m α} {y : n β} (h : L.Rel R x y) :
    (L.withError ε).Rel R (ExceptT.lift x : ExceptT ε m α) (ExceptT.lift y : ExceptT ε n β) := by
  show L.Rel (Alike R) (Except.ok <$> x) (Except.ok <$> y)
  rw [map_eq_pure_bind, map_eq_pure_bind]
  exact L.bind h fun a b hab => L.pure (.ok hab)

theorem withError_tryCatch {x : ExceptT ε m α} {y : ExceptT ε n β} {f : ε → ExceptT ε m α}
    {g : ε → ExceptT ε n β} (h : (L.withError ε).Rel R x y)
    (hfg : ∀ e, (L.withError ε).Rel R (f e) (g e)) :
    (L.withError ε).Rel R (tryCatch x f) (tryCatch y g) := by
  refine L.bind h ?_
  rintro _ _ (hab | e)
  · exact L.pure (.ok hab)
  · exact hfg e

end Errors

section Queries

variable {α β : Type} {R : α → β → Prop} {as : List α} {bs : List β}

theorem first? {test : α → Query Bool} {test' : β → Query Bool} (h : List.Forall₂ R as bs)
    (htest : ∀ a b, R a b → query.Rel (· = ·) (test a) (test' b)) :
    query.Rel (Option.Rel R) (Query.first? test as) (Query.first? test' bs) := by
  induction h with
  | nil => exact query.pure .none
  | cons hab _ ih =>
      refine query.bind (htest _ _ hab) ?_
      rintro answer _ rfl
      exact query.branch rfl (query.pure (.some hab)) ih

theorem select {test : α → Query Bool} {test' : β → Query Bool} (h : List.Forall₂ R as bs)
    (htest : ∀ a b, R a b → query.Rel (· = ·) (test a) (test' b)) :
    query.Rel (List.Forall₂ R) (Query.select test as) (Query.select test' bs) := by
  induction h with
  | nil => exact query.pure .nil
  | cons hab _ ih =>
      refine query.bind (htest _ _ hab) ?_
      rintro answer _ rfl
      exact query.branch rfl (query.bind ih fun _ _ h => query.pure (.cons hab h)) ih

/-- Loops over related elements that read the same give the same. -/
theorem mapM_eq {γ : Type} {f : α → Query γ} {g : β → Query γ} (h : List.Forall₂ R as bs)
    (hfg : ∀ a b, R a b → query.Rel (· = ·) (f a) (g b)) :
    query.Rel (· = ·) (as.mapM f) (bs.mapM g) := by
  have hsame := query.mapM (S := Eq) h hfg
  rwa [List.forall₂_eq_eq_eq] at hsame

theorem lift_query {σ τ : Type} {S : σ → τ → Prop} {x : Query α} {y : Query β}
    (h : query.Rel R x y) :
    (query.withState S).Rel R (liftM x : StateT σ Query α) (liftM y : StateT τ Query β) := by
  intro s t hst
  cases h with
  | ok h => exact .ok ⟨h, hst⟩
  | error e => exact .error e

end Queries

end MonadRelation

end NominalGenerics
