import NominalGenerics.Proofs.Store.Derivation
import NominalGenerics.TypeExpr.Reader

/-!
# Computations as operations

Computations that may stop with an error change a store only by the operations of `Operation`, on
handles that exist. `Steps` follows such a computation: whatever its outcome, it performs operations
of a given kind. So what operations keep is kept by all of them. Reading a type expression performs
the instantiations that the text applies and makes arrays, and nothing else.
-/

namespace NominalGenerics

/-- Operations of a kind, each allowed where it is performed, lead from one store to another. -/
inductive Performs (P : Store → Operation → Prop) : Store → Store → Prop
  | refl (s : Store) : Performs P s s
  | step {s mid s' : Store} {op : Operation} (hallowed : op.Allowed s) (hop : P s op)
      (hrun : op.run.run s = .ok ((), mid)) (hrest : Performs P mid s') : Performs P s s'

namespace Performs

variable {P Q : Store → Operation → Prop} {s s' : Store}

theorem single {op : Operation} (hallowed : op.Allowed s) (hop : P s op)
    (hrun : op.run.run s = .ok ((), s')) : Performs P s s' :=
  .step hallowed hop hrun (.refl s')

theorem trans {mid : Store} (h : Performs P s mid) (h' : Performs P mid s') : Performs P s s' := by
  induction h with
  | refl => exact h'
  | step hallowed hop hrun _ ih => exact .step hallowed hop hrun (ih h')

theorem mono (h : Performs P s s') (hPQ : ∀ t op, P t op → Q t op) : Performs Q s s' := by
  induction h with
  | refl => exact .refl _
  | step hallowed hop hrun _ ih => exact .step hallowed (hPQ _ _ hop) hrun ih

/-- What each operation keeps is kept by all of them. -/
theorem keeps {I : Store → Prop} (h : Performs P s s') (hs : I s)
    (hstep : ∀ {t t' : Store} {op : Operation}, I t → op.Allowed t → P t op →
      op.run.run t = .ok ((), t') → I t') : I s' := by
  induction h with
  | refl => exact hs
  | step hallowed hop hrun _ ih => exact ih (hstep hs hallowed hop hrun)

theorem reachable (h : Performs P s s') (hs : s.Reachable) : s'.Reachable :=
  h.keeps hs fun ht hallowed _ hrun => ht.step hallowed hrun

theorem lawful (h : Performs P s s') (hs : s.Lawful) : s'.Lawful :=
  h.keeps hs fun ht hallowed _ hrun => ht.step hallowed hrun

theorem finished (h : Performs P s s') (hs : s.Lawful) (hP : ∀ t op, P t op → op ≠ .finish) :
    s'.finished = s.finished := by
  refine (h.keeps (I := fun t => t.Lawful ∧ t.finished = s.finished) ⟨hs, rfl⟩ ?_).2
  intro t t' op ht hallowed hop hrun
  exact ⟨ht.1.step hallowed hrun, (Store.finished_of_run ht.1 (hP _ _ hop) hrun).trans ht.2⟩

/-- Each operation knows those before it. -/
theorem history {start : Store} (hbefore : Performs P start s) (h : Performs P s s') :
    Performs (fun t op => Performs P start t ∧ P t op) s s' := by
  induction h with
  | refl => exact .refl _
  | step hallowed hop hrun _ ih =>
      exact .step hallowed ⟨hbefore, hop⟩ hrun (ih (hbefore.trans (.single hallowed hop hrun)))

end Performs

theorem Performs.names {P : Store → Operation → Prop} {s s' : Store} (h : Performs P s s')
    (hs : s.Lawful) : s.Names s' := by
  induction h with
  | refl => exact .refl _
  | step hallowed _ hrun _ ih =>
      exact (hs.names hallowed hrun).trans (ih (hs.step hallowed hrun))

/-- Whether the operation adds no types but instantiations, arrays and type parameters, and leaves
declared types as they are. -/
def Operation.isPlain : Operation → Bool
  | setValueTypeRoot .. | setArrayRoot .. | setOptionalWrapper .. | addSequenceInterface ..
  | instantiate .. | arrayOf .. | declareCallable .. | addParameter .. | setReturnType ..
  | setDeclaringType .. | addConstraint .. => true
  | _ => false

/-- Plain operations. -/
def Plain (_ : Store) (op : Operation) : Prop := op.isPlain = true

/-- Operations that do not complete the declarations. -/
def Nonfinal (_ : Store) (op : Operation) : Prop := op ≠ .finish

theorem plain_ne_finish (s : Store) (op : Operation) (h : Plain s op) : op ≠ .finish := by
  rintro rfl
  cases h

/-- A plain operation keeps a robust invariant that new type parameters keep. -/
theorem Store.Robust.plain {I : Store → Prop} (h : Robust I)
    (hparams : ∀ {s : Store} {new : List Entry} {callables : Array Signature}, I s →
      (∀ entry ∈ new, entry.isParameter = true) → I (s.appended new callables))
    {s s' : Store} {op : Operation} (hs : I s) (hlawful : s.Lawful) (hop : Plain s op)
    (hrun : op.run.run s = .ok ((), s')) : I s' := by
  cases op with
  | setValueTypeRoot type => cases hrun; exact h.of_types hs rfl
  | setArrayRoot type => cases hrun; exact h.of_types hs rfl
  | setOptionalWrapper definition => cases hrun; exact h.of_types hs rfl
  | addSequenceInterface definition => cases hrun; exact h.of_types hs rfl
  | instantiate definition args =>
      obtain ⟨_, hrun⟩ := run_discard_eq_ok hrun
      exact h.instantiate hs hlawful definition args _ _ hrun
  | arrayOf element rank =>
      obtain ⟨_, hrun⟩ := run_discard_eq_ok hrun
      exact h.arrayOf hs hlawful element rank _ _ hrun
  | declareCallable name typeParams =>
      obtain ⟨_, hrun⟩ := run_discard_eq_ok hrun
      rw [declareCallable_run hrun]
      refine hparams hs fun entry hentry => ?_
      obtain ⟨_, -, rfl⟩ := List.mem_map.mp hentry
      rfl
  | addParameter id type mode => cases hrun; exact h.of_types hs rfl
  | setReturnType id type => cases hrun; exact h.of_types hs rfl
  | setDeclaringType id type => cases hrun; exact h.of_types hs rfl
  | addConstraint param constraint =>
      refine h.modifyEntry hs (fun entry _ => ?_) _ _ hrun
      split
      · next info hshape =>
          refine ⟨by simp [Entry.core, hshape, Shape.bare], ?_, ?_⟩
          · simp [hshape]
          · simp [hshape]
      · exact .refl entry
  | _ => cases hop

section Following

variable {P : Store → Operation → Prop} {ε ε' α β : Type} {s : Store}

/-- Whatever the outcome, the computation performs operations of the kind. A result satisfies
`post`. -/
def Steps (P : Store → Operation → Prop) (x : ExceptT ε StoreM α) (s : Store)
    (post : α → Store → Prop) : Prop :=
  ∀ outcome s', x.run.run s = .ok (outcome, s') →
    Performs P s s' ∧ ∀ a, outcome = .ok a → post a s'

namespace Steps

variable {x : ExceptT ε StoreM α} {post : α → Store → Prop}

theorem pure {a : α} (h : post a s) : Steps P (pure a : ExceptT ε StoreM α) s post := by
  intro outcome s' hrun
  cases hrun
  exact ⟨.refl s, by rintro _ ⟨⟩; exact h⟩

theorem throw (e : ε) : Steps P (throw e : ExceptT ε StoreM α) s post := by
  intro outcome s' hrun
  cases hrun
  exact ⟨.refl s, by rintro _ ⟨⟩⟩

theorem bind_run {f : α → ExceptT ε StoreM β} {post' : β → Store → Prop} (hx : Steps P x s post)
    (hf : ∀ a mid, x.run.run s = .ok (.ok a, mid) → Performs P s mid → post a mid →
      Steps P (f a) mid post') :
    Steps P (x >>= f) s post' := by
  intro outcome s' hrun
  rw [ExceptT.run_bind] at hrun
  obtain ⟨first, mid, hfirst, hrun⟩ := run_bind_eq_ok.mp hrun
  obtain ⟨hperforms, hpost⟩ := hx first mid hfirst
  cases first with
  | ok a =>
      obtain ⟨hperforms', hpost'⟩ := hf a mid hfirst hperforms (hpost a rfl) outcome s' hrun
      exact ⟨hperforms.trans hperforms', hpost'⟩
  | error e =>
      cases hrun
      exact ⟨hperforms, by rintro _ ⟨⟩⟩

theorem bind {f : α → ExceptT ε StoreM β} {post' : β → Store → Prop} (hx : Steps P x s post)
    (hf : ∀ a mid, Performs P s mid → post a mid → Steps P (f a) mid post') :
    Steps P (x >>= f) s post' :=
  hx.bind_run fun a mid _ => hf a mid

theorem get_bind {f : Store → ExceptT ε StoreM β} {post : β → Store → Prop}
    (h : Steps P (f s) s post) : Steps P (getThe Store >>= f) s post := h

theorem query_bind {q : Query α} {f : α → ExceptT ε StoreM β} {post : β → Store → Prop}
    (h : ∀ a, q = .ok a → Steps P (f a) s post) :
    Steps P ((liftM q : ExceptT ε StoreM α) >>= f) s post := by
  cases q with
  | ok a => exact h a rfl
  | error fault =>
      intro outcome s' hrun
      cases hrun

theorem query {q : Query α} (h : ∀ a, q = .ok a → post a s) :
    Steps P (liftM q : ExceptT ε StoreM α) s post := by
  cases q with
  | ok a => exact .pure (h a rfl)
  | error fault =>
      intro outcome s' hrun
      cases hrun

theorem lift {y : StoreM α}
    (h : ∀ a s', y.run s = .ok (a, s') → Performs P s s' ∧ post a s') :
    Steps P (liftM y : ExceptT ε StoreM α) s post := by
  intro outcome s' hrun
  rw [run_liftM] at hrun
  obtain ⟨a, mid, hy, hrun⟩ := run_bind_eq_ok.mp hrun
  obtain ⟨rfl, rfl⟩ := run_pure_eq_ok.mp hrun
  obtain ⟨hperforms, hpost⟩ := h a mid hy
  exact ⟨hperforms, by rintro _ ⟨⟩; exact hpost⟩

theorem adapt (h : Steps P x s post) (f : ε → ε') : Steps P (ExceptT.adapt f x) s post := by
  intro outcome s' hrun
  rw [run_adapt] at hrun
  obtain ⟨first, mid, hfirst, hrun⟩ := run_bind_eq_ok.mp hrun
  obtain ⟨rfl, rfl⟩ := run_pure_eq_ok.mp hrun
  obtain ⟨hperforms, hpost⟩ := h first mid hfirst
  refine ⟨hperforms, fun a ha => hpost a ?_⟩
  cases first with
  | ok b =>
      cases ha
      rfl
  | error e => cases ha

theorem imp {post' : α → Store → Prop} (h : Steps P x s post)
    (hpost : ∀ a s', Performs P s s' → post a s' → post' a s') : Steps P x s post' := by
  intro outcome s' hrun
  obtain ⟨hperforms, hresult⟩ := h outcome s' hrun
  exact ⟨hperforms, fun a ha => hpost a s' hperforms (hresult a ha)⟩

theorem mono {Q : Store → Operation → Prop} (h : Steps P x s post)
    (hPQ : ∀ t op, P t op → Q t op) : Steps Q x s post := by
  intro outcome s' hrun
  obtain ⟨hperforms, hresult⟩ := h outcome s' hrun
  exact ⟨hperforms.mono hPQ, hresult⟩

/-- A loop whose steps keep an invariant. -/
theorem forM {f : α → ExceptT ε StoreM PUnit} {I : Store → Prop} {as : List α} (hs : I s)
    (hf : ∀ a ∈ as, ∀ t, I t → Steps P (f a) t fun _ t' => I t') :
    Steps P (as.forM f) s fun _ s' => I s' := by
  induction as generalizing s with
  | nil => exact .pure hs
  | cons a as ih =>
      exact (hf a List.mem_cons_self s hs).bind fun _ t _ ht =>
        ih ht fun c hc => hf c (List.mem_cons_of_mem a hc)

/-- A loop whose steps keep an invariant. Each establishes a fact that later steps keep. -/
theorem forM_each {f : α → ExceptT ε StoreM PUnit} {I : Store → Prop} {Q : α → Store → Prop}
    {as : List α} (hs : I s)
    (hkeep : ∀ a t t', I t → Performs P t t' → Q a t → Q a t')
    (hf : ∀ a ∈ as, ∀ t, I t → Steps P (f a) t fun _ t' => I t' ∧ Q a t') :
    Steps P (as.forM f) s fun _ s' => I s' ∧ ∀ a ∈ as, Q a s' := by
  induction as generalizing s with
  | nil => exact .pure ⟨hs, by simp⟩
  | cons a as ih =>
      refine (hf a List.mem_cons_self s hs).bind fun _ t _ ht => ?_
      refine (ih ht.1 fun c hc => hf c (List.mem_cons_of_mem a hc)).imp fun _ s' hperforms h => ?_
      exact ⟨h.1, List.forall_mem_cons.mpr ⟨hkeep a t s' ht.1 hperforms ht.2, h.2⟩⟩

/-- A loop that reads the store and leaves it alone. -/
theorem mapM_read {f : α → ExceptT ε StoreM β} {R : α → β → Prop} {as : List α}
    (hf : ∀ a ∈ as, Steps P (f a) s fun b s' => s' = s ∧ R a b) :
    Steps P (as.mapM f) s fun bs s' => s' = s ∧ List.Forall₂ R as bs := by
  induction as with
  | nil => exact .pure ⟨rfl, .nil⟩
  | cons a as ih =>
      rw [List.mapM_cons]
      refine (hf a List.mem_cons_self).bind ?_
      rintro b _ - ⟨rfl, hb⟩
      refine (ih fun c hc => hf c (List.mem_cons_of_mem a hc)).bind ?_
      rintro bs _ - ⟨rfl, hbs⟩
      exact .pure ⟨rfl, .cons hb hbs⟩

end Steps

end Following

namespace Store.Lawful

variable {s s' : Store}

theorem instantiate_lt (hs : s.Lawful) {definition type : Handle} {args : List Handle}
    (hrun : (Store.instantiate definition args).run s = .ok (type, s')) : type < s'.size := by
  obtain ⟨mid, hintern, hclose⟩ := run_instantiate_eq_ok hrun
  obtain ⟨hcoherent, hgrown, hlt, -⟩ := internInstance_run hs.wellFormed.coherent hintern
  have hnames := (robust_computes mid).closeIfFinished (.refl mid)
    (hs.grown_draining hgrown hcoherent) _ _ hclose
  exact hnames.names.lt hlt

theorem arrayOf_lt (hs : s.Lawful) {element type : Handle} {rank : Nat}
    (hrun : (Store.arrayOf element rank).run s = .ok (type, s')) : type < s'.size := by
  obtain ⟨mid, hintern, hclose⟩ := run_arrayOf_eq_ok hrun
  obtain ⟨hcoherent, hgrown, hlt, -⟩ := internArray_run hs.wellFormed.coherent hintern
  have hnames := (robust_computes mid).closeIfFinished (.refl mid)
    (hs.grown_draining hgrown hcoherent) _ _ hclose
  exact hnames.names.lt hlt

end Store.Lawful

/-- The handles of a scope denote types. -/
def InScope (s : Store) (scope : Scope) : Prop :=
  ∀ name type, scope.lookup name = some type → type < s.size

theorem mem_of_lookup {scope : Scope} {name : String} {type : Handle}
    (h : scope.lookup name = some type) : (name, type) ∈ scope := by
  obtain ⟨before, after, rfl, -⟩ := List.lookup_eq_some_iff.mp h
  simp

theorem inScope_nil (s : Store) : InScope s [] := fun _ _ h => by cases h

theorem InScope.mono {s s' : Store} {scope : Scope} (h : InScope s scope) (hs : s.Names s') :
    InScope s' scope :=
  fun name type hlookup => hs.lt (h name type hlookup)

namespace TypeExpr

mutual

/-- The generic names that an expression applies, with the arguments. -/
def applications : TypeExpr → List (String × List TypeExpr)
  | .named _ => []
  | .apply name args => (name, args) :: allApplications args
  | .array element _ => element.applications

/-- The generic names that some expressions apply, with the arguments. -/
def allApplications : List TypeExpr → List (String × List TypeExpr)
  | [] => []
  | expr :: rest => expr.applications ++ allApplications rest

end

/-- The operations that interning expressions performs: it makes arrays, and it instantiates what
applied names stand for. -/
inductive Interns (scope : Scope) (applied : List (String × List TypeExpr)) (s : Store) :
    Operation → Prop
  | array (element : Handle) (rank : Nat) : Interns scope applied s (.arrayOf element rank)
  | instantiate {name : String} {exprs : List TypeExpr} {definition : Handle} {args : List Handle}
      {start : Store} (happlied : (name, exprs) ∈ applied)
      (hname : scope.lookup name = some definition ∨ s.lookup? name = some definition)
      (hargs : (internAll scope exprs).run.run start = .ok (.ok args, s)) :
      Interns scope applied s (.instantiate definition args)

variable {scope : Scope} {applied : List (String × List TypeExpr)} {s : Store}

theorem resolve_steps {P : Store → Operation → Prop} (hscope : InScope s scope) (name : String) :
    Steps P (resolve scope name) s fun type s' => s' = s ∧ type < s.size ∧
      (scope.lookup name = some type ∨ s.lookup? name = some type) := by
  unfold resolve
  split
  · next param hparam => exact .pure ⟨rfl, hscope name param hparam, Or.inl hparam⟩
  · refine .get_bind ?_
    split
    · next type htype => exact .pure ⟨rfl, Store.lookup?_lt htype, Or.inr htype⟩
    · exact .throw _

theorem instantiate_steps (hs : s.Lawful) (hscope : InScope s scope) {name : String}
    {exprs : List TypeExpr} {args : List Handle} {start : Store}
    (happlied : (name, exprs) ∈ applied) (hargs : ∀ a ∈ args, a < s.size)
    (hstart : (internAll scope exprs).run.run start = .ok (.ok args, s)) :
    Steps (Interns scope applied) (instantiate scope name args) s fun type s' => type < s'.size := by
  refine (resolve_steps hscope name).bind ?_
  rintro definition _ - ⟨rfl, hlt, hname⟩
  refine .get_bind (.query_bind fun own _ => ?_)
  split
  · refine .query_bind fun params _ => ?_
    dsimp only
    split
    · refine .lift fun type s' hrun => ⟨?_, hs.instantiate_lt hrun⟩
      refine .single ⟨?_, by simp [Operation.isDeclaration]⟩ (.instantiate happlied hname hstart)
        (Store.discard_run hrun)
      intro handle hhandle
      rcases List.mem_cons.mp hhandle with rfl | hhandle
      · exact hlt
      · exact hargs handle hhandle
    · exact .throw _
  · exact .throw _

mutual

/-- Interning an expression ends in a type and performs the operations that the expression says. -/
theorem intern_steps {s : Store} (hs : s.Lawful) (hscope : InScope s scope) :
    (expr : TypeExpr) → expr.applications ⊆ applied →
      Steps (Interns scope applied) (expr.intern scope) s fun type s' => type < s'.size
  | .named name, _ => (resolve_steps hscope name).imp fun _ _ _ h => h.1 ▸ h.2.1
  | .apply name args, happlied => by
      rw [intern]
      refine (internAll_steps hs hscope args fun pair hpair =>
        happlied (List.mem_cons_of_mem _ hpair)).bind_run fun types mid hrun hperforms htypes => ?_
      exact instantiate_steps (hperforms.lawful hs) (hscope.mono (hperforms.names hs))
        (happlied List.mem_cons_self) htypes hrun
  | .array element rank, happlied => by
      rw [intern]
      refine (intern_steps hs hscope element happlied).bind fun type mid hperforms hlt => ?_
      refine .lift fun array s' hrun => ⟨?_, (hperforms.lawful hs).arrayOf_lt hrun⟩
      refine .single ⟨?_, by simp [Operation.isDeclaration]⟩ (.array type rank)
        (Store.discard_run hrun)
      rintro handle (_ | ⟨_, ⟨⟩⟩)
      exact hlt

theorem internAll_steps {s : Store} (hs : s.Lawful) (hscope : InScope s scope) :
    (exprs : List TypeExpr) → allApplications exprs ⊆ applied →
      Steps (Interns scope applied) (internAll scope exprs) s fun types s' =>
        ∀ type ∈ types, type < s'.size
  | [], _ => .pure (by simp)
  | expr :: rest, happlied => by
      rw [internAll]
      refine (intern_steps hs hscope expr fun pair hpair =>
        happlied (List.mem_append_left _ hpair)).bind fun type mid hperforms hlt => ?_
      have hnames := hperforms.names hs
      refine (internAll_steps (hperforms.lawful hs) (hscope.mono hnames) rest fun pair hpair =>
        happlied (List.mem_append_right _ hpair)).bind fun types last hperforms' htypes => ?_
      refine .pure fun t ht => ?_
      rcases List.mem_cons.mp ht with rfl | ht
      · exact (hperforms'.names (hperforms.lawful hs)).lt hlt
      · exact htypes t ht

end

/-- Interning expressions gives as many types. -/
theorem internAll_length {start s : Store} {exprs : List TypeExpr} {types : List Handle}
    (hrun : (internAll scope exprs).run.run start = .ok (.ok types, s)) :
    types.length = exprs.length := by
  induction exprs generalizing types start with
  | nil =>
      cases hrun
      rfl
  | cons expr rest ih =>
      rw [internAll, ExceptT.run_bind] at hrun
      obtain ⟨first, mid, -, hrun⟩ := run_bind_eq_ok.mp hrun
      cases first with
      | error cause => cases hrun
      | ok type =>
          dsimp only at hrun
          rw [ExceptT.run_bind] at hrun
          obtain ⟨others, last, hrest, hrun⟩ := run_bind_eq_ok.mp hrun
          cases others with
          | error cause => cases hrun
          | ok types =>
              cases hrun
              rw [List.length_cons, List.length_cons, ih hrest]

end TypeExpr

/-- The applications that reading a text interns, also if the text is malformed. -/
def readApplications (text : List Char) : List (String × List TypeExpr) :=
  match TypeExpr.read text with
  | .ok expr => expr.applications
  | .error stop => TypeExpr.allApplications stop.complete

theorem parseType_steps {s : Store} {scope : Scope} (hs : s.Lawful) (hscope : InScope s scope)
    (text : String) :
    Steps (TypeExpr.Interns scope (readApplications text.toList)) (parseType scope text) s
      fun type s' => type < s'.size := by
  unfold parseType readApplications
  cases TypeExpr.read text.toList with
  | ok expr => exact TypeExpr.intern_steps hs hscope expr (List.Subset.refl _)
  | error stop =>
      have hall := TypeExpr.internAll_steps hs hscope stop.complete (List.Subset.refl _)
      have hdiscard : Steps (TypeExpr.Interns scope (TypeExpr.allApplications stop.complete))
          (discard (TypeExpr.internAll scope stop.complete)) s fun _ _ => True :=
        hall.bind fun _ _ _ _ => .pure trivial
      exact hdiscard.bind fun _ _ _ _ => .throw _

end NominalGenerics
