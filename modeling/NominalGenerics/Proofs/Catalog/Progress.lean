import NominalGenerics.Proofs.Catalog.Building
import NominalGenerics.Proofs.InferenceProgress
import NominalGenerics.Proofs.Store.Completion
import NominalGenerics.Proofs.TypeExpr.Slices

/-!
# Catalogs and requests break no precondition

Whatever a catalog declares and whatever is asked of its store, building and answering come to an
outcome: a result, or an error that says what is wrong with the input. No handle out of range is
read, no guard is left twice or given up early, and no call lacks an argument. What remains is fuel,
which stands for time and memory. Building lacks it only where an operation makes more types pending
than handles can tell apart, and answering also where a constraint check has no end.

Building and answering perform operations on handles that exist, so each operation completes on the
store that those before it have left. `Advances` follows such computations.
-/

namespace NominalGenerics

open Catalog (Onward)
open Request (Interning)

section Overrunning

/-- Operations of a kind lead to a store on which another of them makes more types pending than
handles can tell apart. -/
def Store.Overruns (P : Store → Operation → Prop) (s : Store) : Prop :=
  ∃ mid op, Performs P s mid ∧ op.Allowed mid ∧ P mid op ∧ op.Overflows mid

namespace Store.Overruns

variable {P Q : Store → Operation → Prop} {s mid : Store}

theorem of_overflows {op : Operation} (hallowed : op.Allowed s) (hop : P s op)
    (h : op.Overflows s) : s.Overruns P :=
  ⟨s, op, .refl s, hallowed, hop, h⟩

theorem before (h : mid.Overruns P) (hperforms : Performs P s mid) : s.Overruns P := by
  obtain ⟨last, op, hrest, h⟩ := h
  exact ⟨last, op, hperforms.trans hrest, h⟩

theorem mono (h : s.Overruns P) (hPQ : ∀ t op, P t op → Q t op) : s.Overruns Q := by
  obtain ⟨last, op, hperforms, hallowed, hop, h⟩ := h
  exact ⟨last, op, hperforms.mono hPQ, hallowed, hPQ last op hop, h⟩

end Store.Overruns

/-- Before the declarations are complete, no type is expanded. -/
theorem Store.Lawful.not_overruns {s : Store} (hs : s.Lawful) (hunfinished : s.finished = false) :
    ¬ s.Overruns Nonfinal := by
  rintro ⟨mid, op, hperforms, -, hop, hexpands, -⟩
  have hmid : mid.finished = false :=
    (hperforms.finished hs fun _ _ => id).trans hunfinished
  cases op with
  | finish => exact hop rfl
  | instantiate definition args => exact Bool.false_ne_true (hmid.symm.trans hexpands)
  | arrayOf element rank => exact Bool.false_ne_true (hmid.symm.trans hexpands)
  | _ => cases hexpands

end Overrunning

section Advancing

variable {ε ε' α β : Type} {s : Store} {x : ExceptT ε StoreM α} {post : α → Store → Prop}
  {lack : Prop}

/-- The computation breaks no precondition: it ends in a result that satisfies `post` or with an
error, or it runs out of fuel for the reason `lack`. -/
def Advances (lack : Prop) (x : ExceptT ε StoreM α) (s : Store) (post : α → Store → Prop) : Prop :=
  Completes lack x.run s fun outcome s' => ∀ a, outcome = .ok a → post a s'

namespace Advances

theorem pure {a : α} (h : post a s) : Advances lack (pure a : ExceptT ε StoreM α) s post :=
  Completes.pure (by rintro _ ⟨⟩; exact h)

theorem throw (e : ε) : Advances lack (throw e : ExceptT ε StoreM α) s post :=
  Completes.pure (by rintro _ ⟨⟩)

theorem bind {f : α → ExceptT ε StoreM β} {post' : β → Store → Prop} (hx : Advances lack x s post)
    (hf : ∀ a mid, post a mid → Advances lack (f a) mid post') :
    Advances lack (x >>= f) s post' := by
  unfold Advances
  rw [ExceptT.run_bind]
  refine Completes.bind hx fun outcome mid h => ?_
  cases outcome with
  | ok a => exact hf a mid (h a rfl)
  | error e => exact Completes.pure (by rintro _ ⟨⟩)

theorem get_bind {f : Store → ExceptT ε StoreM β} {post : β → Store → Prop}
    (h : Advances lack (f s) s post) : Advances lack (getThe Store >>= f) s post := h

theorem query_bind {q : Query α} {a : α} {f : α → ExceptT ε StoreM β} {post : β → Store → Prop}
    (hq : q = .ok a) (h : Advances lack (f a) s post) :
    Advances lack ((liftM q : ExceptT ε StoreM α) >>= f) s post := by
  subst hq
  exact h

/-- A query that is answered or runs out of fuel. -/
theorem query {q : Query α} (h : (∃ a, q = .ok a) ∨ q = .error .outOfFuel ∧ lack) :
    Advances lack (liftM q : ExceptT ε StoreM α) s fun a s' => s' = s ∧ q = .ok a := by
  rcases h with ⟨a, rfl⟩ | ⟨rfl, hlack⟩
  · exact .pure ⟨rfl, rfl⟩
  · exact Or.inr ⟨rfl, hlack⟩

theorem lift {y : StoreM α} (h : Completes lack y s post) :
    Advances lack (liftM y : ExceptT ε StoreM α) s post := by
  unfold Advances
  rw [run_liftM]
  exact h.bind fun a _ ha => .pure (by rintro _ ⟨⟩; exact ha)

theorem adapt (h : Advances lack x s post) (f : ε → ε') :
    Advances lack (ExceptT.adapt f x) s post := by
  unfold Advances
  rw [run_adapt]
  refine Completes.bind h fun outcome mid h => .pure fun a ha => h a ?_
  cases outcome with
  | ok b =>
      cases ha
      rfl
  | error e => cases ha

theorem imp {post' : α → Store → Prop} (h : Advances lack x s post)
    (hpost : ∀ a s', post a s' → post' a s') : Advances lack x s post' :=
  Completes.of_run h fun _ s' _ hresult a ha => hpost a s' (hresult a ha)

theorem imp_lack {lack' : Prop} (h : Advances lack x s post) (hlack : lack → lack') :
    Advances lack' x s post :=
  Completes.imp_lack h hlack

/-- What is known of the operations that a computation performs holds where it ends. -/
theorem follow {P : Store → Operation → Prop} {post' : α → Store → Prop}
    (h : Advances lack x s post) (hsteps : Steps P x s post') :
    Advances lack x s fun a s' => Performs P s s' ∧ post' a s' :=
  Completes.of_run h fun outcome s' hrun _ a ha =>
    ⟨(hsteps outcome s' hrun).1, (hsteps outcome s' hrun).2 a ha⟩

/-- A loop whose steps advance and keep an invariant does so. -/
theorem forM {f : α → ExceptT ε StoreM PUnit} {I : Store → Prop} {as : List α} (hs : I s)
    (hf : ∀ a ∈ as, ∀ t, I t → Advances lack (f a) t fun _ t' => I t') :
    Advances lack (as.forM f) s fun _ s' => I s' := by
  induction as generalizing s with
  | nil => exact .pure hs
  | cons a as ih =>
      exact (hf a List.mem_cons_self s hs).bind fun _ t ht =>
        ih ht fun c hc => hf c (List.mem_cons_of_mem a hc)

/-- A loop that reads the store and leaves it alone. -/
theorem mapM_read {f : α → ExceptT ε StoreM β} {as : List α}
    (hf : ∀ a ∈ as, Advances lack (f a) s fun _ s' => s' = s) :
    Advances lack (as.mapM f) s fun _ s' => s' = s := by
  induction as with
  | nil => exact .pure rfl
  | cons a as ih =>
      rw [List.mapM_cons]
      refine (hf a List.mem_cons_self).bind ?_
      rintro b _ rfl
      refine (ih fun c hc => hf c (List.mem_cons_of_mem a hc)).bind ?_
      rintro bs _ rfl
      exact .pure rfl

end Advances

end Advancing

section Expressions

variable {s : Store} {scope : Scope} {lack : Prop}

namespace TypeExpr

theorem resolve_advances (name : String) :
    Advances lack (resolve scope name) s fun _ _ => True := by
  unfold resolve
  split
  · exact .pure trivial
  · refine .get_bind ?_
    split
    · exact .pure trivial
    · exact .throw _

theorem instantiate_advances (hs : s.Lawful) (hscope : InScope s scope) (name : String)
    {args : List Handle} (hargs : ∀ a ∈ args, a < s.size) :
    Advances (s.Overruns Interning) (instantiate scope name args) s fun _ _ => True := by
  refine ((resolve_advances name).follow (resolve_steps (P := Plain) hscope name)).bind ?_
  rintro definition _ ⟨-, rfl, hlt, -⟩
  obtain ⟨entry, hentry⟩ := Store.entry_of_lt hlt
  refine .get_bind (.query_bind (Store.query_of_entry hentry (·.definition? definition)) ?_)
  split
  · refine .query_bind (Store.query_of_entry hentry (·.arguments)) ?_
    dsimp only
    split
    · have hallowed : (Operation.instantiate definition args).Allowed _ :=
        ⟨List.forall_mem_cons.mpr ⟨hlt, hargs⟩, by simp [Operation.isDeclaration]⟩
      exact .lift ((Store.instantiate_completes hs hlt hargs).imp_lack (.of_overflows hallowed rfl))
    · exact .throw _
  · exact .throw _

mutual

/-- Interning an expression breaks no precondition. -/
theorem intern_advances {s : Store} (hs : s.Lawful) (hscope : InScope s scope) :
    (expr : TypeExpr) →
      Advances (s.Overruns Interning) (expr.intern scope) s fun _ _ => True
  | .named name => resolve_advances name
  | .apply name args => by
      rw [intern]
      refine ((internAll_advances hs hscope args).follow ((internAll_steps hs hscope args
        (List.Subset.refl _)).mono Request.interning_interns)).bind ?_
      rintro types mid ⟨hperforms, htypes⟩
      exact (instantiate_advances (hperforms.lawful hs) (hscope.mono (hperforms.names hs)) name
        htypes).imp_lack (·.before hperforms)
  | .array element rank => by
      rw [intern]
      refine ((intern_advances hs hscope element).follow ((intern_steps hs hscope element
        (List.Subset.refl _)).mono Request.interning_interns)).bind ?_
      rintro type mid ⟨hperforms, hlt⟩
      have hallowed : (Operation.arrayOf type rank).Allowed mid :=
        ⟨by simpa [Operation.handles] using hlt, by simp [Operation.isDeclaration]⟩
      exact .lift ((Store.arrayOf_completes (hperforms.lawful hs) hlt rank).imp_lack fun h =>
        .before (.of_overflows hallowed rfl h) hperforms)

theorem internAll_advances {s : Store} (hs : s.Lawful) (hscope : InScope s scope) :
    (exprs : List TypeExpr) →
      Advances (s.Overruns Interning) (internAll scope exprs) s fun _ _ => True
  | [] => .pure trivial
  | expr :: rest => by
      rw [internAll]
      refine ((intern_advances hs hscope expr).follow ((intern_steps hs hscope expr
        (List.Subset.refl _)).mono Request.interning_interns)).bind ?_
      rintro type mid ⟨hperforms, -⟩
      have hrest := (internAll_advances (hperforms.lawful hs) (hscope.mono (hperforms.names hs))
        rest).imp_lack (·.before hperforms)
      exact hrest.bind fun _ _ _ => .pure trivial

end

end TypeExpr

/-- Reading a type breaks no precondition, and ends in a type. -/
theorem parseType_advances (hs : s.Lawful) (hscope : InScope s scope) (text : String) :
    Advances (s.Overruns Interning) (parseType scope text) s fun type s' =>
      Performs Interning s s' ∧ type < s'.size := by
  have hread : Advances (s.Overruns Interning) (parseType scope text) s fun _ _ => True := by
    unfold parseType
    split
    · next expr _ => exact TypeExpr.intern_advances hs hscope expr
    · next stop _ =>
        have hdiscard : Advances (s.Overruns Interning)
            (discard (TypeExpr.internAll scope stop.complete)) s fun _ _ => True :=
          (TypeExpr.internAll_advances hs hscope stop.complete).bind fun _ _ _ => .pure trivial
        exact hdiscard.bind fun _ _ _ => .throw _
  exact hread.follow ((parseType_steps hs hscope text).mono Request.interning_interns)

end Expressions

namespace Catalog

variable {start s : Store} {scope : Scope} {lack : Prop}

/-- Reading a type on the way. -/
theorem Onward.parse (h : Onward start s) (hscope : InScope start scope) (text : String) :
    Advances (start.Overruns Nonfinal) (parseType scope text) s fun type s' =>
      Onward start s' ∧ type < s'.size := by
  refine ((parseType_advances h.lawful (hscope.mono h.names) text).imp fun _ _ hresult =>
    ⟨h.step (hresult.1.mono Request.plain_interning), hresult.2⟩).imp_lack fun hoverruns => ?_
  exact (hoverruns.mono fun t op hop =>
    plain_ne_finish t op (Request.plain_interning t op hop)).before h.performs

theorem typeOf_advances (h : Onward start s) (hscope : InScope start scope) (text : String) :
    Advances (start.Overruns Nonfinal) (typeOf scope text) s fun type s' =>
      Onward start s' ∧ type < s'.size :=
  (h.parse hscope text).adapt _

theorem Onward.after (h : Onward start s) {op : Operation} (hallowed : op.Allowed s)
    (hne : op ≠ .finish) {s' : Store} (hrun : op.run.run s = .ok ((), s')) : Onward start s' :=
  ⟨h.lawful.step hallowed hrun, (Store.finished_of_run h.lawful hne hrun).trans h.finished,
    h.names.trans (h.lawful.names hallowed hrun), h.performs.trans (.single hallowed hne hrun)⟩

/-- An operation on the way completes, unless the way overruns. -/
theorem Onward.run_completes (h : Onward start s) {op : Operation} (hallowed : op.Allowed s)
    (hne : op ≠ .finish) :
    Completes (start.Overruns Nonfinal) op.run s fun _ s' => op.run.run s = .ok ((), s') :=
  ((h.lawful.run_completes hallowed).of_run fun _ _ hrun _ => hrun).imp_lack fun hoverflows =>
    .before (.of_overflows hallowed hne hoverflows) h.performs

/-- Performing an operation other than `finish`. -/
theorem Onward.perform (h : Onward start s) {ε : Type} (op : Operation) {x : StoreM Unit}
    (hop : op.run = x) (hallowed : op.Allowed s) (hne : op ≠ .finish) :
    Advances (start.Overruns Nonfinal) (liftM x : ExceptT ε StoreM Unit) s
      fun _ s' => Onward start s' := by
  subst hop
  exact .lift ((h.run_completes hallowed hne).of_run fun _ _ hrun _ => h.after hallowed hne hrun)

/-- Performing an operation that gives a handle, which is thrown away. -/
theorem Onward.performDiscarding (h : Onward start s) {ε : Type} (op : Operation)
    {x : StoreM Handle} (hop : op.run = discard x) (hallowed : op.Allowed s)
    (hne : op ≠ .finish) :
    Advances (start.Overruns Nonfinal) (discard (liftM x) : ExceptT ε StoreM Unit) s
      fun _ s' => Onward start s' := by
  have hx : Completes (start.Overruns Nonfinal) x s fun _ _ => True :=
    (hop ▸ h.run_completes hallowed hne).of_discard
  have hlift : Advances (start.Overruns Nonfinal) (liftM x : ExceptT ε StoreM Handle) s
      fun _ s' => Onward start s' :=
    .lift (hx.of_run fun _ _ hrun _ => h.after hallowed hne (hop ▸ Store.discard_run hrun))
  exact hlift.bind fun _ _ h => .pure h

theorem lookup_advances (name : String) :
    Advances lack (lookup name) s fun type s' => s' = s ∧ type < s.size := by
  refine .get_bind ?_
  split
  · next type htype => exact .pure ⟨rfl, Store.lookup?_lt htype⟩
  · exact .throw _

theorem singleParameterDefinition_advances (name : String) :
    Advances lack (singleParameterDefinition name) s fun type s' => s' = s ∧ type < s.size := by
  refine (lookup_advances name).bind ?_
  rintro type _ ⟨rfl, hlt⟩
  obtain ⟨entry, hentry⟩ := Store.entry_of_lt hlt
  refine .get_bind (.query_bind (Store.query_of_entry hentry (·.definition? type)) ?_)
  refine .query_bind (Store.query_of_entry hentry (·.arguments)) ?_
  split
  · exact .pure ⟨rfl, hlt⟩
  · exact .throw _

theorem declareValue_advances (decl : TypeDecl) (h : Onward start s)
    (hunfinished : s.finished = false) :
    Advances (start.Overruns Nonfinal) (declareValue decl) s fun _ s' => Onward start s' := by
  unfold declareValue
  split
  · split
    · next kind _ =>
        exact h.performDiscarding (.declarePrimitive decl.name kind) rfl
          ⟨by simp [Operation.handles], fun _ => hunfinished⟩ (by rintro ⟨⟩)
    · exact .throw _
  · split
    · refine (lookup_advances _).bind ?_
      rintro underlying _ ⟨rfl, hlt⟩
      obtain ⟨entry, hentry⟩ := Store.entry_of_lt hlt
      refine .get_bind (.query_bind (Store.query_of_entry hentry (·.primitive)) ?_)
      split
      · exact h.performDiscarding (.declareEnum decl.name underlying) rfl
          ⟨by simpa [Operation.handles] using hlt, fun _ => hunfinished⟩ (by rintro ⟨⟩)
      · exact .throw _
    · exact .throw _
  · exact h.performDiscarding (.declarePointer decl.name) rfl
      ⟨by simp [Operation.handles], fun _ => hunfinished⟩ (by rintro ⟨⟩)

theorem declareType_advances (decl : TypeDecl) (h : Onward start s)
    (hunfinished : s.finished = false) :
    Advances (start.Overruns Nonfinal) (declareType decl) s fun _ s' => Onward start s' := by
  unfold declareType
  split
  · next kind _ =>
      split
      · exact h.performDiscarding (.declare kind decl.name) rfl
          ⟨by simp [Operation.handles], fun _ => hunfinished⟩ (by rintro ⟨⟩)
      · exact h.performDiscarding (.declareGeneric kind decl.name _) rfl
          ⟨by simp [Operation.handles], fun _ => hunfinished⟩ (by rintro ⟨⟩)
  · split
    · exact declareValue_advances decl h hunfinished
    · exact .throw _

theorem declareTypes_advances (catalog : Catalog) (hs : s.Lawful)
    (hunfinished : s.finished = false) :
    Advances (s.Overruns Nonfinal) (declareTypes catalog) s fun _ s' => Onward s s' := by
  unfold declareTypes
  split
  · exact .throw _
  · dsimp only
    refine .forM (.refl hs) fun decl _ t ht => ?_
    split
    · exact (declareType_advances decl ht (ht.finished.trans hunfinished)).adapt _
    · exact .pure ht

theorem parseConstraint_advances (h : Onward start s) (hscope : InScope start scope)
    (text : String) :
    Advances (start.Overruns Nonfinal) (parseConstraint scope text) s fun constraint s' =>
      Onward start s' ∧ ∀ target, constraint = .base target → target < s'.size := by
  unfold parseConstraint
  dsimp only
  split
  · exact .pure ⟨h, by rintro _ ⟨⟩⟩
  · split
    · exact .pure ⟨h, by rintro _ ⟨⟩⟩
    · split
      · exact .pure ⟨h, by rintro _ ⟨⟩⟩
      · refine (h.parse hscope _).bind ?_
        rintro type mid ⟨hmid, hlt⟩
        exact .pure ⟨hmid, by rintro _ ⟨⟩; exact hlt⟩

theorem addConstraints_advances (h : Onward start s) (hscope : InScope start scope)
    {decls : List TypeParamDecl} {params : List Handle}
    (hparams : ∀ param ∈ params, param < start.size) :
    Advances (start.Overruns Nonfinal) (addConstraints scope decls params) s
      fun _ s' => Onward start s' := by
  refine .forM h ?_
  rintro ⟨decl, param⟩ hmem t ht
  refine .forM ht fun text _ t ht => ?_
  refine ((parseConstraint_advances ht hscope text).adapt _).bind ?_
  rintro constraint mid ⟨hmid, htarget⟩
  refine hmid.perform (.addConstraint param constraint) rfl
    ⟨?_, by simp [Operation.isDeclaration]⟩ (by rintro ⟨⟩)
  have hparam := hmid.names.lt (hparams param (List.of_mem_zip hmem).2)
  cases constraint with
  | base target => simpa [Operation.handles] using ⟨hparam, htarget target rfl⟩
  | valueType => simpa [Operation.handles] using hparam
  | referenceType => simpa [Operation.handles] using hparam
  | defaultConstructible => simpa [Operation.handles] using hparam

theorem resolveType_advances (decl : TypeDecl) (hs : s.Lawful) (hunfinished : s.finished = false) :
    Advances (s.Overruns Nonfinal) (resolveType decl) s fun _ s' => Onward s s' := by
  refine (lookup_advances decl.name).bind ?_
  rintro type _ ⟨rfl, hlt⟩
  rename_i s
  obtain ⟨entry, hentry⟩ := Store.entry_of_lt hlt
  have hparams : s.arguments type = .ok entry.arguments :=
    Store.query_of_entry hentry (·.arguments)
  refine .get_bind (.query_bind hparams ?_)
  have harguments := arguments_lt hs hparams
  have hscope : InScope s (ownScope decl entry.arguments) := inScope_ownScope harguments
  -- Recording a supertype or a flag of the type, which is still a type.
  have hrecord : ∀ {t : Store} {ε : Type} (op : Operation) {x : StoreM Unit}, Onward s t →
      op.run = x → (∀ handle ∈ op.handles, handle = type ∨ handle < t.size) → op ≠ .finish →
      Advances (s.Overruns Nonfinal) (liftM x : ExceptT ε StoreM Unit) t
        fun _ s' => Onward s s' := by
    intro t ε op x ht hop hhandles hne
    refine ht.perform op hop ⟨fun handle hhandle => ?_, fun _ => ht.finished.trans hunfinished⟩ hne
    rcases hhandles handle hhandle with rfl | hlt'
    · exact ht.names.lt hlt
    · exact hlt'
  have hconstraints : ∀ t, Onward s t → Advances (s.Overruns Nonfinal)
      (addConstraints (ownScope decl entry.arguments) decl.params entry.arguments) t
      fun _ s' => Onward s s' := fun t ht => addConstraints_advances ht hscope harguments
  dsimp only
  split
  case' h_1 base _ =>
    refine (typeOf_advances (.refl hs) hscope base).bind ?_
    rintro super mid ⟨hmid, hsuper⟩
    refine (hrecord (.setBase type super) hmid rfl (by simp [Operation.handles, hsuper])
      (by rintro ⟨⟩)).bind fun _ t ht => ?_
  case' h_2 => have ht := Onward.refl hs
  all_goals
    refine (Advances.forM ht fun interface _ t ht => ?_).bind fun _ t ht => ?_
    · refine (typeOf_advances ht hscope interface).bind ?_
      rintro super mid ⟨hmid, hsuper⟩
      exact hrecord (.addInterface type super) hmid rfl (by simp [Operation.handles, hsuper])
        (by rintro ⟨⟩)
    split
    case' isTrue =>
      refine (hrecord (.addFlags type _) ht rfl (by simp [Operation.handles])
        (by rintro ⟨⟩)).bind fun _ t ht => ?_
    all_goals
      split
      · exact (hrecord (.addFlags type _) ht rfl (by simp [Operation.handles])
          (by rintro ⟨⟩)).bind fun _ t ht => hconstraints t ht
      · exact (hrecord (.removeFlags type _) ht rfl (by simp [Operation.handles])
          (by rintro ⟨⟩)).bind fun _ t ht => hconstraints t ht
      · exact hconstraints _ ht

/-- Giving a role to a type. -/
theorem Onward.assign (h : Onward start s) (hunfinished : start.finished = false) {ε : Type}
    (op : Operation) {x : StoreM Unit} {type : Handle} (htype : type < s.size) (hop : op.run = x)
    (hhandles : op.handles = [type]) (hne : op ≠ .finish) :
    Advances (start.Overruns Nonfinal) (liftM x : ExceptT ε StoreM Unit) s
      fun _ s' => Onward start s' :=
  h.perform op hop ⟨by simpa [hhandles] using htype, fun _ => h.finished.trans hunfinished⟩ hne

theorem assignRoles_advances (roles : Roles) (hs : s.Lawful) (hunfinished : s.finished = false) :
    Advances (s.Overruns Nonfinal) (assignRoles roles) s fun _ s' => Onward s s' := by
  unfold assignRoles
  dsimp only
  have ht := Onward.refl hs
  split
  case' h_1 name _ =>
    refine (lookup_advances name).bind ?_
    rintro type _ ⟨rfl, hlt⟩
    refine (ht.assign hunfinished (.setValueTypeRoot type) hlt rfl rfl (by rintro ⟨⟩)).bind
      fun _ t ht => ?_
  all_goals
    split
    case' h_1 name _ =>
      refine (lookup_advances name).bind ?_
      rintro type _ ⟨rfl, hlt⟩
      refine (ht.assign hunfinished (.setArrayRoot type) hlt rfl rfl (by rintro ⟨⟩)).bind
        fun _ t ht => ?_
    all_goals
      split
      case' h_1 name _ =>
        refine ((singleParameterDefinition_advances name).adapt _).bind ?_
        rintro type _ ⟨rfl, hlt⟩
        refine (ht.assign hunfinished (.setOptionalWrapper type) hlt rfl rfl (by rintro ⟨⟩)).bind
          fun _ t ht => ?_
      all_goals
        refine .forM ht fun name _ t ht => ?_
        refine ((singleParameterDefinition_advances name).adapt _).bind ?_
        rintro type _ ⟨rfl, hlt⟩
        exact ht.assign hunfinished (.addSequenceInterface type) hlt rfl rfl (by rintro ⟨⟩)

theorem enclosingScope_advances (hs : s.Lawful) {declaring : Handle} (hlt : declaring < s.size) :
    Advances lack (enclosingScope declaring) s fun _ _ => True := by
  obtain ⟨form, hform⟩ := Store.form_isSome hlt
  have hname : ∀ type, type < s.size → ∃ name, s.typeName type = .ok name := by
    intro type htype
    obtain ⟨entry, hentry⟩ := Store.entry_of_lt htype
    exact ⟨entry.name, Store.query_of_entry hentry (·.name)⟩
  refine .get_bind (.query_bind (Store.definition?_of_form hform) ?_)
  split
  · next definition hdefinition =>
      obtain ⟨_, ⟨dform, hdform, -⟩, -⟩ :=
        hs.wellFormed.coherent.applies_of_form hform hdefinition
      have hparams := Store.arguments_of_form hdform
      refine .query_bind hparams ((Advances.mapM_read fun param hparam => ?_).imp
        fun _ _ _ => trivial)
      obtain ⟨name, hname⟩ := hname param (arguments_lt hs hparams param hparam)
      exact .query_bind hname (.pure rfl)
  · obtain ⟨name, hname⟩ := hname declaring hlt
    exact .query_bind hname (.throw _)

theorem declareCallable_advances (decl : CallableDecl) (hs : s.Lawful) :
    Advances (s.Overruns Nonfinal) (declareCallable decl) s fun _ s' => Onward s s' := by
  refine .get_bind ?_
  split
  · exact .throw _
  have hdeclaring : Advances (s.Overruns Nonfinal) (decl.declaringType.mapM (typeOf [])) s
      fun declaring s' => Onward s s' ∧ ∀ type, declaring = some type → type < s'.size := by
    cases decl.declaringType with
    | none => exact .pure ⟨.refl hs, by rintro _ ⟨⟩⟩
    | some text =>
        rw [Option.mapM_some, map_eq_pure_bind]
        refine (typeOf_advances (.refl hs) (inScope_nil s) text).bind fun type mid h => ?_
        exact .pure ⟨h.1, by rintro _ ⟨⟩; exact h.2⟩
  refine hdeclaring.bind ?_
  rintro declaring mid ⟨hmid, hdeclaring⟩
  have hcallable : Advances (s.Overruns Nonfinal)
      (liftM (Store.declareCallable decl.name (decl.typeParams.map (·.name))) : BuildM CallableId)
      mid fun _ s' => Performs Plain mid s' :=
    .lift (Or.inl ((Store.declareCallable_returns _ _).of_run fun _ _ hrun _ =>
      performs_declareCallable hrun))
  refine hcallable.bind fun id t hperforms => .get_bind ?_
  have hdeclared := hmid.step hperforms
  have ht := hdeclared.lawful
  have hown := typeParams_lt ht id
  -- From here on the scope holds the type parameters, so what follows starts from this store.
  refine Advances.imp_lack (Advances.imp ?_ fun _ s' (h : Onward t s') => hdeclared.trans h)
    fun (h : t.Overruns Nonfinal) => h.before hdeclared.performs
  dsimp only
  split
  case' h_1 _ type =>
    have htype := (hperforms.names hmid.lawful).lt (hdeclaring type rfl)
    refine ((enclosingScope_advances ht htype).follow
      (enclosingScope_steps (P := Plain) ht type)).bind ?_
    rintro enclosing _ ⟨-, rfl, henclosing⟩
    refine ((Onward.refl ht).perform (.setDeclaringType id type) rfl
      ⟨by simpa [Operation.handles] using htype, by simp [Operation.isDeclaration]⟩
      (by rintro ⟨⟩)).bind fun _ u hu => ?_
    have hscope := inScope_append (inScope_zip (decl.typeParams.map (·.name)) hown) henclosing
  case' h_2 =>
    have hu := Onward.refl ht
    have hscope := inScope_append (inScope_zip (decl.typeParams.map (·.name)) hown) (inScope_nil _)
  all_goals
    rw [pure_bind]
    refine (addConstraints_advances hu hscope hown).bind fun _ u hu => ?_
    refine (Advances.forM hu fun param _ u hu => ?_).bind fun _ u hu => ?_
    · refine (typeOf_advances hu hscope param.type).bind ?_
      rintro type v ⟨hv, hlt⟩
      exact hv.perform (.addParameter id type param.mode) rfl
        ⟨by simpa [Operation.handles] using hlt, by simp [Operation.isDeclaration]⟩ (by rintro ⟨⟩)
    split
    · refine (typeOf_advances hu hscope _).bind ?_
      rintro type v ⟨hv, hlt⟩
      exact hv.perform (.setReturnType id type) rfl
        ⟨by simpa [Operation.handles] using hlt, by simp [Operation.isDeclaration]⟩
        (by rintro ⟨⟩)
    · exact .pure hu

/-- The types of the catalog outgrow the handles: completing its declarations makes more of them
pending than handles can tell apart, or operations on the completed store come to do so. -/
inductive OutgrowsHandles (catalog : Catalog) : Prop
  | completing {declared resolved ready : Store}
      (hdeclares : Performs (Declaring catalog) (.ofRoot catalog.roles.root) declared)
      (hresolves : ResolvesAll catalog.types declared resolved)
      (hassigns : Performs Plain resolved ready) (hunfinished : ready.finished = false)
      (hoverflows : Operation.finish.Overflows ready) : OutgrowsHandles catalog
  | calling {declared resolved ready closed : Store}
      (hstages : Stages catalog declared resolved ready closed closed)
      (hoverruns : closed.Overruns Nonfinal) : OutgrowsHandles catalog

/-- Resolving declared types breaks no precondition. -/
theorem resolveTypes_advances (types : List TypeDecl) (hs : s.Lawful)
    (hunfinished : s.finished = false) :
    Advances False (types.forM fun decl => within (.inType decl.name) (resolveType decl)) s
      fun _ s' => s'.Lawful ∧ s'.finished = false :=
  .forM ⟨hs, hunfinished⟩ fun decl _ _ ht =>
    (((resolveType_advances decl ht.1 ht.2).imp_lack (ht.1.not_overruns ht.2)).adapt _).imp
      fun _ _ h => ⟨h.lawful, h.finished.trans ht.2⟩

/-- Building a store breaks no precondition. -/
theorem buildSteps_advances (catalog : Catalog) :
    Advances catalog.OutgrowsHandles (buildSteps catalog) (.ofRoot catalog.roles.root)
      fun _ _ => True := by
  have hstart := Store.Lawful.ofRoot catalog.roles.root
  have hroot := lookup?_ofRoot catalog.roles.root
  refine (((declareTypes_advances catalog hstart rfl).imp_lack fun h =>
    absurd h (hstart.not_overruns rfl)).follow
      (declareTypes_steps catalog hstart rfl hroot)).bind ?_
  rintro _ declared ⟨hdeclares, ⟨hdeclared, hunfinished⟩, hnames, hfound⟩
  refine (((resolveTypes_advances catalog.types hdeclared hunfinished).imp_lack False.elim).follow
    (resolveTypes_steps catalog.types ⟨hdeclared, hunfinished⟩)).bind ?_
  rintro _ resolved ⟨-, hresolves, hresolved, hunfinished⟩
  refine (((assignRoles_advances catalog.roles hresolved hunfinished).imp_lack fun h =>
    absurd h (hresolved.not_overruns hunfinished)).follow
      (assignRoles_steps catalog.roles ⟨hresolved, hunfinished⟩)).bind ?_
  rintro _ ready ⟨hassigns, hready, hunfinished⟩
  have hallowed : Operation.finish.Allowed ready :=
    ⟨by simp [Operation.handles], fun _ => hunfinished⟩
  have hfinish : Advances catalog.OutgrowsHandles (liftM Store.finish : BuildM Unit) ready
      fun _ s' => Store.finish.run ready = .ok ((), s') :=
    .lift (((hready.run_completes hallowed).of_run fun _ _ hrun _ => hrun).imp_lack
      (.completing hdeclares hresolves hassigns hunfinished))
  refine hfinish.bind fun _ closed hcompletes => ?_
  have hstages : Stages catalog declared resolved ready closed closed :=
    ⟨hdeclares, hnames, hfound, hresolves, hassigns, hunfinished, hcompletes, .refl closed⟩
  have hclosed := Onward.refl (hready.step hallowed hcompletes)
  refine (Advances.forM hclosed fun decl _ t ht => ?_).imp fun _ _ _ => trivial
  exact (((declareCallable_advances decl ht.lawful).imp fun _ _ h => ht.trans h).imp_lack fun h =>
    .calling hstages (h.before ht.performs)).adapt _

/-- Building a catalog comes to an outcome, unless handles run out. -/
theorem build_completes (catalog : Catalog) :
    (∃ outcome, catalog.build = .ok outcome) ∨
      catalog.build = .error .outOfFuel ∧ catalog.OutgrowsHandles := by
  unfold build
  rcases buildSteps_advances catalog with ⟨outcome, s, hrun, -⟩ | ⟨hrun, hlack⟩
  · rw [hrun]
    exact Or.inl ⟨_, rfl⟩
  · rw [hrun]
    exact Or.inr ⟨rfl, hlack⟩

end Catalog

namespace Command

variable {store : Store} {signature : Signature} {args : List Handle}

theorem typeName_total {type : Handle} (h : type < store.size) :
    ∃ name, store.typeName type = .ok name := by
  obtain ⟨entry, hentry⟩ := Store.entry_of_lt h
  exact ⟨entry.name, Store.query_of_entry hentry (·.name)⟩

theorem render_total {bounds : BoundSet}
    (h : ∀ flow, ∀ type ∈ bounds.side flow, type < store.size) :
    ∃ text, bounds.render store = .ok text := by
  have hside : ∀ flow, ∃ names, (bounds.side flow).mapM store.typeName = .ok names :=
    fun flow => Query.mapM_total fun type htype => typeName_total (h flow type htype)
  refine Query.bind_total ?_ fun _ => Query.bind_total ?_ fun _ => Query.bind_total ?_ fun _ =>
    ⟨_, rfl⟩
  · exact Query.bind_total (hside .covariant) fun _ => ⟨_, rfl⟩
  · exact Query.bind_total (hside .contravariant) fun _ => ⟨_, rfl⟩
  · exact Query.bind_total (hside .invariant) fun _ => ⟨_, rfl⟩

theorem typeParam_lt (hs : store.Reachable) (hcallable : store.HasCallable signature)
    {param : Handle} (hparam : param ∈ signature.typeParams) : param < store.size := by
  obtain ⟨_, form, _, hform, -⟩ := hcallable.paramAt hs.lawful.wellFormed.coherent hparam
  exact Store.form_lt hform

theorem boundsReport_total (hs : store.Reachable) (hcallable : store.HasCallable signature)
    (hargs : ∀ arg ∈ args, arg < store.size) (hlength : signature.params.length ≤ args.length) :
    ∃ report, boundsReport store signature args = .ok report := by
  obtain ⟨outcome, inferred, hrun, htracks, -⟩ := Inference.collectBounds_concludes hs
    (hs.lawful.wellFormed.inRange.signatures hcallable) hargs hlength
    (Inference.tracks_ofTypeParams store signature)
  rw [boundsReport, Inference.runFresh, hrun, Query.ok_bind]
  cases outcome with
  | error failure => exact ⟨_, rfl⟩
  | ok u =>
      refine Query.bind_total (Query.mapM_total ?_) fun _ => ⟨_, rfl⟩
      rintro ⟨param, bounds⟩ hmem
      obtain ⟨hparam, hbounds⟩ := List.of_mem_zip hmem
      obtain ⟨position, hposition⟩ := List.getElem?_of_mem hbounds
      have hlt := typeParam_lt hs hcallable (htracks.typeParams ▸ hparam)
      refine Query.bind_total (typeName_total hlt) fun _ => ?_
      exact Query.bind_total (render_total fun _ _ htype =>
        htracks.witnesses ⟨bounds, hposition, htype⟩) fun _ => ⟨_, rfl⟩

theorem inferenceReport_completes (hs : store.Reachable) (hcallable : store.HasCallable signature)
    (hargs : ∀ arg ∈ args, arg < store.size) (hlength : signature.params.length ≤ args.length)
    (options : InferenceOptions) :
    (∃ report, inferenceReport store signature args options = .ok report) ∨
      inferenceReport store signature args options = .error .outOfFuel ∧
        ∃ types, (∀ type ∈ types, type < store.size) ∧
          store.CheckDiverges (.callable signature) types := by
  unfold inferenceReport
  rcases Inference.infer_returns hs hcallable hargs hlength options with
    ⟨⟨outcome, last⟩, hrun⟩ | ⟨hrun, hdiverges⟩
  · rw [hrun, Query.ok_bind]
    cases outcome with
    | error failure => exact Or.inl ⟨_, rfl⟩
    | ok types =>
        have hinfer : store.inferTypes? signature args options = .ok (some types) := by
          rw [Store.inferTypes?, hrun]
          rfl
        refine Or.inl (Query.bind_total (Query.mapM_total ?_) fun _ => ⟨_, rfl⟩)
        rintro ⟨param, type⟩ hmem
        obtain ⟨hparam, htype⟩ := List.of_mem_zip hmem
        have hlt := Inference.inferTypes?_lt hs hcallable hargs hinfer type htype
        refine Query.bind_total (typeName_total (typeParam_lt hs hcallable hparam)) fun _ => ?_
        exact Query.bind_total (typeName_total hlt) fun _ => ⟨_, rfl⟩
  · rw [hrun]
    exact Or.inr ⟨rfl, hdiverges⟩

end Command

namespace Request

variable {s : Store}

/-- Why requests on a store lack fuel: a type that they intern makes more types pending than handles
can tell apart, or a constraint check leads to an identity walk that has no end. -/
inductive Exhausts (s : Store) : Prop
  | handles (hoverruns : s.Overruns Interning) : Exhausts s
  | walk {mid : Store} {declaration : Declaration} {args : List Handle}
      (hperforms : Performs Interning s mid) (hdeclared : declaration.DeclaredIn mid)
      (hargs : ∀ arg ∈ args, arg < mid.size)
      (hdiverges : mid.CheckDiverges declaration args) : Exhausts s

theorem Exhausts.before {mid : Store} (h : Exhausts mid) (hperforms : Performs Interning s mid) :
    Exhausts s := by
  cases h with
  | handles hoverruns => exact .handles (hoverruns.before hperforms)
  | walk hrest hdeclared hargs hdiverges =>
      exact .walk (hperforms.trans hrest) hdeclared hargs hdiverges

theorem parseAll_advances (hs : s.Lawful) (texts : List String) :
    Advances (s.Overruns Interning) (Command.parseAll texts) s fun types s' =>
      Performs Interning s s' ∧ ∀ type ∈ types, type < s'.size := by
  induction texts generalizing s with
  | nil => exact .pure ⟨.refl s, by simp⟩
  | cons text rest ih =>
      unfold Command.parseAll
      rw [List.mapM_cons]
      refine ((parseType_advances hs (inScope_nil s) text).adapt _).bind ?_
      rintro type mid ⟨hperforms, hlt⟩
      refine ((ih (hperforms.lawful hs)).imp_lack (·.before hperforms)).bind ?_
      rintro types last ⟨hperforms', htypes⟩
      refine .pure ⟨hperforms.trans hperforms', List.forall_mem_cons.mpr ⟨?_, htypes⟩⟩
      exact (hperforms'.names (hperforms.lawful hs)).lt hlt

theorem hasCallable_of_callable? (hs : s.Lawful) {id : CallableId} {signature : Signature}
    (h : s.callable? id = some signature) : s.HasCallable signature := by
  obtain ⟨rfl, -⟩ := hs.wellFormed.coherent.callables h
  exact h

/-- A request breaks no precondition. -/
theorem command_advances (hs : s.Reachable) (defaults : InferenceOptions) (request : Request) :
    Advances (Exhausts s) (request.command defaults) s fun _ _ => True := by
  cases request with
  | infer request =>
      refine .get_bind ?_
      split
      · exact .throw _
      · refine ((parseAll_advances hs.lawful request.types).imp_lack .handles).bind ?_
        rintro args mid ⟨hperforms, hargs⟩
        have hmid := hperforms.reachable hs
        refine .get_bind ?_
        split
        · exact .throw _
        · next signature hsignature =>
            have hcallable := hasCallable_of_callable? hmid.lawful hsignature
            dsimp only
            split
            · exact .throw _
            · next hcount =>
                have hlength : signature.params.length ≤ args.length := by omega
                split
                · exact (Advances.query (Or.inl (Command.boundsReport_total hmid hcallable hargs
                    hlength))).imp fun _ _ _ => trivial
                · refine (Advances.query ((Command.inferenceReport_completes hmid hcallable hargs
                    hlength _).imp_right (And.imp_right ?_))).imp fun _ _ _ => trivial
                  rintro ⟨types, htypes, hdiverges⟩
                  exact .walk hperforms
                    (show (Declaration.callable signature).DeclaredIn mid from hcallable) htypes
                    hdiverges
  | check declaration types =>
      refine ((parseAll_advances hs.lawful types).imp_lack .handles).bind ?_
      rintro args mid ⟨hperforms, hargs⟩
      have hmid := hperforms.reachable hs
      refine .get_bind ?_
      have hanswer : ∀ declared : Declaration, declared.DeclaredIn mid → Advances (Exhausts s) (do
          let satisfied ← liftM (mid.satisfiesConstraints declared args)
          let names ← args.mapM fun arg => liftM (mid.typeName arg)
          return {
            lines := [Store.instantiationName declaration names]
            status := if satisfied then .satisfied else .violated } : CommandM Report) mid
          fun _ _ => True := by
        intro declared hdeclared
        have hcheck := (Store.satisfiesConstraints_cases hmid.lawful.wellFormed
          hmid.constraintsInRange hdeclared hargs).imp_right (And.imp_right
            fun ⟨params, sub, hbinding, _, hdiverges⟩ =>
              Exhausts.walk hperforms hdeclared hargs ⟨params, sub, hbinding, hdiverges⟩)
        refine (Advances.query hcheck).bind ?_
        rintro satisfied _ ⟨rfl, -⟩
        refine (Advances.mapM_read fun arg harg => ?_).bind fun _ _ _ => .pure trivial
        exact (Advances.query (Or.inl (Command.typeName_total (hargs arg harg)))).imp
          fun _ _ h => h.1
      split
      · next signature hsignature =>
          obtain ⟨id, -, hid⟩ := Option.bind_eq_some_iff.mp hsignature
          exact hanswer (.callable signature) (hasCallable_of_callable? hmid.lawful hid)
      · split
        · next type htype => exact hanswer (.type type) (Store.lookup?_lt htype)
        · exact .throw _

/-- Requests break no precondition, one after the other. -/
theorem answerAll_completes (hs : s.Reachable) (defaults : InferenceOptions)
    (requests : List Request) :
    Completes (Exhausts s) (answerAll defaults requests) s fun outcomes _ =>
      outcomes.length = requests.length := by
  unfold answerAll
  induction requests generalizing s with
  | nil => exact .pure rfl
  | cons request rest ih =>
      rw [List.mapM_cons]
      have hfirst : Completes (Exhausts s) (request.command defaults).run s
          fun _ s' => Performs Interning s s' :=
        Completes.of_run (command_advances hs defaults request) fun outcome s' hrun _ =>
          (command_steps hs.lawful defaults request outcome s' hrun).1
      refine hfirst.bind fun outcome mid hperforms => ?_
      refine ((ih (hperforms.reachable hs)).imp_lack (·.before hperforms)).bind
        fun outcomes last hlength => .pure ?_
      rw [List.length_cons, List.length_cons, hlength]

end Request

namespace Catalog

open TypeExpr (found allRanks)

/-- No input breaks a precondition. Whatever a catalog declares, its store is built or the catalog
is refused. Whatever is then asked, in whatever order, each request gets its report or its error.
Nothing but fuel can be lacking: no handle out of range is read, substitution has all its arguments,
no array has rank zero, inference has an argument for each parameter, and guards and depth counters
are left as often as they are entered. Fuel is lacking only where an operation makes more types
pending than handles can tell apart, or a constraint check leads to an identity walk that has no
end. A text is cut between two characters only, where it stops being a type expression and where a
name is read from it, and its ranks fit a 32-bit word if its bytes can be counted by one. -/
theorem build_requests_complete (catalog : Catalog) :
    ((∃ outcome, catalog.build = .ok outcome) ∨
        catalog.build = .error .outOfFuel ∧ catalog.OutgrowsHandles) ∧
      (∀ store, catalog.build = .ok (.ok store) → ∀ requests : List Request,
        Completes (Request.Exhausts store) (Request.answerAll catalog.options requests) store
          fun outcomes _ => outcomes.length = requests.length) ∧
      ∀ text : String, TypeExpr.CutBetweenCharacters text ∧
        ∀ rank ∈ allRanks (found text.toList).1,
          1 ≤ rank ∧ (text.utf8ByteSize < 2 ^ 32 → rank < 2 ^ 32) := by
  refine ⟨build_completes catalog, fun store hbuild requests => ?_, fun text => ?_⟩
  · exact Request.answerAll_completes (build_reachable hbuild) catalog.options requests
  · refine ⟨TypeExpr.cutBetweenCharacters text, fun rank hrank => ?_⟩
    obtain ⟨hpositive, hroom⟩ := (TypeExpr.consumes_found text.toList).ranks rank hrank
    have hbytes := TypeExpr.length_le_utf8ByteSize text.toList
    rw [String.ofList_toList] at hbytes
    exact ⟨hpositive, fun hshort => Nat.lt_of_le_of_lt (hroom.trans hbytes) hshort⟩

/-- Nodes that compare with nodes, and a callable that takes two of them. -/
def nodeCatalog : Catalog where
  types := [
    { name := "int", kind := .structType },
    { name := "I", kind := .interfaceType, params := [{ name := "T" }] },
    { name := "Node", kind := .classType,
      params := [{ name := "T", constraints := ["I<Node<T>>"] }], interfaces := ["I<Node<T>>"] }]
  callables := [{
    name := "Max", typeParams := [{ name := "T", constraints := ["I<T>"] }]
    params := [{ type := "Node<T>" }, { type := "T[,]" }] }]

/-- Requests that lack an argument, end early, name nothing or break off inside a bracket, between
requests that are answered. -/
def nodeRequests : List Request := [
  .infer { callable := "Max", types := ["Node<int>"] },
  .check "Node" ["Node<Node<int"],
  .check "Max" ["Node<int>[,,]"],
  .infer { callable := "Max", types := ["Node<int>", "int[,]"], boundsOnly := true },
  .check "é" ["int"],
  .infer { callable := "Max", types := ["Node<int>", "int[,"] }]

theorem build_requests_complete_nodes :
    nodeCatalog.build = .ok (.ok (builtStore nodeCatalog)) ∧
      Completes (Request.Exhausts (builtStore nodeCatalog))
        (Request.answerAll nodeCatalog.options nodeRequests) (builtStore nodeCatalog)
        fun outcomes _ => outcomes.length = 6 := by
  have hbuild : nodeCatalog.build = .ok (.ok (builtStore nodeCatalog)) := by decide +kernel
  exact ⟨hbuild, (build_requests_complete nodeCatalog).2.1 _ hbuild nodeRequests⟩

end Catalog

end NominalGenerics
