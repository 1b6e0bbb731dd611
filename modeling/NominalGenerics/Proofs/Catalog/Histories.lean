import NominalGenerics.Proofs.Catalog.Building
import NominalGenerics.Proofs.Store.Outgrowth
import NominalGenerics.Proofs.TypeExpr.Reading

/-!
# Histories

Requests on the store of a catalog intern types, so a request finds a store that depends on those
before it. What it reads is repeated here on the store as it was built: names find the same types,
and types that are built in the same way correspond, although they have other handles. The solver
cannot tell corresponding types apart. So a request has the outcome that it has on a fresh copy.
-/

namespace NominalGenerics

open Store

section Interning

variable {common s s' t : Store}

/-- `t` is a later outgrowth. Where its supertypes are ranked, those of `s` are, and it stays
settled. -/
structure Outgrows (common s t : Store) : Prop where
  outgrowth : Outgrowth common t
  later : Later s t
  ranks : ∀ {rank}, t.Ranks common.size rank → s.Ranks common.size rank
  settled : ∀ {rank}, t.Ranks common.size rank → s.SettledFrom common.size →
    t.SettledFrom common.size

theorem Outgrows.trans (h : Outgrows common s s') (h' : Outgrows common s' t) :
    Outgrows common s t :=
  ⟨h'.outgrowth, h.later.trans h'.later, fun hranks => h.ranks (h'.ranks hranks),
    fun hranks hs => h'.settled hranks (h.settled (h'.ranks hranks) hs)⟩

/-- Interning on an outgrowth. -/
theorem Store.Outgrowth.step (hs : Outgrowth common s) (op : Operation)
    (hop : op.interns = true) (hrun : op.run.run s = .ok ((), s')) : Outgrows common s s' := by
  obtain ⟨mid, hgrown, hmid, hclose⟩ := hs.lawful.interning hop hrun
  obtain ⟨hlawful, hlater⟩ := hs.lawful.intern hgrown hmid hclose
  have hderived : s'.DerivedFrom common.size :=
    (robust_derivedFrom common.size).interning hs.derived hs.lawful hop hrun
  refine ⟨hs.next hlawful hlater hderived, hlater, fun hranks => ?_, fun hranks hsettled => ?_⟩
  · exact hranks.of_links hlater.size_le fun type htype =>
      hs.lawful.intern_links hs.finished hgrown hmid hclose htype
  · exact hsettled.intern hgrown hmid hclose hranks hs.enlarges.later.size_le

/-- A run of interning on an outgrowth. -/
theorem Performs.outgrows (h : Performs Request.Interning s t) (hs : Outgrowth common s) :
    Outgrows common s t := by
  induction h with
  | refl s => exact ⟨hs, .refl s, id, fun _ => id⟩
  | step _ hop hrun _ ih =>
      have hstep := hs.step _ hop hrun
      exact hstep.trans (ih hstep.outgrowth)

end Interning

section Names

variable {common s t : Store} {name : String}

open TypeExpr

/-- No interned type is written as a name. -/
theorem Store.Derived.not_isName {entry : Entry} (h : s.Derived entry) : ¬ IsName entry.name := by
  cases h with
  | @instantiation _ declared _ parts _ _ hcore =>
      have hwritten : entry.name = instantiationName declared.name (parts.map (·.name)) :=
        congrArg Entry.name hcore
      exact hwritten ▸ not_isName_instantiationName _ _
  | @array _ part rank _ hcore =>
      have hwritten : entry.name = arrayName part.name rank := congrArg Entry.name hcore
      exact hwritten ▸ not_isName_arrayName _ _

theorem Store.Enlarges.names (hs : Enlarges common s) : common.Names s :=
  fun _ entry hentry => ⟨entry, hs.kept hentry, rfl, rfl⟩

/-- A name that finds no interned type finds what it finds in the common store. -/
theorem Store.Enlarges.lookup?_eq (hs : Enlarges common s)
    (h : ∀ type, s.lookup? name = some type → type < common.size) :
    s.lookup? name = common.lookup? name := by
  cases hfound : common.lookup? name with
  | some type => exact hs.names.lookup? hfound
  | none =>
      cases hlate : s.lookup? name with
      | none => rfl
      | some type =>
          obtain ⟨entry, hentry, hname, hkind⟩ := lookup?_entry hlate
          rw [hs.getElem? (h type hlate)] at hentry
          have hsome := lookup?_isSome hentry hname hkind
          rw [hfound] at hsome
          cases hsome

theorem Store.Outgrowth.lookup?_name (hs : Outgrowth common s) (hname : IsName name) :
    s.lookup? name = common.lookup? name := by
  refine hs.enlarges.lookup?_eq fun type hfound => Nat.lt_of_not_le fun hge => ?_
  obtain ⟨entry, hentry, rfl, -⟩ := lookup?_entry hfound
  exact (hs.derived type entry hge hentry).not_isName hname

end Names

section Repeating

variable {common s s' t u u' : Store} {rank : Handle → Nat} {ε ε' α β γ δ : Type}

/-- What `y` does on the way from `u` to `t`, `x` does on `s`: it ends on a store that follows `t`
with a related value, or with the same error. -/
def Repeats (common t : Store) (R : Store → α → β → Prop) (x : ExceptT ε StoreM α) (s : Store)
    (y : ExceptT ε StoreM β) (u : Store) : Prop :=
  ∀ outcome u', y.run.run u = .ok (outcome, u') → Performs Request.Interning u' t →
    Returns x.run s fun outcome' s' =>
      Follows common s' t ∧ Alike (R s') outcome' outcome ∧ Later s s'

namespace Repeats

variable {R : Store → α → β → Prop} {S : Store → γ → δ → Prop} {x : ExceptT ε StoreM α}
  {y : ExceptT ε StoreM β}

theorem pure {a : α} {b : β} (hs : Follows common s t) (h : R s a b) :
    Repeats common t R (pure a : ExceptT ε StoreM α) s (pure b) u := by
  intro outcome u' hrun _
  cases hrun
  exact ⟨_, s, rfl, hs, .ok h, .refl s⟩

theorem throw (hs : Follows common s t) (e : ε) :
    Repeats common t R (throw e : ExceptT ε StoreM α) s (throw e) u := by
  intro outcome u' hrun _
  cases hrun
  exact ⟨_, s, rfl, hs, .error e, .refl s⟩

/-- Sequencing. What follows `y` interns, so that `t` is still ahead where `y` ends. -/
theorem bind {f : α → ExceptT ε StoreM γ} {g : β → ExceptT ε StoreM δ} {post : β → Store → Prop}
    (hx : Repeats common t R x s y u) (hy : Steps Request.Interning y u post)
    (hg : ∀ b mid, y.run.run u = .ok (.ok b, mid) → Performs Request.Interning u mid → post b mid →
      Steps Request.Interning (g b) mid fun _ _ => True)
    (hf : ∀ a b s' u', Follows common s' t → Later s s' → R s' a b →
      Performs Request.Interning u u' → post b u' → Repeats common t S (f a) s' (g b) u') :
    Repeats common t S (x >>= f) s (y >>= g) u := by
  intro outcome last hrun hlast
  rw [ExceptT.run_bind] at hrun
  obtain ⟨first, u', hfirst, hrun⟩ := run_bind_eq_ok.mp hrun
  obtain ⟨hperforms, hpost⟩ := hy first u' hfirst
  cases first with
  | error e =>
      cases hrun
      obtain ⟨first', s', hfirst', hs', halike, hlater⟩ := hx _ _ hfirst hlast
      cases halike
      refine ⟨.error e, s', ?_, hs', .error e, hlater⟩
      rw [ExceptT.run_bind]
      exact run_bind_eq_ok.mpr ⟨_, s', hfirst', rfl⟩
  | ok b =>
      have hrest := (hg b u' hfirst hperforms (hpost b rfl) outcome last hrun).1
      obtain ⟨first', s', hfirst', hs', halike, hlater⟩ := hx _ u' hfirst (hrest.trans hlast)
      cases halike with
      | @ok a _ hab =>
          obtain ⟨outcome', s'', hrun', hs'', halike', hlater'⟩ :=
            hf a b s' u' hs' hlater hab hperforms (hpost b rfl) outcome last hrun hlast
          refine ⟨outcome', s'', ?_, hs'', halike', hlater.trans hlater'⟩
          rw [ExceptT.run_bind]
          exact run_bind_eq_ok.mpr ⟨_, s', hfirst', hrun'⟩

theorem adapt (h : Repeats common t R x s y u) (f : ε → ε') :
    Repeats common t R (ExceptT.adapt f x) s (ExceptT.adapt f y) u := by
  intro outcome u' hrun hu'
  rw [run_adapt] at hrun
  obtain ⟨first, _, hfirst, hrun⟩ := run_bind_eq_ok.mp hrun
  obtain ⟨rfl, rfl⟩ := run_pure_eq_ok.mp hrun
  obtain ⟨first', s', hfirst', hs', halike, hlater⟩ := h _ _ hfirst hu'
  refine ⟨first'.mapError f, s', ?_, hs', ?_, hlater⟩
  · rw [run_adapt]
    exact run_bind_eq_ok.mpr ⟨_, s', hfirst', rfl⟩
  · cases halike with
    | ok hab => exact .ok hab
    | error e => exact .error (f e)

theorem query_bind {f : α → ExceptT ε StoreM γ} {g : β → ExceptT ε StoreM δ} {q : Query α}
    {q' : Query β} {a : α} {b : β} (hq : q = .ok a) (hq' : q' = .ok b)
    (h : Repeats common t S (f a) s (g b) u) :
    Repeats common t S (liftM q >>= f) s (liftM q' >>= g) u := by
  subst hq hq'
  exact h

theorem get_bind {f : Store → ExceptT ε StoreM γ} {g : Store → ExceptT ε StoreM δ}
    (h : Repeats common t S (f s) s (g u) u) :
    Repeats common t S (getThe Store >>= f) s (getThe Store >>= g) u := h

theorem lift {x : StoreM α} {y : StoreM β}
    (h : ∀ b u', y.run u = .ok (b, u') → Performs Request.Interning u' t →
      Returns x s fun a s' => Follows common s' t ∧ R s' a b ∧ Later s s') :
    Repeats common t R (liftM x : ExceptT ε StoreM α) s (liftM y) u := by
  intro outcome u' hrun hu'
  rw [run_liftM] at hrun
  obtain ⟨b, _, hy, hrun⟩ := run_bind_eq_ok.mp hrun
  obtain ⟨rfl, rfl⟩ := run_pure_eq_ok.mp hrun
  obtain ⟨a, s', hx, hs', hab, hlater⟩ := h b _ hy hu'
  refine ⟨.ok a, s', ?_, hs', .ok hab, hlater⟩
  rw [run_liftM]
  exact run_bind_eq_ok.mpr ⟨a, s', hx, rfl⟩

end Repeats

end Repeating

section Reading

variable {common s t u u' : Store} {rank : Handle → Nat}

open TypeExpr

theorem Store.Lawful.instantiate_applies (hs : u.Lawful) {definition type : Handle}
    {args params : List Handle} (hd : u.Defines definition params)
    (hlength : params.length = args.length)
    (hrun : (Store.instantiate definition args).run u = .ok (type, u')) :
    u'.Applies definition args type := by
  obtain ⟨mid, hintern, hclose⟩ := run_instantiate_eq_ok hrun
  obtain ⟨hcoherent, hgrown, -, happlies⟩ := internInstance_run hs.wellFormed.coherent hintern
  exact ((hs.grown_draining hgrown hcoherent).closeIfFinished_later hclose).extends.applies
    (happlies params hd hlength)

theorem Store.Lawful.arrayOf_isArray (hs : u.Lawful) {element type : Handle} {order : Nat}
    (hrun : (Store.arrayOf element order).run u = .ok (type, u')) :
    u'.IsArray element (max order 1) type := by
  obtain ⟨mid, hintern, hclose⟩ := run_arrayOf_eq_ok hrun
  obtain ⟨hcoherent, hgrown, -, harray⟩ := internArray_run hs.wellFormed.coherent hintern
  exact ((hs.grown_draining hgrown hcoherent).closeIfFinished_later hclose).extends.isArray harray

/-- A name finds the same type of the common store in all its outgrowths. -/
theorem resolve_bind (hs : Follows common s t) (hu : Outgrowth common u) {name : String}
    (hname : IsName name) {α β : Type} {S : Store → α → β → Prop} {f : Handle → TypeExprM α}
    {g : Handle → TypeExprM β}
    (h : ∀ type, type < common.size → Repeats common t S (f type) s (g type) u) :
    Repeats common t S (resolve [] name >>= f) s (resolve [] name >>= g) u := by
  have hread : ∀ {α : Type} (f : Handle → TypeExprM α) (s : Store),
      (resolve [] name >>= f).run.run s =
        (s.lookup? name).elim (.ok (.error (.unknownType name), s)) fun type =>
          (f type).run.run s := by
    intro α f s
    rw [resolve, List.lookup_nil]
    dsimp only
    rw [bind_assoc, run_getThe_bind]
    cases s.lookup? name <;> rfl
  intro outcome u' hrun hu'
  rw [hread, hu.lookup?_name hname] at hrun
  unfold Returns
  rw [hread, hs.outgrowth.lookup?_name hname]
  cases hfound : common.lookup? name with
  | some type =>
      rw [hfound] at hrun
      exact h type (lookup?_lt hfound) outcome u' hrun hu'
  | none =>
      rw [hfound] at hrun
      cases hrun
      exact ⟨_, s, rfl, hs, .error _, .refl s⟩

theorem resolve_repeats (hs : Follows common s t) (hu : Outgrowth common u) {name : String}
    (hname : IsName name) :
    Repeats common t (Store.Corresponds common · t) (resolve [] name) s (resolve [] name) u := by
  have h := resolve_bind (S := (Store.Corresponds common · t)) (f := pure) (g := pure) hs hu hname
    fun _ htype => .pure hs (.same htype)
  rwa [bind_pure] at h

/-- A type that is its own definition is one. -/
theorem Store.Coherent.defines_self (hs : s.Coherent) {type : Handle} {entry : Entry}
    (hentry : s.types[type]? = some entry) (hself : entry.definition? type = some type) :
    s.Defines type entry.arguments := by
  have hform : s.form type = some entry.form := form_of_entry hentry
  cases hshape : entry.shape with
  | definition params =>
      refine (defines_of_entry (entry_eq_ok.mpr hentry)).mpr ?_
      rw [Entry.arguments, hshape]
  | instantiation definition args =>
      simp only [Entry.definition?, hshape, Option.some.injEq] at hself
      obtain ⟨-, hlt, -⟩ := hs.instantiation hform (Entry.form_shape_eq_instantiation.mpr hshape)
      exact absurd hlt (hself ▸ Nat.lt_irrefl _)
  | named => simp [Entry.definition?, hshape] at hself
  | array element rank => simp [Entry.definition?, hshape] at hself
  | parameter info => simp [Entry.definition?, hshape] at hself

theorem instantiate_repeats (hs : Follows common s t) (hu : Outgrowth common u)
    (ht : Outgrowth common t) (hranks : t.Ranks common.size rank) {name : String}
    (hname : IsName name) {args args' : List Handle}
    (hargs : List.Forall₂ (Store.Corresponds common s t) args args') :
    Repeats common t (Store.Corresponds common · t) (instantiate [] name args) s
      (instantiate [] name args') u := by
  refine resolve_bind hs hu hname fun definition hlt => ?_
  obtain ⟨entry, hentry⟩ := entry_of_lt hlt
  have hentry_s := hs.outgrowth.enlarges.kept hentry
  have hentry_u := hu.enlarges.kept hentry
  refine .get_bind (.query_bind (query_of_entry hentry_s (·.definition? definition))
    (query_of_entry hentry_u (·.definition? definition)) ?_)
  dsimp only
  split
  · next hself =>
      have hdefines := hu.lawful.wellFormed.coherent.defines_self hentry_u hself
      refine .query_bind (query_of_entry hentry_s (·.arguments))
        (query_of_entry hentry_u (·.arguments)) ?_
      rw [hargs.length_eq]
      split
      · next hlength =>
          refine .lift fun type u' hrun hu' => hs.instantiate ht hranks hargs ?_
          have hafter := hu.step (.instantiate definition args') rfl (discard_run hrun)
          exact (hu'.outgrows hafter.outgrowth).later.extends.applies
            (hu.lawful.instantiate_applies hdefines hlength hrun)
      · exact .throw hs _
  · exact .throw hs _

theorem intern_interning (hu : u.Lawful) (expr : TypeExpr) :
    Steps Request.Interning (expr.intern []) u fun type u' => type < u'.size :=
  (intern_steps hu (inScope_nil u) expr (List.Subset.refl _)).mono Request.interning_interns

theorem internAll_interning (hu : u.Lawful) (exprs : List TypeExpr) :
    Steps Request.Interning (internAll [] exprs) u fun types u' => ∀ type ∈ types, type < u'.size :=
  (internAll_steps hu (inScope_nil u) exprs (List.Subset.refl _)).mono Request.interning_interns

theorem arrayOf_steps {element : Handle} (helement : element < u.size) (order : Nat) :
    Steps Request.Interning (liftM (Store.arrayOf element order) : TypeExprM Handle) u
      fun _ _ => True := by
  refine .lift fun type u' hrun => ⟨?_, trivial⟩
  have hallowed : (Operation.arrayOf element order).Allowed u :=
    ⟨by simpa [Operation.handles] using helement, by simp [Operation.isDeclaration]⟩
  exact .single hallowed rfl (discard_run hrun)

theorem arrayOf_repeats (hs : Follows common s t) (hu : Outgrowth common u)
    (ht : Outgrowth common t) (hranks : t.Ranks common.size rank) {element element' : Handle}
    (helement : Store.Corresponds common s t element element') (order : Nat) :
    Repeats common t (Store.Corresponds common · t)
      (liftM (Store.arrayOf element order) : TypeExprM Handle) s
      (liftM (Store.arrayOf element' order)) u := by
  refine .lift fun type u' hrun hu' => hs.arrayOf ht hranks helement ?_
  have hafter := hu.step (.arrayOf element' order) rfl (discard_run hrun)
  exact (hu'.outgrows hafter.outgrowth).later.extends.isArray (hu.lawful.arrayOf_isArray hrun)

mutual

/-- Reading an expression gives corresponding types. -/
theorem intern_repeats {s u : Store} (hs : Follows common s t) (hu : Outgrowth common u)
    (ht : Outgrowth common t) (hranks : t.Ranks common.size rank) :
    (expr : TypeExpr) → (∀ name ∈ expr.names, IsName name) →
      Repeats common t (Store.Corresponds common · t) (expr.intern []) s (expr.intern []) u
  | .named name, hnames => resolve_repeats hs hu (hnames name (by simp [names]))
  | .apply name args, hnames => by
      rw [names, List.forall_mem_cons] at hnames
      rw [intern]
      refine (internAll_repeats hs hu ht hranks args hnames.2).bind
        (internAll_interning hu.lawful args) (fun types mid hrun hperforms htypes => ?_)
        fun types types' s' u' hs' _ htypes hperforms _ => ?_
      · have hsteps := instantiate_steps (hperforms.lawful hu.lawful) (inScope_nil mid)
          (List.mem_singleton_self (name, args)) htypes hrun
        exact (hsteps.mono Request.interning_interns).imp fun _ _ _ _ => trivial
      · exact instantiate_repeats hs' (hperforms.outgrows hu).outgrowth ht hranks hnames.1 htypes
  | .array element order, hnames => by
      rw [names] at hnames
      rw [intern]
      refine (intern_repeats hs hu ht hranks element hnames).bind
        (intern_interning hu.lawful element) (fun type mid _ _ hlt => ?_)
        fun type type' s' u' hs' _ htype hperforms _ => ?_
      · exact arrayOf_steps hlt order
      · exact arrayOf_repeats hs' (hperforms.outgrows hu).outgrowth ht hranks htype order

theorem internAll_repeats {s u : Store} (hs : Follows common s t) (hu : Outgrowth common u)
    (ht : Outgrowth common t) (hranks : t.Ranks common.size rank) :
    (exprs : List TypeExpr) → (∀ name ∈ TypeExpr.allNames exprs, IsName name) →
      Repeats common t (fun s => List.Forall₂ (Store.Corresponds common s t)) (internAll [] exprs) s
        (internAll [] exprs) u
  | [], _ => .pure hs .nil
  | expr :: rest, hnames => by
      rw [TypeExpr.allNames, List.forall_mem_append] at hnames
      rw [internAll]
      refine (intern_repeats hs hu ht hranks expr hnames.1).bind
        (intern_interning hu.lawful expr) (fun type mid _ hperforms _ => ?_)
        fun type type' s' u' hs' _ htype hperforms _ => ?_
      · exact (internAll_interning (hperforms.lawful hu.lawful) rest).bind
          fun _ _ _ _ => .pure trivial
      · have hu' := (hperforms.outgrows hu).outgrowth
        refine (internAll_repeats hs' hu' ht hranks rest hnames.2).bind
          (internAll_interning hu'.lawful rest) (fun _ _ _ _ _ => .pure trivial)
          fun types types' s'' _ hs'' hlater htypes _ _ => ?_
        exact .pure hs'' (.cons (htype.mono hlater.extends) htypes)

end

/-- Reading a text gives corresponding types or the same error. -/
theorem parseType_repeats (hs : Follows common s t) (hu : Outgrowth common u)
    (ht : Outgrowth common t) (hranks : t.Ranks common.size rank) (text : String) :
    Repeats common t (Store.Corresponds common · t) (parseType [] text) s
      (parseType [] text) u := by
  unfold parseType
  cases hread : TypeExpr.read text.toList with
  | ok expr => exact intern_repeats hs hu ht hranks expr (isName_of_read hread)
  | error stop =>
      have hnames := (consumes_of_read hread).names
      have hdiscard : Repeats common t (fun _ _ _ => True) (discard (internAll [] stop.complete)) s
          (discard (internAll [] stop.complete)) u :=
        (internAll_repeats hs hu ht hranks stop.complete hnames).bind
          (internAll_interning hu.lawful stop.complete) (fun _ _ _ _ _ => .pure trivial)
          fun _ _ _ _ hs' _ _ _ _ => .pure hs' trivial
      have hsteps : Steps Request.Interning (discard (internAll [] stop.complete)) u
          fun _ _ => True :=
        (internAll_interning hu.lawful stop.complete).bind fun _ _ _ _ => .pure trivial
      exact hdiscard.bind hsteps (fun _ _ _ _ _ => .throw _) fun _ _ _ _ hs' _ _ _ _ => .throw hs' _

/-- Reading texts gives corresponding types or the same error. -/
theorem parseAll_repeats (hs : Follows common s t) (hu : Outgrowth common u)
    (ht : Outgrowth common t) (hranks : t.Ranks common.size rank) (texts : List String) :
    Repeats common t (fun s => List.Forall₂ (Store.Corresponds common s t))
      (Command.parseAll texts) s (Command.parseAll texts) u := by
  induction texts generalizing s u with
  | nil => exact .pure hs .nil
  | cons text rest ih =>
      unfold Command.parseAll
      rw [List.mapM_cons]
      refine ((parseType_repeats hs hu ht hranks text).adapt _).bind
        (((parseType_steps hu.lawful (inScope_nil u) text).mono Request.interning_interns).adapt _)
        (fun type mid _ hperforms _ => ?_) fun type type' s' u' hs' _ htype hperforms _ => ?_
      · exact (Request.parseAll_steps (hperforms.lawful hu.lawful) rest).bind
          fun _ _ _ _ => .pure trivial
      · have hu' := (hperforms.outgrows hu).outgrowth
        refine (ih hs' hu').bind (Request.parseAll_steps hu'.lawful rest)
          (fun _ _ _ _ _ => .pure trivial) fun types types' s'' _ hs'' hlater htypes _ _ => ?_
        exact .pure hs'' (.cons (htype.mono hlater.extends) htypes)

end Reading

section Answers

variable {common s t u : Store} {rank : Handle → Nat}

open MonadRelation

/-- Commands that read the stores `s` and `t` and go through related steps. -/
abbrev answering (s t : Store) : MonadRelation CommandM CommandM :=
  (query.withState fun a b => a = s ∧ b = t).withError CommandError

theorem answering_query {α β : Type} {R : α → β → Prop} {x : Query α} {y : Query β}
    (h : query.Rel R x y) : (answering s t).Rel R (liftM x : CommandM α) (liftM y : CommandM β) :=
  (query.withState fun a b => a = s ∧ b = t).withError_lift (lift_query h)

theorem answering_get_bind {α β : Type} {R : α → β → Prop} {f : Store → CommandM α}
    {g : Store → CommandM β} (h : (answering s t).Rel R (f s) (g t)) :
    (answering s t).Rel R (getThe Store >>= f) (getThe Store >>= g) := by
  refine (answering s t).bind
    ((query.withState fun a b => a = s ∧ b = t).withError_lift query.withState_get) ?_
  rintro _ _ ⟨rfl, rfl⟩
  exact h

theorem answering_throw {α β : Type} {R : α → β → Prop} (cause : CommandError) :
    (answering s t).Rel R (throw cause : CommandM α) (throw cause : CommandM β) :=
  (query.withState fun a b => a = s ∧ b = t).withError_throw cause

/-- Related commands have the same outcome. -/
theorem answering_eq {α : Type} {x y : CommandM α} (h : (answering s t).Rel (· = ·) x y) :
    Prod.fst <$> x.run.run s = Prod.fst <$> y.run.run t := by
  have hrel : Alike (fun p q => Alike (· = ·) p.1 q.1 ∧ p.2 = s ∧ q.2 = t) (x.run.run s)
      (y.run.run t) := h s t ⟨rfl, rfl⟩
  generalize x.run.run s = left, y.run.run t = right at hrel
  cases hrel with
  | error fault => rfl
  | ok h => exact congrArg Except.ok h.1.eq

theorem outcome_get {α : Type} {f g : Store → CommandM α}
    (h : Prod.fst <$> (f s).run.run s = Prod.fst <$> (g u).run.run u) :
    Prod.fst <$> (getThe Store >>= f : CommandM α).run.run s =
      Prod.fst <$> (getThe Store >>= g : CommandM α).run.run u := h

/-- The outcome of a command that reads texts and answers from what they name. -/
theorem outcome_repeats (hs : Follows common s t) (hu : Outgrowth common u)
    (ht : Outgrowth common t) (hranks : t.Ranks common.size rank) {texts : List String}
    {read : Except CommandError (List Handle)}
    (hreads : (Command.parseAll texts).run.run u = .ok (read, t))
    {f g : List Handle → CommandM Report}
    (hfg : ∀ s' args args', Follows common s' t →
      List.Forall₂ (Store.Corresponds common s' t) args args' →
        (answering s' t).Rel (· = ·) (f args) (g args')) :
    Prod.fst <$> (Command.parseAll texts >>= f).run.run s =
      Prod.fst <$> (Command.parseAll texts >>= g).run.run u := by
  obtain ⟨read', s', hreads', hs', halike, -⟩ :=
    parseAll_repeats hs hu ht hranks texts read t hreads (.refl t)
  rw [ExceptT.run_bind, ExceptT.run_bind, StateT.run_bind, StateT.run_bind, hreads, hreads']
  cases halike with
  | error cause => rfl
  | ok hargs => exact answering_eq (hfg s' _ _ hs' hargs)

theorem param?_of_isParameter {entry : Entry} (h : entry.isParameter = true) :
    ∃ info, entry.param? = some info := by
  unfold Entry.isParameter at h
  unfold Entry.param?
  split at h
  · next info _ => exact ⟨info, rfl⟩
  · cases h

/-- A name that finds no interned type finds the same type where a store follows. -/
theorem Store.Follows.lookup?_eq (hs : Follows common s t) (ht : Outgrowth common t) {name : String}
    (h : ∀ type, t.lookup? name = some type → type < common.size) :
    s.lookup? name = t.lookup? name := by
  have hcommon := ht.enlarges.lookup?_eq h
  rw [hcommon]
  refine hs.outgrowth.enlarges.lookup?_eq fun type hfound => ?_
  obtain ⟨entry, hentry, hname, hkind⟩ := lookup?_entry hfound
  -- A type of that name has a counterpart of that name, so the name is found in `t`.
  obtain ⟨b, hab⟩ := hs.covers.counterpart type (lookup?_lt hfound)
  obtain ⟨entry', hentry'⟩ := entry_of_lt (hab.symm.lt ht.enlarges)
  have hname' := (hs.outgrowth.recordsAlike ht hab hentry hentry').name
  have hkind' : entry'.isParameter = false := by
    refine Bool.eq_false_iff.mpr fun hparam => ?_
    obtain ⟨info, hinfo⟩ := param?_of_isParameter hparam
    have hlt := ht.lt_of_param? hentry' hinfo
    obtain rfl := hab.symm.eq_of_lt hlt
    rw [hs.outgrowth.enlarges.getElem? hlt, ← ht.enlarges.getElem? hlt, hentry'] at hentry
    cases hentry
    rw [hkind] at hparam
    cases hparam
  obtain ⟨found, hfound'⟩ := Option.isSome_iff_exists.mp
    (lookup?_isSome hentry' (hname'.trans hname) hkind')
  have hsame := hs.outgrowth.enlarges.names.lookup? (hcommon.symm.trans hfound')
  rw [hfound, Option.some.injEq] at hsame
  exact hsame ▸ h found hfound'

/-- The types of a signature of the common store are their own counterparts. -/
theorem Store.Lawful.signatureImage {φ : Handle → Handle} (hs : common.Lawful)
    (himage : ∀ type, type < common.size → Image φ s type type) {id : CallableId}
    {signature : Signature} (hsignature : common.callable? id = some signature) :
    SignatureImage φ s signature signature := by
  have hrange := hs.wellFormed.inRange.signatures hsignature
  have htypeParams : ∀ param ∈ signature.typeParams, param < common.size := by
    have := Catalog.typeParams_lt hs id
    rwa [hsignature] at this
  have hrel : ∀ {type : Option Handle}, (∀ t, type = some t → t < common.size) →
      Option.Rel (Image φ s) type type := by
    intro type hlt
    cases type with
    | none => exact .none
    | some type => exact .some (himage type (hlt type rfl))
  exact ⟨rfl, List.forall₂_same.mpr fun param hparam => himage param (htypeParams param hparam),
    List.forall₂_same.mpr fun param hparam => ⟨himage _ (hrange.params param hparam), rfl⟩,
    hrel hrange.returns, hrel hrange.declaringType⟩

end Answers

namespace Request

variable {common s t u : Store} {rank : Handle → Nat}

/-- The texts of types that a request gives. -/
def types : Request → List String
  | infer request => request.types
  | check _ types => types

/-- The outcome of a request on a store: a report or an error. -/
def outcome (defaults : InferenceOptions) (request : Request) (store : Store) :
    Query (Except CommandError Report) :=
  Prod.fst <$> (request.command defaults).run.run store

/-- A check is about a callable, or about a name that finds none of the types of `t` beyond those of
`common`. -/
def ChecksDeclared (common t : Store) : Request → Prop
  | infer _ => True
  | check declaration _ => common.findCallable? declaration = none →
      ∀ type, t.lookup? declaration = some type → type < common.size

/-- The stores around a request: `u` is what earlier requests have made of `common`, and `t` is what
reading the texts of the request makes of that. No closing walk has given up. -/
structure Setting (common u t : Store) (rank : Handle → Nat) : Prop where
  lawful : common.Lawful
  constraints : common.ConstraintsInRange
  roles : common.RolesInRange
  before : Outgrowth common u
  after : Outgrowth common t
  settled : t.SettledFrom common.size
  ranks : t.Ranks common.size rank

namespace Setting

/-- Stores that follow are embedded, and the types of the common store are their own images. -/
theorem embeds (h : Setting common u t rank) (hs : Follows common s t) :
    ∃ φ, FullyEmbeds φ s t ∧ (∀ a b, Store.Corresponds common s t a b → Image φ s a b) ∧
      ∀ id signature, common.callable? id = some signature →
        SignatureImage φ s signature signature := by
  obtain ⟨φ, hembeds, himage⟩ :=
    hs.embeds h.after h.settled h.ranks h.constraints h.roles
  exact ⟨φ, hembeds, himage, fun id signature hsignature =>
    h.lawful.signatureImage (fun type hlt => himage type type (.same hlt)) hsignature⟩

theorem findCallable? (h : Outgrowth common s) (name : String) :
    s.findCallable? name = common.findCallable? name := by
  rw [Store.findCallable?, Store.findCallable?, h.enlarges.later.callables]

theorem callable? (h : Outgrowth common s) (id : CallableId) :
    s.callable? id = common.callable? id := by
  rw [Store.callable?, Store.callable?, h.enlarges.later.callables]

theorem callable?_of_find {name : String} {id : CallableId} (h : s.findCallable? name = some id) :
    ∃ signature, s.callable? id = some signature := by
  obtain ⟨hlt, -⟩ := Array.findIdx?_eq_some_iff_getElem.mp h
  exact ⟨_, Array.getElem?_eq_getElem hlt⟩

theorem outcome_infer (h : Setting common u t rank) (hs : Follows common s t)
    (defaults : InferenceOptions) (request : Command.InferRequest)
    {read : Except CommandError (List Handle)}
    (hreads : (Command.parseAll request.types).run.run u = .ok (read, t)) :
    (infer request).outcome defaults s = (infer request).outcome defaults u := by
  refine outcome_get ?_
  dsimp only
  rw [findCallable? hs.outgrowth, findCallable? h.before]
  split
  · rfl
  · next id _ =>
      refine outcome_repeats hs h.before h.after h.ranks hreads fun s' args args' hs' hargs => ?_
      obtain ⟨φ, hembeds, himage, hsignatures⟩ := h.embeds hs'
      have himages := hargs.imp himage
      refine answering_get_bind ?_
      rw [callable? hs'.outgrowth, callable? h.after, himages.length_eq]
      split
      · exact answering_throw _
      · next signature hsignature =>
          have hsame := hsignatures id signature hsignature
          refine (answering s' t).ite Iff.rfl (fun _ => answering_throw _) fun _ => ?_
          refine (answering s' t).branch rfl ?_ ?_
          · exact answering_query (hembeds.boundsReport hsame himages)
          · exact answering_query (hembeds.inferenceReport hsame himages _)

theorem outcome_check (h : Setting common u t rank) (hs : Follows common s t)
    (defaults : InferenceOptions) {declaration : String} {texts : List String}
    (hdeclared : (check declaration texts).ChecksDeclared common t)
    {read : Except CommandError (List Handle)}
    (hreads : (Command.parseAll texts).run.run u = .ok (read, t)) :
    (check declaration texts).outcome defaults s =
      (check declaration texts).outcome defaults u := by
  refine outcome_repeats hs h.before h.after h.ranks hreads fun s' args args' hs' hargs => ?_
  obtain ⟨φ, hembeds, himage, hsignatures⟩ := h.embeds hs'
  have himages := hargs.imp himage
  refine answering_get_bind ?_
  rw [findCallable? hs'.outgrowth, findCallable? h.after]
  have hanswer : ∀ d d', FullyEmbeds.DeclarationImage φ s' d d' → (answering s' t).Rel (· = ·) (do
      let satisfied ← liftM (s'.satisfiesConstraints d args)
      let names ← args.mapM fun arg => liftM (s'.typeName arg)
      return {
        lines := [instantiationName declaration names]
        status := if satisfied then .satisfied else .violated } : CommandM Report) (do
      let satisfied ← liftM (t.satisfiesConstraints d' args')
      let names ← args'.mapM fun arg => liftM (t.typeName arg)
      return {
        lines := [instantiationName declaration names]
        status := if satisfied then .satisfied else .violated } : CommandM Report) := by
    intro d d' hd
    refine (answering s' t).bind (answering_query (hembeds.satisfiesConstraints hd himages)) ?_
    rintro satisfied _ rfl
    have hnames := (answering s' t).mapM (S := (· = ·)) himages fun a b hab =>
      answering_query (hembeds.typeName hab)
    rw [List.forall₂_eq_eq_eq] at hnames
    refine (answering s' t).bind hnames ?_
    rintro names _ rfl
    exact (answering s' t).pure rfl
  dsimp only
  cases hfound : common.findCallable? declaration with
  | some id =>
      obtain ⟨signature, hsignature⟩ := callable?_of_find hfound
      rw [Option.bind_some, Option.bind_some, callable? hs'.outgrowth, callable? h.after,
        hsignature]
      exact hanswer _ _ (.callable (hsignatures id signature hsignature))
  | none =>
      have hlookup := hs'.lookup?_eq h.after (hdeclared hfound)
      rw [Option.bind_none, Option.bind_none, hlookup]
      dsimp only
      cases htype : t.lookup? declaration with
      | none => exact answering_throw _
      | some type =>
          exact hanswer _ _ (.type (himage type type (.same (hdeclared hfound type htype))))

end Setting

/-- A request on the store of a catalog has the same outcome after other requests as on a fresh
copy, whether these succeeded or failed, if no closing walk gives up: all types of the catalog are
closed, and the paths of supertypes through the types that were interned since are short. A check
that is not about a callable must not name one of these types. -/
theorem outcome_after {catalog : Catalog} (hbuild : catalog.build = .ok (.ok common))
    (hclosed : common.AllClosed) {requests : List Request}
    {outcomes : List (Except CommandError Report)}
    (hearlier : (answerAll catalog.options requests).run common = .ok (outcomes, u))
    (request : Request) {read : Except CommandError (List Handle)}
    (hreads : (Command.parseAll request.types).run.run u = .ok (read, t))
    (hshallow : t.Shallow common.size) (hdeclared : request.ChecksDeclared common t) :
    request.outcome catalog.options u = request.outcome catalog.options common := by
  have hreachable := Catalog.build_reachable hbuild
  have hlawful := hreachable.lawful
  have hfinished := Catalog.build_finished hbuild
  have hcommon := Outgrowth.refl hlawful hfinished hclosed
  have hsettled : common.SettledFrom common.size :=
    ⟨hlawful, hfinished, hclosed, fun type hge hlt => absurd hlt (Nat.not_lt.mpr hge)⟩
  have hbefore := (answerAll_performs hlawful hearlier).outgrows hcommon
  have hafter := hbefore.trans
    ((parseAll_steps hbefore.outgrowth.lawful request.types _ _ hreads).1.outgrows
      hbefore.outgrowth)
  obtain ⟨rank, hranks⟩ := hshallow.ranks
  have hsetting : Setting common u t rank :=
    ⟨hlawful, hreachable.constraintsInRange, hreachable.rolesInRange, hbefore.outgrowth,
      hafter.outgrowth, hafter.settled hranks hsettled, hranks⟩
  have hfollows : Follows common common t :=
    ⟨hcommon, hsettled, hafter.outgrowth.covers hlawful hfinished⟩
  cases request with
  | infer request => exact (hsetting.outcome_infer hfollows _ request hreads).symm
  | check declaration types => exact (hsetting.outcome_check hfollows _ hdeclared hreads).symm

/-- A generic class with an interface, and a callable that takes the interface. -/
def listCatalog : Catalog where
  types := [
    { name := "int", kind := .structType },
    { name := "Sequence", kind := .interfaceType, params := [{ name := "T" }] },
    { name := "List", kind := .classType, params := [{ name := "T" }],
      interfaces := ["Sequence<T>"] }]
  callables := [
    { name := "First", typeParams := [{ name := "T" }], params := [{ type := "Sequence<T>" }] }]

/-- Requests that intern types, one of which fails. -/
def listRequests : List Request := [.check "First" ["List<List<int>>"], .check "First" ["List<T>"]]

/-- The store after `listRequests` and reading a further type. -/
def listsRead : Store :=
  match (Command.parseAll ["List<int>"]).run.run (Catalog.storeAfter listCatalog listRequests) with
  | .ok (_, s) => s
  | .error _ => {}

theorem outcome_after_lists :
    (infer { callable := "First", types := ["List<int>"] }).outcome {}
        (Catalog.storeAfter listCatalog listRequests) =
      (infer { callable := "First", types := ["List<int>"] }).outcome {}
        (Catalog.builtStore listCatalog) := by
  have hbuild : listCatalog.build = .ok (.ok (Catalog.builtStore listCatalog)) := by decide +kernel
  have hclosed : (Catalog.builtStore listCatalog).AllClosed := by
    unfold Store.AllClosed
    decide +kernel
  have hearlier :
      (answerAll listCatalog.options listRequests).run (Catalog.builtStore listCatalog) =
        .ok ([.ok { lines := ["First<List<List<int>>>"], status := .satisfied },
        .error (.expression (.unknownType "T"))], Catalog.storeAfter listCatalog listRequests) := by
    decide +kernel
  have hreads : (Command.parseAll ["List<int>"]).run.run
      (Catalog.storeAfter listCatalog listRequests) = .ok (.ok [9], listsRead) := by
    decide +kernel
  have hshallow : listsRead.Shallow (Catalog.builtStore listCatalog).size :=
    ⟨by decide +kernel, by decide +kernel, by decide +kernel⟩
  exact outcome_after hbuild hclosed hearlier
    (.infer { callable := "First", types := ["List<int>"] }) hreads hshallow trivial

/-- Two generic classes that are each other's base, of which one has an interface, and a callable
that asks for the interface. -/
def cyclicCatalog : Catalog where
  types := [
    { name := "int", kind := .structType },
    { name := "I", kind := .interfaceType, params := [{ name := "T" }] },
    { name := "A", kind := .classType, params := [{ name := "T" }], base := some "B<T>",
      interfaces := ["I<T>"] },
    { name := "B", kind := .classType, params := [{ name := "T" }], base := some "A<T>" }]
  callables := [{ name := "F", typeParams := [{ name := "T", constraints := ["I<int>"] }] }]

/-- Requests do depend on those before them where a check names a type that one of these interned,
and where a closing walk has given up: on the fresh store `B<int>` inherits the interface of its
base `A<int>`, but if a request has named `A<int>` before, the walk that closes it meets its own
path and leaves `B<int>` without interfaces. -/
theorem outcome_depends_on_earlier :
    (check "List<int>" ["int"]).outcome {} (Catalog.builtStore listCatalog) =
        .ok (.error (.unknownDeclaration "List<int>")) ∧
      (check "List<int>" ["int"]).outcome {}
          (Catalog.storeAfter listCatalog [.check "First" ["List<int>"]]) =
        .ok (.ok { lines := ["List<int><int>"], status := .satisfied }) ∧
      (check "F" ["B<int>"]).outcome {} (Catalog.builtStore cyclicCatalog) =
        .ok (.ok { lines := ["F<B<int>>"], status := .satisfied }) ∧
      (check "F" ["B<int>"]).outcome {}
          (Catalog.storeAfter cyclicCatalog [.check "F" ["A<int>"]]) =
        .ok (.ok { lines := ["F<B<int>>"], status := .violated }) := by
  decide +kernel

end Request

end NominalGenerics
