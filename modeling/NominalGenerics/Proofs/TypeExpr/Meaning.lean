import NominalGenerics.Proofs.Catalog.Progress
import NominalGenerics.Proofs.Store.Exhaustion
import NominalGenerics.Proofs.TypeExpr.Grammar
import NominalGenerics.Proofs.TypeExpr.Interning

/-!
# The meaning of texts

A text names a type if it derives a type expression, each of its names stands for a type, and each
name with arguments for a generic definition of as many parameters. The type is then built from the
inside out, with the meaning that the names had before anything was interned. A text that names no
type may leave types behind. The types that were there stay as they are, but for interface sets that
a closing walk had given up on.
-/

namespace NominalGenerics

open Request (Interning)

namespace TypeExpr

section Building

mutual

/-- Each name of the expression stands for a type, and each name with arguments for a generic
definition of as many parameters. -/
def Resolves (store : Store) (scope : Scope) : TypeExpr → Prop
  | .named name => ∃ type, store.find? scope name = some type
  | .apply name args => AllResolve store scope args ∧ store.Applicable scope name args.length
  | .array element _ => element.Resolves store scope

/-- All of the expressions resolve. -/
def AllResolve (store : Store) (scope : Scope) : List TypeExpr → Prop
  | [] => True
  | expr :: rest => expr.Resolves store scope ∧ AllResolve store scope rest

end

mutual

/-- The type of an expression, built from the inside out. Its names stand for given types. -/
def build (meaning : String → Handle) : TypeExpr → StoreM Handle
  | .named name => return meaning name
  | .apply name args => do Store.instantiate (meaning name) (← buildAll meaning args)
  | .array element rank => do Store.arrayOf (← element.build meaning) rank

/-- The types of some expressions, in order. -/
def buildAll (meaning : String → Handle) : List TypeExpr → StoreM (List Handle)
  | [] => return []
  | expr :: rest => do
      let type ← expr.build meaning
      return type :: (← buildAll meaning rest)

end

end Building

variable {s t t' : Store} {scope : Scope} {name : String} {args : List Handle}

theorem resolve_run (scope : Scope) (name : String) (t : Store) :
    (resolve scope name).run.run t =
      .ok ((t.find? scope name).elim (.error (.unknownType name)) .ok, t) := by
  unfold resolve Store.find?
  cases scope.lookup name with
  | some param => rfl
  | none =>
      dsimp only
      rw [run_getThe_bind, Option.none_or]
      cases t.lookup? name <;> rfl

/-- Applying a name instantiates the definition that it stands for, or is an error. -/
theorem instantiate_run (hs : s.Lawful) (hscope : InScope s scope) (ht : Performs Interning s t)
    (hname : IsName name) (args : List Handle) :
    s.Applicable scope name args.length ∧ (instantiate scope name args).run.run t =
        (liftM (Store.instantiate (s.meaning scope name) args) : TypeExprM Handle).run.run t ∨
      ¬ s.Applicable scope name args.length ∧
        ∃ error, (instantiate scope name args).run.run t = .ok (.error error, t) := by
  have hresolve := resolve_run scope name t
  rw [ht.find?_eq hs hname] at hresolve
  cases hfind : s.find? scope name with
  | none =>
      rw [hfind] at hresolve
      refine Or.inr ⟨?_, .unknownType name, ?_⟩
      · rintro ⟨_, _, hsome, -⟩
        rw [hfind] at hsome
        cases hsome
      · rw [instantiate, ExceptT.run_bind, StateT.run_bind, hresolve]
        rfl
  | some definition =>
      rw [hfind] at hresolve
      have hlt := Store.find?_lt hscope hfind
      obtain ⟨entry, hentry⟩ := Store.entry_of_lt ((ht.names hs).lt hlt)
      have happlicable := ht.applicable_iff hs hfind hlt args.length
      have hdefinition : t.definition? definition = .ok (entry.definition? definition) :=
        Store.query_of_entry hentry (·.definition? definition)
      have harguments : t.arguments definition = .ok entry.arguments :=
        Store.query_of_entry hentry (·.arguments)
      rw [instantiate, Store.run_bind_of_ok hresolve, run_getThe_bind,
        Store.run_bind_of_ok (Store.run_query_of_ok hdefinition)]
      split
      · next hself =>
          have hdefines :=
            (ht.lawful hs).wellFormed.coherent.defines_self hentry hself
          rw [Store.run_bind_of_ok (Store.run_query_of_ok harguments)]
          dsimp only
          split
          · next hlength =>
              refine Or.inl ⟨happlicable.mpr ⟨entry.arguments, hdefines, hlength⟩, ?_⟩
              rw [Store.meaning_of_find? hfind]
          · next hlength =>
              refine Or.inr ⟨fun h => hlength ?_, _, rfl⟩
              obtain ⟨params, hparams, hlength⟩ := happlicable.mp h
              rwa [hdefines.unique hparams]
      · next hnot =>
          refine Or.inr ⟨fun h => hnot ?_, _, rfl⟩
          obtain ⟨params, hdefines, -⟩ := happlicable.mp h
          have hshape := (Store.defines_of_entry (Store.entry_eq_ok.mpr hentry)).mp hdefines
          rw [Entry.definition?, hshape]

section Agreement

variable {α β : Type} {P Q : Prop} {x : TypeExprM α} {f : α → TypeExprM β} {y : StoreM α}
  {g : α → StoreM β}

/-- An outcome is what a construction gives if `P` holds, and an error if not. -/
def Agrees (P : Prop) (y : StoreM α) (t : Store) (outcome : Except TypeExprError α) (t' : Store) :
    Prop :=
  (P ∧ ∃ a, outcome = .ok a ∧ y.run t = .ok (a, t')) ∨ ¬ P ∧ ∃ error, outcome = .error error

theorem Agrees.congr {outcome : Except TypeExprError α} (h : Agrees P y t outcome t')
    (hPQ : P ↔ Q) : Agrees Q y t outcome t' := by
  unfold Agrees at h ⊢
  rwa [← hPQ]

theorem agrees_lift {outcome : Except TypeExprError α}
    (hrun : (liftM y : TypeExprM α).run.run t = .ok (outcome, t')) :
    Agrees True y t outcome t' := by
  rw [run_liftM] at hrun
  obtain ⟨a, _, hy, hrun⟩ := run_bind_eq_ok.mp hrun
  obtain ⟨rfl, rfl⟩ := run_pure_eq_ok.mp hrun
  exact Or.inl ⟨trivial, a, rfl, hy⟩

theorem agrees_bind {outcome : Except TypeExprError β}
    (hx : ∀ first mid, x.run.run t = .ok (first, mid) → Agrees P y t first mid)
    (hf : ∀ a mid, x.run.run t = .ok (.ok a, mid) → (f a).run.run mid = .ok (outcome, t') →
      Agrees Q (g a) mid outcome t')
    (hrun : (x >>= f).run.run t = .ok (outcome, t')) :
    Agrees (P ∧ Q) (y >>= g) t outcome t' := by
  rw [ExceptT.run_bind] at hrun
  obtain ⟨first, mid, hfirst, hrun⟩ := run_bind_eq_ok.mp hrun
  rcases hx first mid hfirst with ⟨hP, a, rfl, hy⟩ | ⟨hP, error, rfl⟩
  · rcases hf a mid hfirst hrun with ⟨hQ, b, rfl, hg⟩ | ⟨hQ, hfails⟩
    · exact Or.inl ⟨⟨hP, hQ⟩, b, rfl, run_bind_eq_ok.mpr ⟨a, mid, hy, hg⟩⟩
    · exact Or.inr ⟨fun h => hQ h.2, hfails⟩
  · cases hrun
    exact Or.inr ⟨fun h => hP h.1, error, rfl⟩

end Agreement

section Meaning

variable {outcome : Except TypeExprError Handle}

theorem intern_performs (hs : s.Lawful) (hscope : InScope s scope) (ht : Performs Interning s t)
    (expr : TypeExpr) (hrun : (expr.intern scope).run.run t = .ok (outcome, t')) :
    Performs Interning s t' := by
  have hsteps := intern_steps (ht.lawful hs) (hscope.mono (ht.names hs)) expr (List.Subset.refl _)
  exact ht.trans (hsteps.mono Request.interning_interns _ _ hrun).1

theorem internAll_performs {outcomes : Except TypeExprError (List Handle)} (hs : s.Lawful)
    (hscope : InScope s scope) (ht : Performs Interning s t) (exprs : List TypeExpr)
    (hrun : (internAll scope exprs).run.run t = .ok (outcomes, t')) : Performs Interning s t' := by
  have hsteps :=
    internAll_steps (ht.lawful hs) (hscope.mono (ht.names hs)) exprs (List.Subset.refl _)
  exact ht.trans (hsteps.mono Request.interning_interns _ _ hrun).1

mutual

/-- Interning an expression on a store that interning leads to builds it with the meaning that its
names had at the start, and is an error if it does not resolve there. -/
theorem intern_agrees (hs : s.Lawful) (hscope : InScope s scope) : (expr : TypeExpr) →
    (∀ name ∈ expr.names, IsName name) → ∀ {t t' : Store} {outcome : Except TypeExprError Handle},
      Performs Interning s t → (expr.intern scope).run.run t = .ok (outcome, t') →
        Agrees (expr.Resolves s scope) (expr.build (s.meaning scope)) t outcome t'
  | .named name, hnames, t, t', outcome, ht, hrun => by
      rw [intern, resolve_run, ht.find?_eq hs (hnames name List.mem_cons_self)] at hrun
      rw [Resolves, build]
      cases hfind : s.find? scope name with
      | some type =>
          rw [hfind] at hrun
          cases hrun
          exact Or.inl ⟨⟨type, rfl⟩, type, rfl, by rw [Store.meaning_of_find? hfind]; rfl⟩
      | none =>
          rw [hfind] at hrun
          cases hrun
          refine Or.inr ⟨?_, _, rfl⟩
          rintro ⟨_, ⟨⟩⟩
  | .apply name args, hnames, t, t', outcome, ht, hrun => by
      obtain ⟨hname, hargs⟩ := List.forall_mem_cons.mp hnames
      rw [Resolves, build]
      refine agrees_bind (fun _ _ => internAll_agrees hs hscope args hargs ht)
        (fun types mid hall hrun => ?_) hrun
      have hmid := internAll_performs hs hscope ht args hall
      rw [← internAll_length hall]
      rcases instantiate_run hs hscope hmid hname types with
        ⟨happlies, hsame⟩ | ⟨hnot, error, hsame⟩
      · rw [hsame] at hrun
        exact (agrees_lift hrun).congr (iff_of_true trivial happlies)
      · rw [hsame] at hrun
        cases hrun
        exact Or.inr ⟨hnot, error, rfl⟩
  | .array element rank, hnames, t, t', outcome, ht, hrun => by
      rw [Resolves, build]
      exact (agrees_bind (fun _ _ => intern_agrees hs hscope element hnames ht)
        (fun _ _ _ => agrees_lift) hrun).congr (and_iff_left trivial)

theorem internAll_agrees (hs : s.Lawful) (hscope : InScope s scope) : (exprs : List TypeExpr) →
    (∀ name ∈ allNames exprs, IsName name) →
      ∀ {t t' : Store} {outcome : Except TypeExprError (List Handle)}, Performs Interning s t →
        (internAll scope exprs).run.run t = .ok (outcome, t') →
          Agrees (AllResolve s scope exprs) (buildAll (s.meaning scope) exprs) t outcome t'
  | [], _, t, t', outcome, _, hrun => by
      cases hrun
      exact Or.inl ⟨trivial, [], rfl, rfl⟩
  | expr :: rest, hnames, t, t', outcome, ht, hrun => by
      obtain ⟨hexpr, hrest⟩ := List.forall_mem_append.mp hnames
      rw [AllResolve, buildAll]
      refine agrees_bind (fun _ _ => intern_agrees hs hscope expr hexpr ht)
        (fun type mid hfirst hrun => ?_) hrun
      have hmid := intern_performs hs hscope ht expr hfirst
      refine (agrees_bind (fun _ _ => internAll_agrees hs hscope rest hrest hmid)
        (fun types last _ hrun => ?_) hrun).congr (and_iff_left trivial)
      cases hrun
      exact Or.inl ⟨trivial, type :: types, rfl, rfl⟩

end

end Meaning

end TypeExpr

section Texts

open TypeExpr

variable {s : Store} {scope : Scope}

/-- The outcome of reading a text, if there is one. -/
theorem Store.Lawful.parseType_agrees (hs : s.Lawful) (hscope : InScope s scope) {text : String}
    {outcome : Except TypeExprError Handle} {s' : Store}
    (hrun : (parseType scope text).run.run s = .ok (outcome, s')) :
    (∃ expr, Derivation text.toList expr ∧
        Agrees (expr.Resolves s scope) (expr.build (s.meaning scope)) s outcome s') ∨
      (∀ expr, ¬ Derivation text.toList expr) ∧ ∃ error, outcome = .error error := by
  unfold parseType at hrun
  cases hread : TypeExpr.read text.toList with
  | ok expr =>
      rw [hread] at hrun
      have hderives := read_eq_ok.mp hread
      exact Or.inl ⟨expr, hderives, intern_agrees hs hscope expr hderives.isName (.refl s) hrun⟩
  | error stop =>
      rw [hread] at hrun
      refine Or.inr ⟨fun expr hderives => ?_, ?_⟩
      · rw [read_eq_ok.mpr hderives] at hread
        cases hread
      · dsimp only at hrun
        rw [ExceptT.run_bind] at hrun
        obtain ⟨first, mid, -, hrun⟩ := run_bind_eq_ok.mp hrun
        cases first with
        | ok _ =>
            cases hrun
            exact ⟨_, rfl⟩
        | error error =>
            cases hrun
            exact ⟨error, rfl⟩

/-- Somewhere on the way, a type that is interned makes more types pending than handles can tell
apart. -/
def Store.OutgrowsHandles (s : Store) : Prop :=
  ∃ mid, ∃ op : Operation, ∃ start types last, Performs Interning s mid ∧ op.interns = true ∧
    op.prepare.run mid = .ok ((), start) ∧ Store.Drains start types last ∧
      Store.handleSpace < types.length

theorem Store.Overruns.outgrowsHandles (h : s.Overruns Interning) : s.OutgrowsHandles := by
  obtain ⟨mid, op, hperforms, -, hop, -, start, hprepare, types, last, hdrains, hmany⟩ := h
  exact ⟨mid, op, start, types, last, hperforms, hop, hprepare, hdrains, hmany⟩

/-- Reading types accepts exactly the grammar. On a reachable store and a scope of its types, unless
handles run out, a text is read as a type if and only if the whole text derives an expression that
resolves on the store, and then the type is the one that the expression builds from the inside out,
with the meaning that its names have before anything is interned. No store that interning leads to
gives a name another meaning. The types that were there keep their entries, also if the text names
no type, except that an interface set may be computed that the finished store had left out. -/
theorem Store.Reachable.parseType_exact (hs : s.Reachable) (hscope : InScope s scope)
    (text : String) :
    ((parseType scope text).run.run s = .error .outOfFuel ∧ s.OutgrowsHandles) ∨
      ∃ outcome s', (parseType scope text).run.run s = .ok (outcome, s') ∧
        ((∃ type, outcome = .ok type) ↔
          ∃ expr, Derivation text.toList expr ∧ expr.Resolves s scope) ∧
        (∀ expr type, Derivation text.toList expr → outcome = .ok type →
          (expr.build (s.meaning scope)).run s = .ok (type, s')) ∧
        Performs Interning s s' ∧
        (∀ mid, Performs Interning s mid → ∀ name, IsName name →
          mid.find? scope name = s.find? scope name) ∧
        ∀ (type : Handle) entry, s.types[type]? = some entry →
          ∃ interfaces closed, s'.types[type]? = some { entry with interfaces, closed } ∧
            (entry.closed = true ∨ s.finished = false →
              interfaces = entry.interfaces ∧ closed = entry.closed) := by
  have hlawful := hs.lawful
  rcases parseType_advances hlawful hscope text with ⟨outcome, s', hrun, -⟩ | ⟨hfault, hoverruns⟩
  · have hperforms : Performs Interning s s' :=
      ((parseType_steps hlawful hscope text).mono Request.interning_interns _ _ hrun).1
    refine Or.inr ⟨outcome, s', hrun, ?_, ?_, hperforms,
      fun mid hmid name hname => hmid.find?_eq hlawful hname,
      fun type entry hentry => hperforms.keepsEntry hlawful hentry⟩
    · rcases hlawful.parseType_agrees hscope hrun with
        ⟨expr, hderives, ⟨hresolves, type, rfl, -⟩ | ⟨hnot, error, rfl⟩⟩ | ⟨hnone, error, rfl⟩
      · exact iff_of_true ⟨type, rfl⟩ ⟨expr, hderives, hresolves⟩
      · refine iff_of_false (by simp) ?_
        rintro ⟨other, hother, hresolves⟩
        exact hnot (hderives.unique hother ▸ hresolves)
      · refine iff_of_false (by simp) ?_
        rintro ⟨expr, hderives, -⟩
        exact hnone expr hderives
    · intro expr type hderives houtcome
      rcases hlawful.parseType_agrees hscope hrun with
        ⟨other, hother, ⟨-, type', hsome, hbuild⟩ | ⟨-, error, hfails⟩⟩ | ⟨hnone, -⟩
      · obtain rfl := hderives.unique hother
        rw [houtcome] at hsome
        cases hsome
        exact hbuild
      · rw [houtcome] at hfails
        cases hfails
      · exact absurd hderives (hnone expr)
  · exact Or.inl ⟨hfault, hoverruns.outgrowsHandles⟩

/-- `Cell <U> [,]` derives an expression that builds a type of the store. `Cell<U> ]` derives
none. -/
theorem Store.parseType_exact_cells :
    cellStore.Reachable ∧ InScope cellStore [("U", 5), ("T", 3)] ∧
      (∃ expr, Derivation "Cell <U> [,]".toList expr ∧
        expr.Resolves cellStore [("U", 5), ("T", 3)] ∧
          (expr.build (cellStore.meaning [("U", 5), ("T", 3)])).run cellStore =
            .ok (7, cellStore)) ∧
      ¬ ∃ expr, Derivation "Cell<U> ]".toList expr ∧
        expr.Resolves cellStore [("U", 5), ("T", 3)] := by
  have hreachable : cellStore.Reachable := (Reachable.ofRoot "object").runAll
    (by decide +kernel : Operation.runAll cellOperations (ofRoot "object") = some cellStore)
  have hscope : InScope cellStore [("U", 5), ("T", 3)] := by
    intro name type hlookup
    have hbound : ∀ param ∈ [("U", 5), ("T", 3)], param.2 < cellStore.size := by decide +kernel
    exact hbound (name, type) (mem_of_lookup hlookup)
  have haccepted : (parseType [("U", 5), ("T", 3)] "Cell <U> [,]").run.run cellStore =
      .ok (.ok 7, cellStore) := by
    decide +kernel
  have hrejected : (parseType [("U", 5), ("T", 3)] "Cell<U> ]").run.run cellStore =
      .ok (.error (.malformed "Cell<U> ]" .endOfText "]"), cellStore) := by
    decide +kernel
  refine ⟨hreachable, hscope, ?_, ?_⟩
  · rcases hreachable.parseType_exact hscope "Cell <U> [,]" with
      ⟨hfault, -⟩ | ⟨_, _, hrun, hiff, hbuild, -⟩
    · rw [haccepted] at hfault
      cases hfault
    · rw [haccepted] at hrun
      cases hrun
      obtain ⟨expr, hderives, hresolves⟩ := hiff.mp ⟨7, rfl⟩
      exact ⟨expr, hderives, hresolves, hbuild expr 7 hderives rfl⟩
  · rcases hreachable.parseType_exact hscope "Cell<U> ]" with ⟨hfault, -⟩ | ⟨_, _, hrun, hiff, -⟩
    · rw [hrejected] at hfault
      cases hfault
    · rw [hrejected] at hrun
      cases hrun
      intro hsome
      obtain ⟨type, htype⟩ := hiff.mpr hsome
      cases htype

/-- A text that names no type may complete the interface set of a type that was there. The closing
walk of `finish` gives up on the last of a million types, and the array that `I[]]` leaves behind
has it closed. -/
theorem Store.parseType_exact_crowd :
    ∃ s s', finish.run (ledCrowd 999999) = .ok ((), s) ∧ s.Reachable ∧
      (parseType [] "I[]]").run.run s = .ok (.error (.malformed "I[]]" .endOfText "]"), s') ∧
      s.interfaces 1000000 = .ok [] ∧
      ∃ interfaces, s'.interfaces 1000000 = .ok interfaces ∧ 1 ∈ interfaces := by
  obtain ⟨s, type, s', hfinish, hreachable, hlookup, hbefore, harray, hafter⟩ := ledCrowd_array
    (by decide : 999999 + 1 = Limits.supertypeClosure.maxIterations)
  refine ⟨s, s', hfinish, hreachable, ?_, hbefore, hafter⟩
  have hread : TypeExpr.read "I[]]".toList =
      .error ⟨[.array (.named "I") 1], .endOfText, [']']⟩ := by
    rfl
  have hresolve := resolve_run [] "I" s
  rw [Store.find?, hlookup] at hresolve
  have hexpr : ((TypeExpr.array (.named "I") 1).intern []).run.run s = .ok (.ok type, s') := by
    rw [intern, intern, Store.run_bind_of_ok hresolve, run_liftM, StateT.run_bind, harray]
    rfl
  have hall : (internAll [] [.array (.named "I") 1]).run.run s = .ok (.ok [type], s') := by
    rw [internAll, Store.run_bind_of_ok hexpr]
    rfl
  have hdiscard : (discard (internAll [] [.array (.named "I") 1]) : TypeExprM PUnit).run.run s =
      .ok (.ok PUnit.unit, s') := Store.run_bind_of_ok hall
  rw [parseType, hread]
  exact Store.run_bind_of_ok hdiscard

end Texts

end NominalGenerics
