import NominalGenerics.Proofs.Store.Closing

/-!
# Progress

The lemmas about interning, substitution, expansion and closing say what a run does if it ends. This
module says that it ends. On a well-formed store, with handles that denote types, none of these
steps faults: every part of a type is there to be read, an instantiation has an argument for each
parameter of its definition, and a walk over supertypes leaves exactly the types that it entered.
-/

namespace NominalGenerics

section Returning

variable {σ α β : Type} {x : StateT σ Query α} {s : σ} {post : α → σ → Prop}

/-- The computation ends without a fault, in a result and a state that satisfy `post`. -/
def Returns (x : StateT σ Query α) (s : σ) (post : α → σ → Prop) : Prop :=
  ∃ a s', x.run s = .ok (a, s') ∧ post a s'

theorem Returns.pure {a : α} (h : post a s) : Returns (pure a : StateT σ Query α) s post :=
  ⟨a, s, rfl, h⟩

theorem Returns.run_bind {f : α → StateT σ Query β} {a : α} {t : σ} {post : β → σ → Prop}
    (hrun : x.run s = .ok (a, t)) (h : Returns (f a) t post) : Returns (x >>= f) s post := by
  obtain ⟨b, s', hrun', hb⟩ := h
  exact ⟨b, s', run_bind_eq_ok.mpr ⟨a, t, hrun, hrun'⟩, hb⟩

theorem Returns.bind {f : α → StateT σ Query β} {post' : β → σ → Prop} (hx : Returns x s post)
    (hf : ∀ a s', post a s' → Returns (f a) s' post') : Returns (x >>= f) s post' := by
  obtain ⟨a, t, hrun, ha⟩ := hx
  exact .run_bind hrun (hf a t ha)

theorem Returns.get_bind {f : σ → StateT σ Query β} {post : β → σ → Prop}
    (h : Returns (f s) s post) : Returns (get >>= f) s post := h

theorem Returns.lift_bind {x : Query α} {a : α} {f : α → StateT σ Query β} {post : β → σ → Prop}
    (hx : x = .ok a) (h : Returns (f a) s post) : Returns (liftM x >>= f) s post := by
  subst hx
  exact h

/-- Sequencing under a further layer of state. -/
theorem Returns.walk_bind {ρ : Type} {x : StateT ρ (StateT σ Query) α}
    {f : α → StateT ρ (StateT σ Query) β} {r r' : ρ} {a : α} {t : σ} {post : β × ρ → σ → Prop}
    (hx : (x.run r).run s = .ok ((a, r'), t)) (hf : Returns ((f a).run r') t post) :
    Returns ((x >>= f).run r) s post := by
  rw [StateT.run_bind]
  exact .run_bind hx hf

/-- A computation that ends has the properties of all its runs. -/
theorem Returns.of_run {post' : α → σ → Prop} (hx : Returns x s post)
    (hpost : ∀ a s', x.run s = .ok (a, s') → post a s' → post' a s') : Returns x s post' := by
  obtain ⟨a, s', hrun, ha⟩ := hx
  exact ⟨a, s', hrun, hpost a s' hrun ha⟩

/-- A loop whose steps end and keep an invariant ends and keeps it. -/
theorem Returns.mapM {f : α → StateT σ Query β} {inv : σ → Prop} {as : List α} (hs : inv s)
    (hf : ∀ a ∈ as, ∀ t, inv t → Returns (f a) t fun _ t' => inv t') :
    Returns (as.mapM f) s fun _ s' => inv s' := by
  induction as generalizing s with
  | nil => exact .pure hs
  | cons a as ih =>
      rw [List.mapM_cons]
      refine (hf a List.mem_cons_self s hs).bind fun b t ht => ?_
      refine (ih ht fun c hc => hf c (List.mem_cons_of_mem a hc)).bind fun bs t' ht' => ?_
      exact .pure ht'

end Returning

namespace Store

variable {s : Store}

theorem mapM_entry_returns {args : List Handle} (hargs : ∀ a ∈ args, a < s.size) :
    Returns (args.mapM fun arg => liftM (s.entry arg) : StoreM (List Entry)) s
      fun _ s' => s' = s := by
  refine .mapM rfl fun a ha t ht => ?_
  obtain ⟨entry, hentry⟩ := entry_of_lt (hargs a ha)
  exact ⟨entry, t, run_lift_eq_ok.mpr ⟨entry_eq_ok.mpr hentry, rfl⟩, ht⟩

theorem internInstance_returns (hs : s.Coherent) {definition : Handle} {args : List Handle}
    (hdefinition : definition < s.size) (hargs : ∀ a ∈ args, a < s.size) :
    Returns (internInstance definition args) s fun type s' =>
      s'.Coherent ∧ Grown s s' ∧ type < s'.size := by
  have hreturns : Returns (internInstance definition args) s fun _ _ => True := by
    obtain ⟨declared, hdeclared⟩ := entry_of_lt hdefinition
    refine .get_bind (.lift_bind (entry_eq_ok.mpr hdeclared) ?_)
    split
    · split
      · exact .pure trivial
      · split
        · exact .pure trivial
        · refine (mapM_entry_returns hargs).bind ?_
          rintro argEntries _ rfl
          exact ⟨_, _, rfl, trivial⟩
    · exact .pure trivial
  refine hreturns.of_run fun type s' hrun _ => ?_
  obtain ⟨hcoherent, hgrown, hlt, -⟩ := internInstance_run hs hrun
  exact ⟨hcoherent, hgrown, hlt⟩

theorem internArray_returns (hs : s.Coherent) {element : Handle} {rank : Nat}
    (helement : element < s.size) (hrank : 1 ≤ rank) :
    Returns (internArray element rank) s fun type s' =>
      s'.Coherent ∧ Grown s s' ∧ type < s'.size := by
  have hreturns : Returns (internArray element rank) s fun _ _ => True := by
    obtain ⟨entry, hentry⟩ := entry_of_lt helement
    refine .get_bind ?_
    split
    · exact .pure trivial
    · rw [if_neg (Nat.one_le_iff_ne_zero.mp hrank)]
      refine .lift_bind (entry_eq_ok.mpr hentry) ?_
      exact ⟨_, _, rfl, trivial⟩
  refine hreturns.of_run fun type s' hrun _ => ?_
  obtain ⟨hcoherent, hgrown, hlt, -⟩ := internArray_run hs hrun
  exact ⟨hcoherent, hgrown, hlt⟩

theorem mem_lt_of_forall₂ {α : Type} {R : α → Handle → Prop} {as : List α} {types : List Handle}
    {n : Nat} (h : List.Forall₂ (fun a type => type < n ∧ R a type) as types) :
    ∀ type ∈ types, type < n := by
  intro type htype
  obtain ⟨_, -, hlt, -⟩ := mem_of_forall₂ h.flip htype
  exact hlt

/-- Substitution ends: the height bounds the type, and there is an argument for each parameter. -/
theorem substituteWithin_returns {params args : List Handle} {height : Nat} {type : Handle}
    (hs : s.Coherent) (hlength : params.length ≤ args.length) (hargs : ∀ a ∈ args, a < s.size)
    (htype : type < s.size) (hheight : type < height) :
    Returns (substituteWithin params args height type) s fun result s' =>
      s'.Coherent ∧ Grown s s' ∧ result < s'.size := by
  induction height generalizing s type with
  | zero => exact absurd hheight (Nat.not_lt_zero _)
  | succ height ih =>
      have hreturns : Returns (substituteWithin params args (height + 1) type) s
          fun _ _ => True := by
        unfold substituteWithin
        split
        · next position hposition =>
            have hlt : position < args.length :=
              Nat.lt_of_lt_of_le (List.findIdx?_eq_some_iff_getElem.mp hposition).1 hlength
            rw [List.getElem?_eq_getElem hlt]
            exact .pure trivial
        · obtain ⟨entry, hentry⟩ := entry_of_lt htype
          have hform : s.form type = some entry.form := form_of_entry hentry
          -- Parts of the type are smaller, and stay types while others are replaced.
          have hpart : ∀ part, part < type → ∀ t, t.Coherent ∧ Grown s t →
              Returns (substituteWithin params args height part) t fun result t' =>
                (t'.Coherent ∧ Grown s t') ∧ result < t'.size := by
            rintro part hpart t ⟨ht, hgrown⟩
            refine (ih ht (fun a ha => hgrown.lt (hargs a ha))
              (hgrown.lt (Nat.lt_trans hpart htype))
              (Nat.lt_of_lt_of_le hpart (Nat.le_of_lt_succ hheight))).of_run ?_
            rintro result t' - ⟨ht', hgrown', hlt⟩
            exact ⟨⟨ht', hgrown.trans hgrown'⟩, hlt⟩
          refine .get_bind (.lift_bind (entry_eq_ok.mpr hentry) ?_)
          split
          · next definition inner hshape =>
              have hshape' := Entry.form_shape_eq_instantiation.mpr hshape
              obtain ⟨-, hdefinition, parts, hparts, -⟩ := hs.instantiation hform hshape'
              have hloop : Returns (inner.mapM (substituteWithin params args height)) s
                  fun _ t => t.Coherent ∧ Grown s t := by
                refine .mapM ⟨hs, Grown.refl s⟩ fun part hmem t ht => ?_
                obtain ⟨_, -, hlt, -⟩ := mem_of_forall₂ hparts hmem
                exact (hpart part hlt t ht).of_run fun _ _ _ h => h.1
              obtain ⟨replaced, t, hrun, ht, hgrown⟩ := hloop
              obtain ⟨-, -, hreplaced⟩ :=
                mapM_replaces (fun _ _ _ _ => substituteWithin_run) hs hargs hrun
              refine .run_bind hrun ?_
              split
              · exact .pure trivial
              · exact (internInstance_returns ht (hgrown.lt (Nat.lt_trans hdefinition htype))
                  (mem_lt_of_forall₂ hreplaced)).of_run fun _ _ _ _ => trivial
          · next element rank hshape =>
              obtain ⟨hrank, hlt, -⟩ := hs.array hform (Entry.form_shape_eq_array.mpr hshape)
              refine (hpart element hlt s ⟨hs, Grown.refl s⟩).bind ?_
              rintro replaced t ⟨⟨ht, -⟩, hreplaced⟩
              split
              · exact .pure trivial
              · exact (internArray_returns ht hreplaced hrank).of_run fun _ _ _ _ => trivial
          · exact .pure trivial
      refine hreturns.of_run fun result s' hrun _ => ?_
      obtain ⟨hcoherent, hgrown, hlt, -⟩ := substituteWithin_run hs hargs hrun
      exact ⟨hcoherent, hgrown, hlt⟩

theorem substitute_returns {params args : List Handle} {type : Handle} (hs : s.Coherent)
    (hlength : params.length ≤ args.length) (hargs : ∀ a ∈ args, a < s.size)
    (htype : type < s.size) :
    Returns (substitute params args type) s fun _ s' => s'.Coherent ∧ Grown s s' :=
  (substituteWithin_returns hs hlength hargs htype (Nat.lt_succ_self type)).of_run
    fun _ _ _ h => ⟨h.1, h.2.1⟩

theorem modifyEntry_returns {type : Handle} (h : type < s.size) (change : Entry → Entry) :
    Returns (modifyEntry type change) s fun _ s' =>
      s' = { s with types := s.types.modify type change } := by
  obtain ⟨entry, hentry⟩ := entry_of_lt h
  have hread : s.entry type = .ok entry := entry_eq_ok.mpr hentry
  refine .get_bind ⟨(), { s with types := s.types.modify type change }, ?_, rfl⟩
  rw [hread]
  rfl

/-- Expanding a type ends. -/
theorem expand_returns {type : Handle} (hs : s.WellFormed) (htype : type < s.size) :
    Returns (expand type) s fun _ _ => True := by
  obtain ⟨entry, hentry⟩ := entry_of_lt htype
  have hform : s.form type = some entry.form := form_of_entry hentry
  refine .get_bind (.lift_bind (entry_eq_ok.mpr hentry) ?_)
  split
  · next definition args hshape =>
      split
      · exact .pure trivial
      · obtain ⟨⟨params, hdefines, hlength, -⟩, hlt, parts, hparts, -⟩ :=
          hs.coherent.instantiation hform (Entry.form_shape_eq_instantiation.mpr hshape)
        obtain ⟨declared, hdeclared⟩ := entry_of_lt (Nat.lt_trans hlt htype)
        have hlinks := hs.inRange.links hdeclared
        have hargs : ∀ a ∈ args, a < s.size := by
          intro a ha
          obtain ⟨_, -, ha, -⟩ := mem_of_forall₂ hparts ha
          exact Nat.lt_trans ha htype
        have hsubstitute : ∀ target, target < s.size → ∀ t, t.Coherent ∧ Grown s t →
            Returns (substitute params args target) t fun _ t' => t'.Coherent ∧ Grown s t' := by
          rintro target htarget t ⟨ht, hgrown⟩
          refine (substitute_returns ht (Nat.le_of_eq hlength)
            (fun a ha => hgrown.lt (hargs a ha)) (hgrown.lt htarget)).of_run ?_
          rintro _ t' - ⟨ht', hgrown'⟩
          exact ⟨ht', hgrown.trans hgrown'⟩
        refine .lift_bind (entry_eq_ok.mpr hdeclared) ?_
        rw [(defines_of_entry (entry_eq_ok.mpr hdeclared)).mp hdefines]
        have hbase : Returns (declared.base.mapM (substitute params args)) s
            fun _ t => t.Coherent ∧ Grown s t := by
          cases hbase : declared.base with
          | none => exact .pure ⟨hs.coherent, Grown.refl s⟩
          | some base =>
              rw [Option.mapM_some, map_eq_pure_bind]
              exact (hsubstitute base (hlinks.base base hbase) s
                ⟨hs.coherent, Grown.refl s⟩).bind fun _ _ h => .pure h
        refine hbase.bind fun base t ht => ?_
        have hinterfaces : Returns (declared.directInterfaces.mapM (substitute params args)) t
            fun _ t' => t'.Coherent ∧ Grown s t' :=
          .mapM ht fun target hmem => hsubstitute target (hlinks.directInterfaces target hmem)
        refine hinterfaces.bind ?_
        rintro interfaces t' ⟨-, hgrown⟩
        exact (modifyEntry_returns (hgrown.lt htype) _).of_run fun _ _ _ _ => trivial
  · exact (modifyEntry_returns htype _).of_run fun _ _ _ _ => trivial
  · exact .pure trivial

section Walks

variable {g g' : Guard Handle} {close : Handle → ClosureM Unit}

/-- The interface set of the type has been computed. -/
def ClosedAt (store : Store) (type : Handle) : Prop :=
  ∃ entry, store.types[type]? = some entry ∧ entry.closed = true

/-- Where a walk stands after it has come back to where it was: at the same depth, and with no fewer
attempts as far as they are counted. -/
structure Resumes (g g' : Guard Handle) : Prop where
  limits : g'.limits = g.limits
  depth : g'.depth = g.depth
  iterations : min g.iterations Guard.iterationCeiling ≤ g'.iterations

theorem Resumes.refl (g : Guard Handle) : Resumes g g := ⟨rfl, rfl, Nat.min_le_left _ _⟩

theorem Resumes.trans {g₁ : Guard Handle} (h : Resumes g g₁) (h' : Resumes g₁ g') : Resumes g g' :=
  ⟨h'.limits.trans h.limits, h'.depth.trans h.depth,
    Nat.le_trans (Nat.le_min.mpr ⟨h.iterations, Nat.min_le_right _ _⟩) h'.iterations⟩

/-- Closing one supertype ends, and what it does is what all closing does. -/
def CloseReturns (close : Handle → ClosureM Unit) (g : Guard Handle) : Prop :=
  ∀ (type : Handle) (g₁ : Guard Handle) (s : Store), Resumes g g₁ → s.WellFormed → type < s.size →
    Returns ((close type).run g₁) s fun r s' => Resumes g₁ r.2 ∧ Closes g₁ s r.2 s'

theorem inherit_returns (hclose : CloseReturns close g) {g₁ : Guard Handle} (hg : Resumes g g₁)
    (hs : s.WellFormed) {type : Handle} (htype : type < s.size) {α : Type}
    {f : List Handle → ClosureM α} {post : α × Guard Handle → Store → Prop}
    (hf : ∀ inherited g₂ s₂, Resumes g₁ g₂ → Closes g₁ s g₂ s₂ →
      Returns ((f inherited).run g₂) s₂ post) :
    Returns ((do
      close type
      let inherited ← (← getThe Store).interfaces type
      f inherited : ClosureM α).run g₁) s post := by
  obtain ⟨⟨_, g₂⟩, s₂, hrun, hresumes, hcloses⟩ := hclose type g₁ s hg hs htype
  obtain ⟨entry, hentry⟩ := entry_of_lt (hcloses.closing.size ▸ htype)
  have hread : s₂.interfaces type = .ok entry.interfaces := query_of_entry hentry (·.interfaces)
  refine .walk_bind hrun (.walk_bind rfl ?_)
  exact .walk_bind (run_run_query_eq_ok.mpr ⟨hread, rfl, rfl⟩) (hf _ g₂ s₂ hresumes hcloses)

theorem closeDirect_returns (hclose : CloseReturns close g) {g₁ : Guard Handle}
    (hg : Resumes g g₁) (hs : s.WellFormed) {types all : List Handle}
    (htypes : ∀ t ∈ types, t < s.size) :
    Returns ((types.foldlM
      (fun all interface => do
        close interface
        let inherited ← (← getThe Store).interfaces interface
        return inherited.foldl appendNew (appendNew all interface))
      all : ClosureM (List Handle)).run g₁) s fun r s' =>
        Resumes g₁ r.2 ∧ Closes g₁ s r.2 s' := by
  induction types generalizing g₁ s all with
  | nil => exact ⟨(all, g₁), s, rfl, Resumes.refl g₁, Closes.refl hs⟩
  | cons type types ih =>
      rw [List.foldlM_cons, StateT.run_bind]
      have hfirst : ∀ {all}, Returns ((do
          close type
          let inherited ← (← getThe Store).interfaces type
          return inherited.foldl appendNew (appendNew all type) : ClosureM (List Handle)).run g₁) s
          fun r s' => Resumes g₁ r.2 ∧ Closes g₁ s r.2 s' :=
        inherit_returns hclose hg hs (htypes type List.mem_cons_self) fun inherited g₂ s₂ hr hc =>
          ⟨(_, g₂), s₂, rfl, hr, hc⟩
      refine hfirst.bind ?_
      rintro ⟨all', g₂⟩ s₂ ⟨hresumes, hcloses⟩
      refine (ih (hg.trans hresumes) hcloses.wellFormed fun t ht =>
        hcloses.closing.size ▸ htypes t (List.mem_cons_of_mem type ht)).of_run ?_
      rintro ⟨_, g₃⟩ s₃ - ⟨hresumes', hcloses'⟩
      exact ⟨hresumes.trans hresumes', hcloses.trans hcloses'⟩

/-- The end of a visit ends, with the type closed. -/
theorem seal_returns {type : Handle} {all rest : List Handle} (htype : type < s.size)
    (hvisiting : g.visiting = type :: rest) :
    Returns ((do
        liftM <| modifyEntry type fun entry => { entry with interfaces := all, closed := true }
        set (← (← getThe (Guard Handle)).leave type) : ClosureM Unit).run g) s fun r s' =>
      r.2 = { g with visiting := rest, depth := g.depth - 1 } ∧
        s'.ClosedAt type := by
  obtain ⟨_, s', hmodify, hs'⟩ := modifyEntry_returns htype
    fun entry => { entry with interfaces := all, closed := true }
  obtain ⟨entry, hentry⟩ := entry_of_lt htype
  refine .walk_bind (run_run_lift_eq_ok.mpr ⟨hmodify, rfl⟩) (.walk_bind rfl ?_)
  refine .walk_bind (run_run_query_eq_ok.mpr ⟨Guard.leave_head hvisiting, rfl, rfl⟩) ?_
  refine ⟨((), _), s', rfl, rfl, { entry with interfaces := all, closed := true }, ?_, rfl⟩
  simp [hs', Array.getElem?_modify, hentry]

/-- A type that a walk begins with is closed at its end, unless the walk has made too many
attempts. -/
def ClosedUnlessExceeded (g : Guard Handle) (type : Handle) (g' : Guard Handle) (s' : Store) :
    Prop :=
  g.visiting = [] → g.depth < g.limits.maxDepth → g'.iterations ≤ g.limits.maxIterations →
    s'.ClosedAt type

theorem closeStep_returns {type : Handle} (hs : s.WellFormed) (htype : type < s.size)
    (hcloses : ∀ {type g s u g' s'}, s.WellFormed →
      ((close type).run g).run s = .ok ((u, g'), s') → Closes g s g' s')
    (hclose : ∀ {g₁ : Guard Handle}, g₁.limits = g.limits → g₁.depth = g.depth + 1 →
      g.depth < g.limits.maxDepth → CloseReturns close g₁) :
    Returns ((closeStep close type).run g) s fun r s' =>
      Resumes g r.2 ∧ Closes g s r.2 s' ∧ ClosedUnlessExceeded g type r.2 s' := by
  suffices h : Returns ((closeStep close type).run g) s fun r s' =>
      Resumes g r.2 ∧ ClosedUnlessExceeded g type r.2 s' by
    refine h.of_run ?_
    rintro ⟨_, g'⟩ s' hrun ⟨hresumes, hclosed⟩
    exact ⟨hresumes, closeStep_run hcloses hs hrun, hclosed⟩
  obtain ⟨entry, hentry⟩ := entry_of_lt htype
  have hlinks := hs.inRange.links hentry
  refine .walk_bind rfl (.walk_bind (run_run_query_eq_ok.mpr ⟨entry_eq_ok.mpr hentry, rfl, rfl⟩) ?_)
  split
  · next hclosed => exact ⟨((), g), s, rfl, Resumes.refl g, fun _ _ _ => ⟨entry, hentry, hclosed⟩⟩
  · cases henter : g.enter type with
    | mk admission g₁ =>
        refine .walk_bind (run_run_enter_eq_ok.mpr ⟨henter, rfl⟩) ?_
        obtain ⟨hiterations, hexceeded, hdepth⟩ := Guard.enter_limits henter
        have hcounted : min g.iterations Guard.iterationCeiling ≤ g₁.iterations := by omega
        obtain ⟨hlimits, ⟨rfl, -, hentered, hvisiting, hdepth₁, -⟩ | ⟨rfl, hmem, -, hdepth₁, -⟩ |
          ⟨hrefused, -, hdepth₁, -⟩⟩ := Guard.enter_cases henter
        · -- The type is on the path now, so closing its supertypes comes back to it.
          have hreturns := hclose hlimits hdepth₁ hentered
          have hseal : ∀ {all g₂ s₂}, Resumes g₁ g₂ → Closes g₁ s g₂ s₂ →
              Returns ((do
                liftM <| modifyEntry type fun entry =>
                  { entry with interfaces := all, closed := true }
                set (← (← getThe (Guard Handle)).leave type) : ClosureM Unit).run g₂) s₂
                fun r s' => Resumes g r.2 ∧ ClosedUnlessExceeded g type r.2 s' := by
            intro all g₂ s₂ hresumes hwalk
            refine (seal_returns (hwalk.closing.size ▸ htype)
              (hwalk.visiting.trans hvisiting)).of_run ?_
            rintro ⟨_, g₃⟩ s₃ - ⟨rfl, hsealed⟩
            refine ⟨⟨hresumes.limits.trans hlimits, ?_, ?_⟩, fun _ _ _ => hsealed⟩
            · simp [hresumes.depth, hdepth₁]
            · have := hresumes.iterations
              simp only
              omega
          obtain ⟨⟨direct, g₂⟩, s₂, hrun, hresumes, hwalk⟩ :=
            closeDirect_returns hreturns (Resumes.refl g₁) hs hlinks.directInterfaces
          refine .walk_bind hrun ?_
          dsimp only
          split
          · next base hbase =>
              refine inherit_returns hreturns hresumes hwalk.wellFormed
                (hwalk.closing.size ▸ hlinks.base base hbase) fun inherited g₃ s₃ hr hw => ?_
              exact .walk_bind rfl (hseal (hresumes.trans hr) (hwalk.trans hw))
          · exact .walk_bind rfl (hseal hresumes hwalk)
        · refine ⟨((), g₁), s, rfl, ⟨hlimits, hdepth₁, hcounted⟩, fun hempty => ?_⟩
          simp [hempty] at hmem
        · have hclosed : ClosedUnlessExceeded g type g₁ s := by
            intro _ hlt hwithin
            cases admission with
            | entered => cases hrefused
            | cycle => cases hrefused
            | depthExceeded => exact absurd (hdepth rfl) (Nat.not_le.mpr hlt)
            | iterationExceeded => exact absurd (hexceeded.mp rfl) (Nat.not_lt.mpr hwithin)
          cases admission with
          | entered => cases hrefused
          | cycle => cases hrefused
          | depthExceeded => exact ⟨((), g₁), s, rfl, ⟨hlimits, hdepth₁, hcounted⟩, hclosed⟩
          | iterationExceeded => exact ⟨((), g₁), s, rfl, ⟨hlimits, hdepth₁, hcounted⟩, hclosed⟩

/-- Closing a type ends if the fuel covers the depth that the guard still allows. -/
theorem closeInterfaces_returns {depth : Nat} {type : Handle} (hs : s.WellFormed)
    (htype : type < s.size) (hfuel : g.limits.maxDepth ≤ depth + g.depth) :
    Returns ((closeInterfaces depth type).run g) s fun r s' =>
      Resumes g r.2 ∧ Closes g s r.2 s' ∧ ClosedUnlessExceeded g type r.2 s' := by
  induction depth generalizing g s type with
  | zero =>
      refine closeStep_returns hs htype (fun _ hthrow => ?_) fun _ _ hlt => ?_
      · cases hthrow
      · omega
  | succ depth ih =>
      refine closeStep_returns hs htype (fun hs hrun => closeInterfaces_run hs hrun) ?_
      intro g₁ hlimits hdepth _ super g₂ s₂ hresumes hs₂ hsuper
      have hlimits₂ : g₂.limits = g.limits := hresumes.limits.trans hlimits
      refine (ih hs₂ hsuper ?_).of_run fun _ _ _ h => ⟨h.1, h.2.1⟩
      rw [hlimits₂, hresumes.depth]
      omega

/-- A walk over several types ends, and closes all of them unless it makes too many attempts. -/
theorem forM_close_returns {depth : Nat} {types : List Handle} (hs : s.WellFormed)
    (htypes : ∀ t ∈ types, t < s.size) (hfuel : g.limits.maxDepth ≤ depth + g.depth)
    (hceiling : g.limits.maxIterations < Guard.iterationCeiling) :
    Returns ((types.forM (closeInterfaces depth)).run g) s fun r s' =>
      Resumes g r.2 ∧ Closes g s r.2 s' ∧ ∀ t ∈ types, ClosedUnlessExceeded g t r.2 s' := by
  induction types generalizing g s with
  | nil => exact ⟨((), g), s, rfl, Resumes.refl g, Closes.refl hs, by simp⟩
  | cons type types ih =>
      obtain ⟨⟨_, g₁⟩, s₁, hrun, hresumes, hcloses, hclosed⟩ :=
        closeInterfaces_returns hs (htypes type List.mem_cons_self) hfuel
      refine .walk_bind hrun ?_
      refine (ih hcloses.wellFormed (fun t ht => hcloses.closing.size ▸
        htypes t (List.mem_cons_of_mem type ht)) (by rw [hresumes.limits, hresumes.depth]; exact hfuel)
        (by rw [hresumes.limits]; exact hceiling)).of_run ?_
      rintro ⟨_, g₂⟩ s₂ - ⟨hresumes', hcloses', hclosed'⟩
      refine ⟨hresumes.trans hresumes', hcloses.trans hcloses', fun t ht hempty hdepth hwithin => ?_⟩
      have hlimits : g₁.limits = g.limits := hresumes.limits
      rcases List.mem_cons.mp ht with rfl | ht
      · have hcounted := hresumes'.iterations
        obtain ⟨entry, hentry, hsealed⟩ := hclosed hempty hdepth (by dsimp only at *; omega)
        exact ⟨entry, hcloses'.closing.later.closed hentry hsealed, hsealed⟩
      · refine hclosed' t ht (hcloses.visiting.trans hempty) ?_ (hlimits ▸ hwithin)
        rw [hlimits, hresumes.depth]
        exact hdepth

end Walks

/-- The attempts to visit a type that closing some types takes. -/
def closingAttempts (store : Store) (types : List Handle) : Nat :=
  let limits := Limits.supertypeClosure
  match ((types.forM (closeInterfaces limits.maxDepth)).run (Guard.ofLimits limits)).run store with
  | .ok ((_, guard), _) => guard.iterations
  | .error _ => 0

/-- Closing some types ends, and closes all of them unless it takes too many attempts. -/
theorem closeAll_returns {types : List Handle} (hs : s.WellFormed)
    (htypes : ∀ t ∈ types, t < s.size) :
    Returns (closeAll types) s fun _ s' => s'.WellFormed ∧ Closing [] s s' ∧
      (s.closingAttempts types ≤ Limits.supertypeClosure.maxIterations →
        ∀ t ∈ types, s'.ClosedAt t) := by
  let limits := Limits.supertypeClosure
  have hfuel : (Guard.ofLimits limits : Guard Handle).limits.maxDepth ≤ limits.maxDepth + 0 :=
    Nat.le_refl _
  obtain ⟨⟨_, guard⟩, s', hrun, -, hcloses, hclosed⟩ :=
    forM_close_returns hs htypes hfuel (by decide)
  have hattempts : s.closingAttempts types = guard.iterations := by
    rw [closingAttempts, hrun]
  have hvisiting : guard.visiting = [] := hcloses.visiting
  refine .run_bind hrun ⟨(), s', ?_, hcloses.wellFormed, hcloses.closing, fun hwithin t ht => ?_⟩
  · exact run_lift_eq_ok.mpr ⟨by simp [Guard.release, hvisiting], rfl⟩
  · exact hclosed t ht rfl (by decide) (hattempts ▸ hwithin)

end Store

end NominalGenerics
