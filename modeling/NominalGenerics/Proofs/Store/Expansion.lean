import NominalGenerics.Proofs.Store.Declaration
import NominalGenerics.Proofs.Store.Replacement

/-!
# Expansion of pending types

Draining the pending types gives each instantiation the supertypes of its definition with the
arguments put in, and each array its base. Entries that are closed are never touched again, so a
finished store only grows: `Store.Later` is what remains true of all its types.
-/

namespace NominalGenerics.Store

variable {s s' : Store}

/-- The direct supertypes that a type records. -/
def links (store : Store) (type : Handle) : Option (Option Handle × List Handle) :=
  store.types[type]?.map fun entry => (entry.base, entry.directInterfaces)

/-- The direct supertypes of an instantiation, unless it is nested too deep, are those of its
definition with the arguments put in. The base of an array is the array root. -/
def Expanded (store : Store) (type : Handle) : Prop :=
  ∀ form base interfaces, store.form type = some form →
    store.links type = some (base, interfaces) →
    (∀ definition args params base' interfaces',
      form.shape = .instantiation definition args → form.nesting ≤ maxInstantiationDepth →
      store.Defines definition params → store.links definition = some (base', interfaces') →
        List.Forall₂ (store.Replaced true params args) base'.toList base.toList ∧
          List.Forall₂ (store.Replaced true params args) interfaces' interfaces) ∧
    ∀ element rank, form.shape = .array element rank →
      base = some (store.arrayRoot.getD store.root)

/-- The type is an instantiation or an array. -/
def Interned (store : Store) (type : Handle) : Prop :=
  ∃ form, store.form type = some form ∧
    ((∃ definition args, form.shape = .instantiation definition args) ∨
      ∃ element rank, form.shape = .array element rank)

theorem expanded_of_not_interned {type : Handle} (h : ¬ s.Interned type) : s.Expanded type := by
  intro form base interfaces hform _
  refine ⟨fun definition args _ _ _ hshape => ?_, fun element rank hshape => ?_⟩
  · exact absurd ⟨form, hform, Or.inl ⟨definition, args, hshape⟩⟩ h
  · exact absurd ⟨form, hform, Or.inr ⟨element, rank, hshape⟩⟩ h

/-- Expansion survives changes that keep the forms, the roots and the direct supertypes of the type
and of all definitions. -/
theorem Expanded.mono {type : Handle} (h : s.Expanded type) (hext : Extends s s')
    (harrayRoot : s'.arrayRoot = s.arrayRoot) (hroot : s'.root = s.root) (hlt : type < s.size)
    (hself : s'.links type = s.links type)
    (hdefinitions : ∀ definition params, s.Defines definition params →
      s'.links definition = s.links definition) (hs : s.Coherent) : s'.Expanded type := by
  intro form base interfaces hform hlinks
  obtain ⟨old, hold⟩ := form_isSome hlt
  obtain rfl : old = form := Option.some.inj ((hext.forms hold).symm.trans hform)
  obtain ⟨hinst, harray⟩ := h old base interfaces hold (hself ▸ hlinks)
  rw [harrayRoot, hroot]
  refine ⟨fun definition args params base' interfaces' hshape hnesting hd hl => ?_, harray⟩
  obtain ⟨⟨params', hd', -⟩, -⟩ := hs.instantiation hold hshape
  obtain ⟨form', hform', hshape'⟩ := hd
  obtain ⟨form'', hform'', hshape''⟩ := id hd'
  obtain rfl : form'' = form' := Option.some.inj ((hext.forms hform'').symm.trans hform')
  obtain rfl : params' = params := by simpa [hshape'] using hshape''.symm
  rw [hdefinitions definition params' hd'] at hl
  obtain ⟨hbase, hinterfaces⟩ :=
    hinst definition args params' base' interfaces' hshape hnesting hd' hl
  exact ⟨hbase.imp fun _ _ hr => hr.mono hext, hinterfaces.imp fun _ _ hr => hr.mono hext⟩

/-- What stays true of a store while types are interned and closed: closed entries, forms, callables
and roles. -/
structure Later (s s' : Store) : Prop where
  closed : ∀ {type : Handle} {entry}, s.types[type]? = some entry → entry.closed = true →
    s'.types[type]? = some entry
  «extends» : Extends s s'
  callables : s'.callables = s.callables
  root : s'.root = s.root
  valueTypeRoot : s'.valueTypeRoot = s.valueTypeRoot
  arrayRoot : s'.arrayRoot = s.arrayRoot
  optionalWrapper : s'.optionalWrapper = s.optionalWrapper
  sequenceInterfaces : s'.sequenceInterfaces = s.sequenceInterfaces
  finished : s'.finished = s.finished

theorem Later.refl (s : Store) : Later s s :=
  ⟨fun h _ => h, Extends.refl s, rfl, rfl, rfl, rfl, rfl, rfl, rfl⟩

theorem Later.trans {a b c : Store} (hab : Later a b) (hbc : Later b c) : Later a c :=
  ⟨fun h hc => hbc.closed (hab.closed h hc) hc, hab.extends.trans hbc.extends,
    hbc.callables.trans hab.callables, hbc.root.trans hab.root,
    hbc.valueTypeRoot.trans hab.valueTypeRoot, hbc.arrayRoot.trans hab.arrayRoot,
    hbc.optionalWrapper.trans hab.optionalWrapper,
    hbc.sequenceInterfaces.trans hab.sequenceInterfaces, hbc.finished.trans hab.finished⟩

theorem Later.size_le (h : Later s s') : s.size ≤ s'.size := by
  by_contra hlt
  obtain ⟨form, hform⟩ := form_isSome (Nat.lt_of_not_le hlt)
  exact Nat.lt_irrefl _ (form_lt (h.extends.forms hform))

theorem Grown.later (h : Grown s s') : Later s s' :=
  ⟨fun he _ => h.entry he, h.extends, h.callables, h.root, h.valueTypeRoot, h.arrayRoot,
    h.optionalWrapper, h.sequenceInterfaces, h.finished⟩

theorem Grown.wellFormed (h : Grown s s') (hs : s.WellFormed) (hs' : s'.Coherent) :
    s'.WellFormed := by
  refine ⟨hs', fun he => ?_, fun hg => ?_, fun type ht => ?_, fun type ht => ?_, fun type ht => ?_⟩
  · rcases h.old_or_fresh he with hold | ⟨-, hfresh, -⟩
    · exact (hs.inRange.links hold).mono h.size_le
    · exact linksInRange_of_none hfresh.base hfresh.directInterfaces hfresh.interfaces
  · rw [h.callables] at hg
    exact (hs.inRange.signatures hg).mono h.size_le
  · rcases h.mem_pending ht with hold | ⟨-, hlt⟩
    · exact h.lt (hs.inRange.pending type hold)
    · exact hlt
  · rw [h.valueTypeRoot] at ht
    exact h.lt (hs.inRange.valueTypeRoot type ht)
  · rw [h.arrayRoot] at ht
    exact h.lt (hs.inRange.arrayRoot type ht)

theorem Grown.links (h : Grown s s') {type : Handle} (ht : type < s.size) :
    s'.links type = s.links type := by
  rw [Store.links, h.getElem? ht]
  rfl

/-- New direct supertypes for one type. -/
def relink (s : Store) (type : Handle) (change : Entry → Option Handle × List Handle) : Store :=
  { s with
    types := s.types.modify type fun entry =>
      { entry with base := (change entry).1, directInterfaces := (change entry).2 } }

section Relinking

variable {type : Handle} {change : Entry → Option Handle × List Handle}

theorem sameForms_relink : SameForms s (s.relink type change) := sameForms_modify fun _ => rfl

theorem size_relink : (s.relink type change).size = s.size := by simp [relink, size]

theorem links_relink_ne {other : Handle} (h : other ≠ type) :
    (s.relink type change).links other = s.links other := by
  simp only [links, relink, Array.getElem?_modify, if_neg (Ne.symm h)]

theorem links_relink_self {entry : Entry} (h : s.types[type]? = some entry) :
    (s.relink type change).links type = some (change entry) := by
  simp [links, relink, Array.getElem?_modify, h]

theorem later_relink {entry : Entry} (hentry : s.types[type]? = some entry)
    (hopen : entry.closed = false) : Later s (s.relink type change) := by
  refine ⟨fun {other e} he hclosed => ?_, sameForms_relink.extends, rfl, rfl, rfl, rfl, rfl, rfl,
    rfl⟩
  have hne : type ≠ other := by
    rintro rfl
    obtain rfl : entry = e := Option.some.inj (hentry.symm.trans he)
    rw [hopen] at hclosed
    cases hclosed
  simp [relink, Array.getElem?_modify, hne, he]

theorem WellFormed.relink (hs : s.WellFormed)
    (hbase : ∀ entry, s.types[type]? = some entry → ∀ t, (change entry).1 = some t → t < s.size)
    (hinterfaces : ∀ entry, s.types[type]? = some entry → ∀ t ∈ (change entry).2, t < s.size) :
    (s.relink type change).WellFormed := by
  refine hs.of_sameForms sameForms_relink (fun other entry hentry => ?_)
    (fun _ _ h => hs.inRange.signatures h) hs.inRange.pending hs.inRange.valueTypeRoot
    hs.inRange.arrayRoot
  rcases modify_getElem? hentry with ⟨-, old, hold, rfl⟩ | ⟨-, hold⟩
  · exact ⟨hbase old hold, hinterfaces old hold, (hs.inRange.links hold).interfaces⟩
  · exact hs.inRange.links hold

end Relinking

theorem substitute_option_run {params args : List Handle} {declared result : Option Handle}
    (hs : s.Coherent) (hargs : ∀ a ∈ args, a < s.size)
    (hrun : (declared.mapM (substitute params args)).run s = .ok (result, s')) :
    s'.Coherent ∧ Grown s s' ∧ (∀ t, result = some t → t < s'.size) ∧
      List.Forall₂ (s'.Replaced true params args) declared.toList result.toList := by
  cases declared with
  | none =>
      obtain ⟨rfl, rfl⟩ := run_pure_eq_ok.mp hrun
      exact ⟨hs, Grown.refl s, by simp, List.Forall₂.nil⟩
  | some type =>
      rw [Option.mapM_some, map_eq_pure_bind] at hrun
      obtain ⟨replaced, t, hsub, hrun⟩ := run_bind_eq_ok.mp hrun
      obtain ⟨rfl, rfl⟩ := run_pure_eq_ok.mp hrun
      obtain ⟨hc, hg, hlt, hr⟩ := substitute_run hs hargs hsub
      refine ⟨hc, hg, ?_, List.Forall₂.cons hr List.Forall₂.nil⟩
      rintro _ ⟨rfl⟩
      exact hlt

/-- Expanding an instantiation of a definition interns types and then sets its supertypes. -/
theorem expand_instantiation {type definition : Handle} {args params : List Handle}
    {entry declared : Entry} {mid last : Store} {base : Option Handle} {interfaces : List Handle}
    (hs : s.WellFormed) (hentry : s.types[type]? = some entry)
    (hshape : entry.shape = .instantiation definition args)
    (hdeclared : s.types[definition]? = some declared)
    (hparams : declared.shape = .definition params)
    (hbase : (declared.base.mapM (substitute params args)).run s = .ok (base, mid))
    (hinterfaces : (declared.directInterfaces.mapM (substitute params args)).run mid =
      .ok (interfaces, last)) :
    Grown s last ∧ last.WellFormed ∧
      (last.relink type fun _ => (base, interfaces)).WellFormed ∧
      (last.relink type fun _ => (base, interfaces)).Expanded type := by
  have hform : s.form type = some entry.form := form_of_entry hentry
  have hshape' := Entry.form_shape_eq_instantiation.mpr hshape
  obtain ⟨⟨params', hd, -⟩, hlt, parts, hparts, -⟩ := hs.coherent.instantiation hform hshape'
  have hargs : ∀ a ∈ args, a < s.size := by
    intro a ha
    obtain ⟨i, hi⟩ := List.getElem?_of_mem ha
    have hlen := hparts.length_eq
    obtain ⟨hi', -⟩ := List.getElem?_eq_some_iff.mp hi
    have hpart := (forall₂_iff_getElem?.mp hparts).2 i a _ hi
      (List.getElem?_eq_getElem (hlen ▸ hi'))
    exact form_lt hpart.2
  obtain ⟨hc, hg, hbaselt, hbaserel⟩ := substitute_option_run hs.coherent hargs hbase
  obtain ⟨hc', hg', hall⟩ := mapM_replaces (fun _ _ _ _ hs hargs => substitute_run hs hargs) hc
    (fun a ha => hg.lt (hargs a ha)) hinterfaces
  have hgrown := hg.trans hg'
  have hlast := hgrown.wellFormed hs hc'
  have hinlt : ∀ t ∈ interfaces, t < last.size := by
    intro t ht
    obtain ⟨i, hi⟩ := List.getElem?_of_mem ht
    obtain ⟨hi', -⟩ := List.getElem?_eq_some_iff.mp hi
    exact ((forall₂_iff_getElem?.mp hall).2 i _ t
      (List.getElem?_eq_getElem (hall.length_eq ▸ hi')) hi).1
  refine ⟨hgrown, hlast, hlast.relink (fun _ _ t ht => hg'.lt (hbaselt t ht))
    (fun _ _ => hinlt), ?_⟩
  have hsame : SameForms last (last.relink type fun _ => (base, interfaces)) := sameForms_relink
  have hext := hgrown.extends.trans hsame.extends
  intro form base' interfaces' hform' hlinks
  obtain rfl : entry.form = form := Option.some.inj ((hext.forms hform).symm.trans hform')
  rw [links_relink_self (hgrown.entry hentry), Option.some.injEq, Prod.mk.injEq] at hlinks
  obtain ⟨rfl, rfl⟩ := hlinks
  refine ⟨fun definition' args' params'' base'' interfaces'' hshape'' _ hd'' hl => ?_, ?_⟩
  · rw [hshape', Shape.instantiation.injEq] at hshape''
    obtain ⟨rfl, rfl⟩ := hshape''
    have hdl : definition < s.size := lt_of_entry hdeclared
    rw [links_relink_ne (Nat.ne_of_lt hlt), hgrown.links hdl, links, hdeclared] at hl
    obtain ⟨rfl, rfl⟩ := Prod.mk.inj (Option.some.inj hl)
    obtain rfl : params = params'' := by
      obtain ⟨form, hform, hs''⟩ := hd''
      have := hext.forms (form_of_entry hdeclared)
      obtain rfl : declared.form = form := Option.some.inj (this.symm.trans hform)
      simpa [hparams] using Entry.form_shape_eq_definition.mp hs''
    exact ⟨hbaserel.imp fun _ _ hr => hr.mono (hg'.extends.trans hsame.extends),
      hall.imp fun _ _ hr => hr.2.mono hsame.extends⟩
  · intro element rank harray
    rw [hshape'] at harray
    cases harray

theorem expand_array {type element : Handle} {rank : Nat} {entry : Entry} (hs : s.WellFormed)
    (hentry : s.types[type]? = some entry) (hshape : entry.shape = .array element rank) :
    (s.relink type fun e => (some (s.arrayRoot.getD s.root), e.directInterfaces)).WellFormed ∧
      (s.relink type fun e =>
        (some (s.arrayRoot.getD s.root), e.directInterfaces)).Expanded type := by
  have hroot : s.arrayRoot.getD s.root < s.size := by
    cases harray : s.arrayRoot with
    | some root => exact hs.inRange.arrayRoot root harray
    | none =>
        obtain ⟨hroot, form, hform, -⟩ := hs.coherent.root
        rw [Option.getD_none, hroot]
        exact form_lt hform
  constructor
  · refine hs.relink (fun _ _ t ht => ?_) fun e he => (hs.inRange.links he).directInterfaces
    rw [← Option.some.inj ht]
    exact hroot
  · intro form base interfaces hform hlinks
    rw [sameForms_relink.forms] at hform
    obtain rfl : entry.form = form := Option.some.inj ((form_of_entry hentry).symm.trans hform)
    rw [links_relink_self hentry, Option.some.injEq, Prod.mk.injEq] at hlinks
    refine ⟨fun definition args _ _ _ hinst => ?_, fun _ _ _ => hlinks.1.symm⟩
    rw [Entry.form_shape_eq_instantiation, hshape] at hinst
    cases hinst

/-- What expanding a type can do: nothing, if there is nothing to expand, or intern types and set
the supertypes of an instantiation or array. -/
theorem expand_run {type : Handle} {u : Unit} (hs : s.WellFormed)
    (hrun : (expand type).run s = .ok (u, s')) :
    (s' = s ∧ s.Expanded type) ∨
      ∃ mid change, s.Interned type ∧ Grown s mid ∧ mid.WellFormed ∧
        s' = mid.relink type change ∧ s'.WellFormed ∧ s'.Expanded type := by
  unfold expand at hrun
  obtain ⟨_, _, hget, hrun⟩ := run_bind_eq_ok.mp hrun
  cases hget
  obtain ⟨entry, _, hread, hrun⟩ := run_bind_eq_ok.mp hrun
  obtain ⟨hentry, rfl⟩ := run_lift_eq_ok.mp hread
  rw [entry_eq_ok] at hentry
  have hform : s.form type = some entry.form := form_of_entry hentry
  split at hrun
  · next definition args hshape =>
      have hshape' := Entry.form_shape_eq_instantiation.mpr hshape
      split at hrun
      · next hdeep =>
          obtain ⟨-, rfl⟩ := run_pure_eq_ok.mp hrun
          refine Or.inl ⟨rfl, fun form base interfaces hform' _ => ?_⟩
          obtain rfl : entry.form = form := Option.some.inj (hform.symm.trans hform')
          refine ⟨fun _ _ _ _ _ _ hnesting => ?_, fun element rank harray => ?_⟩
          · exact absurd hnesting (Nat.not_le.mpr hdeep)
          · rw [hshape'] at harray
            cases harray
      · obtain ⟨declared, _, hread, hrun⟩ := run_bind_eq_ok.mp hrun
        obtain ⟨hdeclared, rfl⟩ := run_lift_eq_ok.mp hread
        rw [entry_eq_ok] at hdeclared
        obtain ⟨⟨params', ⟨form, hform', hd⟩, -⟩, -⟩ := hs.coherent.instantiation hform hshape'
        obtain rfl : declared.form = form := Option.some.inj
          ((form_of_entry hdeclared).symm.trans hform')
        split at hrun
        · next params hparams =>
            obtain ⟨base, mid, hbase, hrun⟩ := run_bind_eq_ok.mp hrun
            obtain ⟨interfaces, last, hinterfaces, hrun⟩ := run_bind_eq_ok.mp hrun
            obtain ⟨-, rfl⟩ := modifyEntry_run hrun
            obtain ⟨hgrown, hlast, hwf, hexp⟩ := expand_instantiation hs hentry hshape hdeclared
              hparams hbase hinterfaces
            exact Or.inr ⟨last, fun _ => (base, interfaces),
              ⟨_, hform, Or.inl ⟨definition, args, hshape'⟩⟩, hgrown, hlast, rfl, hwf, hexp⟩
        · next hother => exact absurd (Entry.form_shape_eq_definition.mp hd) (hother params')
  · next element rank hshape =>
      have hshape' := Entry.form_shape_eq_array.mpr hshape
      obtain ⟨-, rfl⟩ := modifyEntry_run hrun
      obtain ⟨hwf, hexp⟩ := expand_array hs hentry hshape
      exact Or.inr ⟨s, fun e => (some (s.arrayRoot.getD s.root), e.directInterfaces),
        ⟨_, hform, Or.inr ⟨element, rank, hshape'⟩⟩, Grown.refl s, hs, rfl, hwf, hexp⟩
  · next hinst harray =>
      obtain ⟨-, rfl⟩ := run_pure_eq_ok.mp hrun
      refine Or.inl ⟨rfl, expanded_of_not_interned ?_⟩
      rintro ⟨form, hform', hshape⟩
      obtain rfl : entry.form = form := Option.some.inj (hform.symm.trans hform')
      rcases hshape with ⟨definition, args, hshape⟩ | ⟨element, rank, hshape⟩
      · exact hinst definition args (Entry.form_shape_eq_instantiation.mp hshape)
      · exact harray element rank (Entry.form_shape_eq_array.mp hshape)

/-- The invariant of draining: a type that is not pending is expanded, and a pending one is not
closed. -/
structure Draining (store : Store) : Prop where
  wellFormed : store.WellFormed
  unclosed : ∀ type ∈ store.pending, ∀ entry, store.types[type]? = some entry →
    entry.closed = false
  expanded : ∀ type, type < store.size → type ∈ store.pending ∨ store.Expanded type

/-- What expanding pending types leaves alone: the direct supertypes of the other types, and all
interface sets. -/
structure Expands (s s' : Store) : Prop where
  links : ∀ {type}, type < s.size → type ∉ s.pending →
    s'.links type = s.links type ∧ type ∉ s'.pending
  interfaces : ∀ {type : Handle} {entry'}, s'.types[type]? = some entry' →
    entry'.interfaces = [] ∨
      ∃ entry, s.types[type]? = some entry ∧ entry'.interfaces = entry.interfaces

theorem Expands.refl (s : Store) : Expands s s :=
  ⟨fun _ h => ⟨rfl, h⟩, fun h => Or.inr ⟨_, h, rfl⟩⟩

theorem Expands.trans {a b c : Store} (hab : Expands a b) (hbc : Expands b c)
    (hsize : a.size ≤ b.size) : Expands a c := by
  refine ⟨fun hlt hfree => ?_, fun hentry => ?_⟩
  · obtain ⟨hlinks, hfree'⟩ := hab.links hlt hfree
    obtain ⟨hlinks', hfree''⟩ := hbc.links (Nat.lt_of_lt_of_le hlt hsize) hfree'
    exact ⟨hlinks'.trans hlinks, hfree''⟩
  · rcases hbc.interfaces hentry with hnone | ⟨entry, hentry, heq⟩
    · exact Or.inl hnone
    · rcases hab.interfaces hentry with hnone | ⟨entry', hentry', heq'⟩
      · exact Or.inl (heq.trans hnone)
      · exact Or.inr ⟨entry', hentry', heq.trans heq'⟩

/-- Taking a type off the pending list changes no type. -/
theorem unqueue {rest : List Handle} (hs : s.WellFormed) (hrest : ∀ t ∈ rest, t < s.size) :
    { s with pending := rest : Store }.WellFormed ∧ Later s { s with pending := rest } ∧
      ∀ type, type < s.size → s.Expanded type →
        { s with pending := rest : Store }.Expanded type := by
  have hsame : SameForms s { s with pending := rest } :=
    ⟨fun _ => rfl, rfl, rfl, fun _ => rfl, rfl⟩
  refine ⟨?_, ⟨fun h _ => h, hsame.extends, rfl, rfl, rfl, rfl, rfl, rfl, rfl⟩,
    fun type hlt h => ?_⟩
  · exact hs.of_sameForms hsame (fun _ _ h => hs.inRange.links h)
      (fun _ _ h => hs.inRange.signatures h) hrest hs.inRange.valueTypeRoot hs.inRange.arrayRoot
  · exact h.mono hsame.extends rfl rfl hlt rfl (fun _ _ _ => rfl) hs.coherent

theorem Interned.not_defines {type : Handle} {params : List Handle} (h : s.Interned type) :
    ¬ s.Defines type params := by
  rintro ⟨form, hform, hshape⟩
  obtain ⟨form', hform', hshape'⟩ := h
  obtain rfl : form = form' := Option.some.inj (hform.symm.trans hform')
  rw [hshape] at hshape'
  rcases hshape' with ⟨_, _, h⟩ | ⟨_, _, h⟩ <;> cases h

/-- Interning types and then relinking a pending type keeps what is expanded. -/
theorem Draining.relinked {type : Handle} {rest : List Handle} {mid : Store}
    {change : Entry → Option Handle × List Handle} (hs : s.Draining)
    (hpending : s.pending = type :: rest)
    (hgrown : Grown { s with pending := rest } mid) (htype : s.Interned type)
    (hwf : (mid.relink type change).WellFormed) (hexp : (mid.relink type change).Expanded type) :
    (mid.relink type change).Draining ∧ Later s (mid.relink type change) := by
  have hhead : type ∈ s.pending := by simp [hpending]
  have hrest : rest ⊆ s.pending := by simp [hpending]
  obtain ⟨hwf₁, hlater₁, hexp₁⟩ := unqueue hs.wellFormed
    fun t ht => hs.wellFormed.inRange.pending t (hrest ht)
  obtain ⟨entry, hentry⟩ := entry_of_lt (hs.wellFormed.inRange.pending type hhead)
  have hunclosed := hs.unclosed type hhead entry hentry
  have hlater : Later s (mid.relink type change) :=
    hlater₁.trans (hgrown.later.trans (later_relink (hgrown.entry hentry) hunclosed))
  refine ⟨⟨hwf, fun t ht e he => ?_, fun t ht => ?_⟩, hlater⟩
  · have hmid : ∀ e, mid.types[t]? = some e → e.closed = false := by
      intro e he
      rcases hgrown.old_or_fresh he with hold | ⟨-, hfresh, -⟩
      · rcases hgrown.mem_pending ht with hrest' | ⟨hle, -⟩
        · exact hs.unclosed t (hrest hrest') e hold
        · exact absurd (lt_of_entry hold) (Nat.not_lt.mpr hle)
      · exact hfresh.closed
    rcases modify_getElem? he with ⟨rfl, old, hold, rfl⟩ | ⟨-, hold⟩
    · exact hmid old hold
    · exact hmid e hold
  · by_cases hne : t = type
    · exact Or.inr (hne ▸ hexp)
    · by_cases hold : t < s.size
      · rcases hs.expanded t hold with hp | hexp
        · refine Or.inl (hgrown.pending_subset ?_)
          rw [hpending, List.mem_cons] at hp
          exact hp.resolve_left hne
        · refine Or.inr (hexp.mono hlater.extends hlater.arrayRoot hlater.root hold ?_ ?_
            hs.wellFormed.coherent)
          · rw [links_relink_ne hne]
            exact hgrown.links hold
          · intro definition params hd
            have hnd : definition ≠ type := by
              rintro rfl
              exact htype.not_defines hd
            obtain ⟨form, hform, -⟩ := hd
            rw [links_relink_ne hnd]
            exact hgrown.links (form_lt hform)
      · rw [size_relink] at ht
        obtain ⟨e, he⟩ := entry_of_lt ht
        rcases hgrown.old_or_fresh he with h | ⟨-, -, hp⟩
        · exact absurd (lt_of_entry h) hold
        · exact Or.inl hp

/-- Interning types and then relinking a pending type leaves the other types alone. -/
theorem expands_relinked {type : Handle} {rest : List Handle} {mid : Store}
    {change : Entry → Option Handle × List Handle} (hpending : s.pending = type :: rest)
    (hgrown : Grown { s with pending := rest } mid) : Expands s (mid.relink type change) := by
  refine ⟨fun {other} hlt hfree => ?_, fun {other entry'} hentry => ?_⟩
  · rw [hpending, List.mem_cons, not_or] at hfree
    refine ⟨?_, fun hmem => ?_⟩
    · rw [links_relink_ne hfree.1]
      exact hgrown.links hlt
    · rcases hgrown.mem_pending hmem with hrest | ⟨hle, -⟩
      · exact hfree.2 hrest
      · exact absurd hlt (Nat.not_lt.mpr hle)
  · have hmid : ∀ e, mid.types[other]? = some e → e.interfaces = [] ∨
        ∃ entry, s.types[other]? = some entry ∧ e.interfaces = entry.interfaces := by
      intro e he
      rcases hgrown.old_or_fresh he with hold | ⟨-, hfresh, -⟩
      · exact Or.inr ⟨e, hold, rfl⟩
      · exact Or.inl hfresh.interfaces
    rcases modify_getElem? hentry with ⟨rfl, old, hold, rfl⟩ | ⟨-, hold⟩
    · exact hmid old hold
    · exact hmid entry' hold

theorem Draining.step {type : Handle} {rest : List Handle} {u : Unit} (hs : s.Draining)
    (hpending : s.pending = type :: rest)
    (hrun : (expand type).run { s with pending := rest } = .ok (u, s')) :
    s'.Draining ∧ Later s s' ∧ Expands s s' := by
  have hrest : rest ⊆ s.pending := by simp [hpending]
  obtain ⟨hwf₁, hlater₁, hexp₁⟩ := unqueue hs.wellFormed
    fun t ht => hs.wellFormed.inRange.pending t (hrest ht)
  rcases expand_run hwf₁ hrun with ⟨rfl, hexp⟩ | ⟨mid, change, htype, hgrown, hmid, rfl, hwf, hexp⟩
  · refine ⟨⟨hwf₁, fun t ht => hs.unclosed t (hrest ht), fun t ht => ?_⟩, hlater₁,
      fun _ hfree => ⟨rfl, fun hmem => hfree (hrest hmem)⟩, fun h => Or.inr ⟨_, h, rfl⟩⟩
    by_cases hne : t = type
    · exact Or.inr (hne ▸ hexp)
    · refine (hs.expanded t ht).imp (fun hp => ?_) (hexp₁ t ht)
      rw [hpending, List.mem_cons] at hp
      exact hp.resolve_left hne
  · obtain ⟨hdraining, hlater⟩ := hs.relinked hpending hgrown htype hwf hexp
    exact ⟨hdraining, hlater, expands_relinked hpending hgrown⟩

/-- A pending type is taken off the worklist before it is expanded. -/
theorem Draining.popped {type : Handle} {rest : List Handle} (hs : s.Draining)
    (hpending : s.pending = type :: rest) : { s with pending := rest : Store }.WellFormed :=
  (unqueue hs.wellFormed fun other hother =>
    hs.wellFormed.inRange.pending other (hpending ▸ List.mem_cons_of_mem type hother)).1

/-- Draining leaves no type pending, and keeps what expanding a pending type keeps. -/
theorem Draining.drain_keeps {I : Store → Prop} {fuel : Nat} {types : List Handle} (hs : s.Draining)
    (hI : I s)
    (hstep : ∀ {s s' : Store} {type : Handle} {rest : List Handle}, s.Draining → I s →
      s.pending = type :: rest → (expand type).run { s with pending := rest } = .ok ((), s') → I s')
    (hrun : (drain fuel).run s = .ok (types, s')) : s'.Draining ∧ s'.pending = [] ∧ I s' := by
  induction fuel generalizing s types with
  | zero =>
      obtain ⟨_, _, hget, hrun⟩ := run_bind_eq_ok.mp hrun
      cases hget
      split at hrun
      · next hempty =>
          obtain ⟨-, rfl⟩ := run_pure_eq_ok.mp hrun
          exact ⟨hs, List.isEmpty_iff.mp hempty, hI⟩
      · cases hrun
  | succ fuel ih =>
      obtain ⟨_, _, hget, hrun⟩ := run_bind_eq_ok.mp hrun
      cases hget
      split at hrun
      · next hempty =>
          obtain ⟨-, rfl⟩ := run_pure_eq_ok.mp hrun
          exact ⟨hs, hempty, hI⟩
      · next type rest hpending =>
          obtain ⟨_, _, hmodify, hrun⟩ := run_bind_eq_ok.mp hrun
          cases hmodify
          obtain ⟨_, mid, hexpand, hrun⟩ := run_bind_eq_ok.mp hrun
          obtain ⟨others, last, hdrain, hrun⟩ := run_bind_eq_ok.mp hrun
          obtain ⟨-, rfl⟩ := run_pure_eq_ok.mp hrun
          exact ih (hs.step hpending hexpand).1 (hstep hs hI hpending hexpand) hdrain

/-- Draining leaves no type pending, so that every type is expanded. -/
theorem drain_run {fuel : Nat} {types : List Handle} (hs : s.Draining)
    (hrun : (drain fuel).run s = .ok (types, s')) :
    s'.Draining ∧ s'.pending = [] ∧ Later s s' ∧ Expands s s' := by
  refine hs.drain_keeps (I := fun t => Later s t ∧ Expands s t) ⟨Later.refl s, Expands.refl s⟩
    (fun ht hI hpending hexpand => ?_) hrun
  obtain ⟨-, hlater, hexpands⟩ := ht.step hpending hexpand
  exact ⟨hI.1.trans hlater, hI.2.trans hexpands hI.1.size_le⟩

end NominalGenerics.Store
