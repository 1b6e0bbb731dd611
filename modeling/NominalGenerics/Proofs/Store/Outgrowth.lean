import NominalGenerics.Proofs.SolverEmbedding
import NominalGenerics.Proofs.Store.ConstraintTargets
import NominalGenerics.Proofs.Store.Correspondence
import NominalGenerics.Proofs.Store.Roles

/-!
# Outgrowths of a finished store

Interning on a finished store leads to outgrowths of it. Two outgrowths may have interned different
types in a different order. Types that correspond have the same names and flags and corresponding
direct supertypes; where no closing walk has given up, their interface sets correspond as well. So
an outgrowth all of whose types have counterparts is embedded in the other one, and the solver
cannot tell the two apart.
-/

namespace NominalGenerics.Store

variable {common s s' t : Store}

/-- What interning on the finished store `common` leads to. -/
structure Outgrowth (common s : Store) : Prop where
  enlarges : Enlarges common s
  lawful : s.Lawful
  finished : s.finished = true
  derived : s.DerivedFrom common.size

theorem Outgrowth.expanded (hs : Outgrowth common s) : ∀ type, type < s.size → s.Expanded type :=
  (hs.lawful.finished hs.finished).2

section Supertypes

theorem Derived.deep {entry : Entry} (h : s.Derived entry) {definition : Handle}
    {args : List Handle} (hshape : entry.shape = .instantiation definition args)
    (hdeep : maxInstantiationDepth < entry.nesting) :
    entry.base = none ∧ entry.directInterfaces = [] := by
  cases h with
  | instantiation _ _ _ hnone => exact hnone hdeep
  | array _ hcore =>
      rw [shape_of_core_array hcore] at hshape
      cases hshape

theorem Derived.directInterfaces_array {entry : Entry} (h : s.Derived entry) {element : Handle}
    {rank : Nat} (hshape : entry.shape = .array element rank) : entry.directInterfaces = [] := by
  cases h with
  | instantiation _ _ hcore =>
      rw [shape_of_core_instantiation hcore] at hshape
      cases hshape
  | array _ _ hnone => exact hnone

theorem rel_of_forall₂_toList {α β : Type} {R : α → β → Prop} {x : Option α} {y : Option β}
    (h : List.Forall₂ R x.toList y.toList) : Option.Rel R x y := by
  cases x with
  | none =>
      cases y with
      | none => exact .none
      | some b => cases h
  | some a =>
      cases y with
      | none => cases h
      | some b =>
          cases h with
          | cons hab _ => exact .some hab

/-- Corresponding types have corresponding direct supertypes. -/
structure LinksCorrespond (common s t : Store) (entry entry' : Entry) : Prop where
  base : Option.Rel (Corresponds common s t) entry.base entry'.base
  directInterfaces : List.Forall₂ (Corresponds common s t) entry.directInterfaces
    entry'.directInterfaces

variable {a b : Handle} {entry entry' : Entry}

/-- The links of a type of the common store. -/
theorem Enlarges.linksCorrespond (hs : Enlarges common s)
    (hentry : common.types[a]? = some entry) : LinksCorrespond common s t entry entry := by
  have hlinks := hs.wellFormed.inRange.links hentry
  refine ⟨?_, List.forall₂_same.mpr fun super hsuper =>
    .same (hlinks.directInterfaces super hsuper)⟩
  cases hbase : entry.base with
  | none => exact .none
  | some super => exact .some (.same (hlinks.base super hbase))

/-- The links of an instantiation outside the common store. -/
theorem Outgrowth.linksCorrespond_instantiation (hs : Outgrowth common s) (ht : Outgrowth common t)
    (hab : Corresponds common s t a b) (ha : common.size ≤ a) {definition : Handle}
    {args : List Handle} (hentry : s.types[a]? = some entry) (hentry' : t.types[b]? = some entry')
    (hshape : entry.shape = .instantiation definition args) :
    LinksCorrespond common s t entry entry' := by
  have hform : s.form a = some entry.form := form_of_entry hentry
  have hform' : t.form b = some entry'.form := form_of_entry hentry'
  obtain ⟨args', form', hargs, hfound, hshape'⟩ := hab.instantiation hs.enlarges ht.enlarges hform
    (Entry.form_shape_eq_instantiation.mpr hshape)
  obtain rfl := Option.some.inj (hform'.symm.trans hfound)
  have hnesting : entry'.nesting = entry.nesting := by
    have := hab.nestingAt hs.enlarges ht.enlarges
    rwa [nestingAt_of_form hform, nestingAt_of_form hform'] at this
  have hb := hab.ge ha
  rcases Nat.lt_or_ge maxInstantiationDepth entry.nesting with hdeep | hshallow
  · obtain ⟨hbase, hdirect⟩ := (hs.derived a entry ha hentry).deep hshape hdeep
    obtain ⟨hbase', hdirect'⟩ := (ht.derived b entry' hb hentry').deep
      (Entry.form_shape_eq_instantiation.mp hshape') (hnesting ▸ hdeep)
    exact ⟨by rw [hbase, hbase']; exact .none, by rw [hdirect, hdirect']; exact .nil⟩
  · obtain ⟨⟨params, hd, -⟩, -⟩ := hs.enlarges.coherent.instantiation hform
      (Entry.form_shape_eq_instantiation.mpr hshape)
    have hbelow := hs.enlarges.definition_lt hd
    have hdefines := hs.enlarges.defines_common hd
    obtain ⟨declared, hdeclared⟩ := entry_of_lt hbelow
    have hrange := hs.enlarges.wellFormed.inRange.links hdeclared
    obtain ⟨hbases, hdirect⟩ := (hs.expanded a (form_lt hform) _ _ _ hform
      (links_of_entry hentry)).1 definition args params declared.base declared.directInterfaces
      (Entry.form_shape_eq_instantiation.mpr hshape) hshallow hd
      ((hs.enlarges.links hbelow).trans (links_of_entry hdeclared))
    obtain ⟨hbases', hdirect'⟩ := (ht.expanded b (form_lt hform') _ _ _ hform'
      (links_of_entry hentry')).1 definition args' params declared.base declared.directInterfaces
      hshape' (hnesting ▸ hshallow) (ht.enlarges.later.extends.defines hdefines)
      ((ht.enlarges.links hbelow).trans (links_of_entry hdeclared))
    refine ⟨rel_of_forall₂_toList (forall₂_of_common hbases hbases' ?_),
      forall₂_of_common hdirect hdirect' ?_⟩
    · intro type htype x y hx hy
      exact hx.corresponds hs.enlarges ht.enlarges hargs
        (hrange.base type (Option.mem_toList.mp htype)) hy
    · intro type htype x y hx hy
      exact hx.corresponds hs.enlarges ht.enlarges hargs (hrange.directInterfaces type htype) hy

/-- The links of an array outside the common store. -/
theorem Outgrowth.linksCorrespond_array (hs : Outgrowth common s) (ht : Outgrowth common t)
    (hab : Corresponds common s t a b) (ha : common.size ≤ a) {element : Handle} {rank : Nat}
    (hentry : s.types[a]? = some entry) (hentry' : t.types[b]? = some entry')
    (hshape : entry.shape = .array element rank) : LinksCorrespond common s t entry entry' := by
  have hform : s.form a = some entry.form := form_of_entry hentry
  have hform' : t.form b = some entry'.form := form_of_entry hentry'
  obtain ⟨element', -, form', hfound, hshape'⟩ := hab.isArray hs.enlarges ht.enlarges
    ⟨entry.form, hform, Entry.form_shape_eq_array.mpr hshape⟩
  obtain rfl := Option.some.inj (hform'.symm.trans hfound)
  have hb := hab.ge ha
  have hbase := (hs.expanded a (form_lt hform) _ _ _ hform (links_of_entry hentry)).2 element rank
    (Entry.form_shape_eq_array.mpr hshape)
  have hbase' := (ht.expanded b (form_lt hform') _ _ _ hform' (links_of_entry hentry')).2 element'
    rank hshape'
  have hroot : common.arrayRoot.getD common.root < common.size := by
    cases hroot : common.arrayRoot with
    | none => exact (isNamed_root hs.enlarges.wellFormed.coherent).queries.2.2.2
    | some root => exact hs.enlarges.wellFormed.inRange.arrayRoot root hroot
  rw [hs.enlarges.later.arrayRoot, hs.enlarges.later.root] at hbase
  rw [ht.enlarges.later.arrayRoot, ht.enlarges.later.root] at hbase'
  refine ⟨by rw [hbase, hbase']; exact .some (.same hroot), ?_⟩
  rw [(hs.derived a entry ha hentry).directInterfaces_array hshape,
    (ht.derived b entry' hb hentry').directInterfaces_array
      (Entry.form_shape_eq_array.mp hshape')]
  exact .nil

/-- Corresponding types have corresponding direct supertypes. -/
theorem Outgrowth.linksCorrespond (hs : Outgrowth common s) (ht : Outgrowth common t)
    (hab : Corresponds common s t a b) (hentry : s.types[a]? = some entry)
    (hentry' : t.types[b]? = some entry') : LinksCorrespond common s t entry entry' := by
  rcases Nat.lt_or_ge a common.size with hlt | hge
  · obtain rfl := hab.eq_of_lt hlt
    rw [hs.enlarges.getElem? hlt] at hentry
    rw [ht.enlarges.getElem? hlt, hentry] at hentry'
    cases hentry'
    exact hs.enlarges.linksCorrespond hentry
  · obtain ⟨form, hform, ⟨definition, args, hshape⟩ | ⟨element, rank, hshape⟩⟩ :=
      hs.enlarges.interned a hge (lt_of_entry hentry)
    all_goals
      obtain ⟨found, hfound, rfl⟩ := form_eq_some.mp hform
      obtain rfl := Option.some.inj (hentry.symm.trans hfound)
    · exact hs.linksCorrespond_instantiation ht hab hge hentry hentry'
        (Entry.form_shape_eq_instantiation.mp hshape)
    · exact hs.linksCorrespond_array ht hab hge hentry hentry' (Entry.form_shape_eq_array.mp hshape)

/-- The counterparts of a covered store rank its types. -/
theorem Outgrowth.ranks (hs : Outgrowth common s) (ht : Outgrowth common t)
    (hcovers : Covers common s t) {rank : Handle → Nat} (hranks : t.Ranks common.size rank) :
    ∃ rank', s.Ranks common.size rank' := by
  choose φ hφ using hcovers.counterpart
  let rank' (a : Handle) : Nat := if h : a < s.size then rank (φ a h) else 0
  have hrank' : ∀ {a b}, Corresponds common s t a b → rank' a = rank b := by
    intro a b hab
    have hlt := hab.lt hs.enlarges
    exact (dif_pos hlt).trans (congrArg rank ((hφ a hlt).functional ht.enlarges.coherent hab))
  have hentry' : ∀ {a entry}, s.types[a]? = some entry → ∃ b entry', Corresponds common s t a b ∧
      t.types[b]? = some entry' ∧ LinksCorrespond common s t entry entry' := by
    intro a entry hentry
    have hlt := lt_of_entry hentry
    obtain ⟨entry', hentry'⟩ := entry_of_lt ((hφ a hlt).symm.lt ht.enlarges)
    exact ⟨φ a hlt, entry', hφ a hlt, hentry', hs.linksCorrespond ht (hφ a hlt) hentry hentry'⟩
  refine ⟨rank', hcovers.size_le.trans hranks.size_le, hcovers.size_le.trans hranks.added_le,
    fun a entry ha hentry => ?_, fun a entry ha hentry super hbase hsuper => ?_,
    fun a entry ha hentry super hdirect hsuper => ?_⟩
  all_goals
    obtain ⟨b, entry', hab, hentry', hlinks⟩ := hentry' hentry
    have hb := hab.ge ha
  · exact hrank' hab ▸ hranks.bounded b entry' hb hentry'
  · have hbases := hlinks.base
    rw [hbase] at hbases
    generalize hbase' : entry'.base = base' at hbases
    cases hbases with
    | @some _ super' hcorresponds =>
        rw [hrank' hab, hrank' hcorresponds]
        exact hranks.base b entry' hb hentry' super' hbase' (hcorresponds.ge hsuper)
  · obtain ⟨super', hsuper', hcorresponds⟩ := mem_of_forall₂ hlinks.directInterfaces hdirect
    rw [hrank' hab, hrank' hcorresponds]
    exact hranks.direct b entry' hb hentry' super' hsuper' (hcorresponds.ge hsuper)

end Supertypes

section Records

variable {a b : Handle} {entry entry' : Entry}

/-- Entries that record the same name, flags, kind and openness. -/
structure RecordsAlike (entry entry' : Entry) : Prop where
  name : entry'.name = entry.name
  flags : entry'.flags = entry.flags
  primitive : entry'.primitive = entry.primitive
  underlying : entry'.underlying = entry.underlying
  isOpen : entry'.isOpen = entry.isOpen

theorem RecordsAlike.of_core {made made' : Entry} (h : RecordsAlike made made')
    (hcore : entry.core = made.core) (hcore' : entry'.core = made'.core) :
    RecordsAlike entry entry' := by
  have hfield : ∀ {α : Type} (field : Entry → α), (∀ e : Entry, field e.core = field e) →
      field made' = field made → field entry' = field entry := by
    intro α field hkept hmade
    rw [← hkept entry', ← hkept entry, hcore, hcore', hkept, hkept, hmade]
  exact ⟨hfield _ (fun _ => rfl) h.name, hfield _ (fun _ => rfl) h.flags,
    hfield _ (fun _ => rfl) h.primitive, hfield _ (fun _ => rfl) h.underlying,
    hfield _ (fun _ => rfl) h.isOpen⟩

theorem map_eq_of_recordsAlike {α : Type} {field : Entry → α}
    (hfield : ∀ entry entry', RecordsAlike entry entry' → field entry' = field entry)
    {parts parts' : List Entry} (h : List.Forall₂ RecordsAlike parts parts') :
    parts'.map field = parts.map field := by
  induction h with
  | nil => rfl
  | cons hhead _ ih => rw [List.map_cons, List.map_cons, hfield _ _ hhead, ih]

/-- Interning reads only what is recorded alike. -/
theorem recordsAlike_instantiationEntry (definition : Handle) (declared : Entry)
    (args args' : List Handle) {parts parts' : List Entry}
    (h : List.Forall₂ RecordsAlike parts parts') :
    RecordsAlike (instantiationEntry definition declared args parts)
      (instantiationEntry definition declared args' parts') := by
  have hnames := map_eq_of_recordsAlike (fun _ _ hpart => hpart.name) h
  have hopen := congrArg (List.any · id) (map_eq_of_recordsAlike (fun _ _ hpart => hpart.isOpen) h)
  rw [List.any_map, List.any_map] at hopen
  exact ⟨by simp [instantiationEntry, hnames], rfl, rfl, rfl, hopen⟩

theorem recordsAlike_arrayEntry (element element' : Handle) {part part' : Entry}
    (h : RecordsAlike part part') (rank : Nat) :
    RecordsAlike (arrayEntry element part rank) (arrayEntry element' part' rank) :=
  ⟨by simp [arrayEntry, h.name], rfl, rfl, rfl, h.isOpen⟩

theorem Derived.of_instantiation (h : s.Derived entry) {definition : Handle} {args : List Handle}
    (hshape : entry.shape = .instantiation definition args) :
    ∃ declared parts, s.types[definition]? = some declared ∧
      List.Forall₂ (fun a part => s.types[a]? = some part) args parts ∧
      entry.core = (instantiationEntry definition declared args parts).core := by
  cases h with
  | instantiation hdeclared hparts hcore _ =>
      have hsame := shape_of_core_instantiation hcore
      rw [hshape, Shape.instantiation.injEq] at hsame
      obtain ⟨rfl, rfl⟩ := hsame
      exact ⟨_, _, hdeclared, hparts, hcore⟩
  | array _ hcore =>
      rw [shape_of_core_array hcore] at hshape
      cases hshape

theorem Derived.of_array (h : s.Derived entry) {element : Handle} {rank : Nat}
    (hshape : entry.shape = .array element rank) :
    ∃ part, s.types[element]? = some part ∧
      entry.core = (arrayEntry element part rank).core := by
  cases h with
  | instantiation _ _ hcore =>
      rw [shape_of_core_instantiation hcore] at hshape
      cases hshape
  | array hpart hcore _ =>
      have hsame := shape_of_core_array hcore
      rw [hshape, Shape.array.injEq] at hsame
      obtain ⟨rfl, rfl⟩ := hsame
      exact ⟨_, hpart, hcore⟩

/-- An entry has the shape of its form, unless that is a type parameter. -/
theorem shape_of_form_instantiation {form : Entry} {definition : Handle} {args : List Handle}
    (hentry : s.types[a]? = some entry) (hform : s.form a = some form)
    (hshape : form.shape = .instantiation definition args) :
    entry.shape = .instantiation definition args := by
  obtain ⟨found, hfound, rfl⟩ := form_eq_some.mp hform
  obtain rfl := Option.some.inj (hentry.symm.trans hfound)
  exact Entry.form_shape_eq_instantiation.mp hshape

theorem Enlarges.shape_of_applies (hs : Enlarges common s) {definition : Handle}
    {args : List Handle} (h : s.Applies definition args a) (ha : common.size ≤ a)
    (hentry : s.types[a]? = some entry) : entry.shape = .instantiation definition args := by
  obtain ⟨form, hform, hshape⟩ := hs.instantiation h ha
  exact shape_of_form_instantiation hentry hform hshape

theorem IsArray.shape {element : Handle} {rank : Nat} (h : s.IsArray element rank a)
    (hentry : s.types[a]? = some entry) : entry.shape = .array element rank := by
  obtain ⟨form, hform, hshape⟩ := h
  obtain ⟨found, hfound, rfl⟩ := form_eq_some.mp hform
  obtain rfl := Option.some.inj (hentry.symm.trans hfound)
  exact Entry.form_shape_eq_array.mp hshape

/-- Corresponding types have the same names and flags. -/
theorem Outgrowth.recordsAlike (hs : Outgrowth common s) (ht : Outgrowth common t)
    (hab : Corresponds common s t a b) (hentry : s.types[a]? = some entry)
    (hentry' : t.types[b]? = some entry') : RecordsAlike entry entry' := by
  induction hab generalizing entry entry' with
  | same hlt =>
      rw [hs.enlarges.getElem? hlt] at hentry
      rw [ht.enlarges.getElem? hlt, hentry] at hentry'
      cases hentry'
      exact ⟨rfl, rfl, rfl, rfl, rfl⟩
  | @application a b definition args args' ha hb happlies happlies' hlength _ ih =>
      obtain ⟨declared, parts, hdeclared, hparts, hcore⟩ :=
        (hs.derived a entry ha hentry).of_instantiation
          (hs.enlarges.shape_of_applies happlies ha hentry)
      obtain ⟨declared', parts', hdeclared', hparts', hcore'⟩ :=
        (ht.derived b entry' hb hentry').of_instantiation
          (ht.enlarges.shape_of_applies happlies' hb hentry')
      have hbelow : definition < common.size := by
        obtain ⟨params, hd, -⟩ := happlies
        exact hs.enlarges.definition_lt hd
      rw [hs.enlarges.getElem? hbelow] at hdeclared
      rw [ht.enlarges.getElem? hbelow, hdeclared] at hdeclared'
      cases hdeclared'
      refine (recordsAlike_instantiationEntry definition declared args args' ?_).of_core
        hcore hcore'
      have hlengths := hparts.length_eq
      refine forall₂_iff_getElem?.mpr ⟨by rw [← hlengths, hlength, hparts'.length_eq], ?_⟩
      intro i part part' hpart hpart'
      obtain ⟨x, hx⟩ := getElem?_of_length_eq hlengths hpart
      obtain ⟨y, hy⟩ := getElem?_of_length_eq hparts'.length_eq hpart'
      exact ih i x y hx hy ((forall₂_iff_getElem?.mp hparts).2 i x part hx hpart)
        ((forall₂_iff_getElem?.mp hparts').2 i y part' hy hpart')
  | @array a b element element' rank ha hb harray harray' _ ih =>
      obtain ⟨part, hpart, hcore⟩ :=
        (hs.derived a entry ha hentry).of_array (harray.shape hentry)
      obtain ⟨part', hpart', hcore'⟩ :=
        (ht.derived b entry' hb hentry').of_array (harray'.shape hentry')
      exact (recordsAlike_arrayEntry element element' (ih hpart hpart') rank).of_core hcore hcore'

end Records

section InterfaceSets

variable {a b : Handle} {as bs all all' : List Handle}

theorem mem_iff_of_corresponds (hs : s.Coherent) (ht : t.Coherent)
    (h : List.Forall₂ (Corresponds common s t) as bs) (hab : Corresponds common s t a b) :
    a ∈ as ↔ b ∈ bs := by
  induction h with
  | nil => simp
  | cons hhead _ ih =>
      rw [List.mem_cons, List.mem_cons, ih]
      refine or_congr_left ⟨?_, ?_⟩
      · rintro rfl
        exact hab.functional ht hhead
      · rintro rfl
        exact hab.injective hs hhead

theorem appendNew_corresponds (hs : s.Coherent) (ht : t.Coherent)
    (h : List.Forall₂ (Corresponds common s t) as bs) (hab : Corresponds common s t a b) :
    List.Forall₂ (Corresponds common s t) (appendNew as a) (appendNew bs b) := by
  have hiff := mem_iff_of_corresponds hs ht h hab
  unfold appendNew
  by_cases hmem : a ∈ as
  · rw [if_pos hmem, if_pos (hiff.mp hmem)]
    exact h
  · rw [if_neg hmem, if_neg fun hb => hmem (hiff.mpr hb)]
    exact forall₂_append h (.cons hab .nil)

theorem foldl_appendNew_corresponds (hs : s.Coherent) (ht : t.Coherent)
    (hall : List.Forall₂ (Corresponds common s t) all all')
    (h : List.Forall₂ (Corresponds common s t) as bs) :
    List.Forall₂ (Corresponds common s t) (as.foldl appendNew all) (bs.foldl appendNew all') := by
  induction h generalizing all all' with
  | nil => exact hall
  | cons hhead _ ih => exact ih (appendNew_corresponds hs ht hall hhead)

theorem gatherDirect_corresponds (hs : s.Coherent) (ht : t.Coherent)
    (hall : List.Forall₂ (Corresponds common s t) all all')
    (h : List.Forall₂ (Corresponds common s t) as bs)
    (hsets : ∀ a b, b ∈ bs → Corresponds common s t a b →
      List.Forall₂ (Corresponds common s t) (s.interfaceSet a) (t.interfaceSet b)) :
    List.Forall₂ (Corresponds common s t) (s.gatherDirect all as) (t.gatherDirect all' bs) := by
  induction h generalizing all all' with
  | nil => exact hall
  | cons hhead _ ih =>
      refine ih (foldl_appendNew_corresponds hs ht (appendNew_corresponds hs ht hall hhead)
        (hsets _ _ List.mem_cons_self hhead)) fun a b hb => hsets a b (List.mem_cons_of_mem _ hb)

/-- Where no closing walk has given up, corresponding types list corresponding interfaces. The
induction is on the rank, which is smaller for supertypes. -/
theorem Outgrowth.interfaceSet_corresponds (hs : Outgrowth common s) (ht : Outgrowth common t)
    (hsettled : s.SettledFrom common.size) (hsettled' : t.SettledFrom common.size)
    {rank : Handle → Nat} (hranks : t.Ranks common.size rank) (hab : Corresponds common s t a b) :
    List.Forall₂ (Corresponds common s t) (s.interfaceSet a) (t.interfaceSet b) := by
  have hcommon : ∀ {x y}, Corresponds common s t x y → y < common.size →
      List.Forall₂ (Corresponds common s t) (s.interfaceSet x) (t.interfaceSet y) := by
    intro x y hxy hlt
    obtain rfl := hxy.symm.eq_of_lt hlt
    obtain ⟨entry, hentry⟩ := entry_of_lt hlt
    rw [interfaceSet_of_entry (hs.enlarges.kept hentry),
      interfaceSet_of_entry (ht.enlarges.kept hentry)]
    exact List.forall₂_same.mpr fun super hsuper =>
      .same ((hs.enlarges.wellFormed.inRange.links hentry).interfaces super hsuper)
  obtain ⟨height, hheight⟩ : ∃ height, rank b = height := ⟨_, rfl⟩
  induction height using Nat.strong_induction_on generalizing a b with
  | _ height ih =>
      rcases Nat.lt_or_ge b common.size with hlt | hb
      · exact hcommon hab hlt
      have hsuper : ∀ {x y}, Corresponds common s t x y →
          (common.size ≤ y → rank y < rank b) →
          List.Forall₂ (Corresponds common s t) (s.interfaceSet x) (t.interfaceSet y) := by
        intro x y hxy hlower
        rcases Nat.lt_or_ge y common.size with hlt | hy
        · exact hcommon hxy hlt
        · exact ih (rank y) (hheight ▸ hlower hy) hxy rfl
      obtain ⟨entry, hcomplete⟩ := hsettled.complete a (hab.symm.ge hb) (hab.lt hs.enlarges)
      obtain ⟨entry', hcomplete'⟩ := hsettled'.complete b hb (hab.symm.lt ht.enlarges)
      have hlinks := hs.linksCorrespond ht hab hcomplete.found hcomplete'.found
      rw [interfaceSet_of_entry hcomplete.found, interfaceSet_of_entry hcomplete'.found,
        hcomplete.interfaces, hcomplete'.interfaces]
      refine foldl_appendNew_corresponds hs.enlarges.coherent ht.enlarges.coherent
        (gatherDirect_corresponds hs.enlarges.coherent ht.enlarges.coherent .nil
          hlinks.directInterfaces fun x y hy hxy => ?_) ?_
      · exact hsuper hxy (hranks.direct b entry' hb hcomplete'.found y hy)
      · have hbase := hlinks.base
        have hbelow := hranks.base b entry' hb hcomplete'.found
        generalize entry.base = base, entry'.base = base' at hbase hbelow ⊢
        cases hbase with
        | none => exact .nil
        | some hxy => exact hsuper hxy (hbelow _ rfl)

end InterfaceSets

section Steps

theorem Outgrowth.refl (hs : s.Lawful) (hfinished : s.finished = true) (hclosed : s.AllClosed) :
    Outgrowth s s := by
  refine ⟨⟨hs.wellFormed, hclosed, Later.refl s, hs.wellFormed.coherent, fun type hge hlt => ?_⟩,
    hs, hfinished, derivedFrom_size s⟩
  exact absurd hlt (Nat.not_lt.mpr hge)

/-- Interning on an outgrowth gives one. -/
theorem Outgrowth.next (hs : Outgrowth common s) (hlawful : s'.Lawful) (hlater : Later s s')
    (hderived : s'.DerivedFrom common.size) : Outgrowth common s' := by
  refine ⟨⟨hs.enlarges.wellFormed, hs.enlarges.closed, hs.enlarges.later.trans hlater,
    hlawful.wellFormed.coherent, fun type hge hlt => ?_⟩, hlawful,
    hlater.finished.trans hs.finished, hderived⟩
  obtain ⟨entry, hentry⟩ := entry_of_lt hlt
  exact (hderived type entry hge hentry).interned hentry

/-- A store is its own outgrowth's part. -/
theorem Outgrowth.covers (ht : Outgrowth common t) (hcommon : common.Lawful)
    (hfinished : common.finished = true) : Covers common common t :=
  ⟨(Outgrowth.refl hcommon hfinished ht.enlarges.closed).enlarges, ht.enlarges,
    fun a ha => ⟨a, .same ha⟩⟩

/-- `s` is settled and grows from `common` by types that `t` has, too. -/
structure Follows (common s t : Store) : Prop where
  outgrowth : Outgrowth common s
  settled : s.SettledFrom common.size
  covers : Covers common s t

variable {a b : Handle} {rank : Handle → Nat}

/-- Interning a type that has a counterpart ends, and adds only types that have counterparts. -/
theorem Follows.intern (hs : Follows common s t) (ht : Outgrowth common t)
    (hranks : t.Ranks common.size rank)
    {x : StoreM Handle} {mid : Store} (hx : x.run s = .ok (a, mid)) (hgrown : Grown s mid)
    (hcovers : Covers common mid t) (hab : Corresponds common mid t a b)
    (hkeeps : Keeps (DerivedFrom common.size) (do
      let type ← x
      Store.closeIfFinished
      return type : StoreM Handle) s) :
    Returns (do
      let type ← x
      Store.closeIfFinished
      return type : StoreM Handle) s fun a' s' =>
        Follows common s' t ∧ Corresponds common s' t a' b ∧ Later s s' := by
  have hmid := hcovers.source.coherent
  have hdraining := hs.outgrowth.lawful.grown_draining hgrown hmid
  have hpending : mid.pending.length ≤ mid.size := by
    obtain ⟨new, htypes, -, hnew⟩ := hgrown.types
    rw [hnew, (hs.outgrowth.lawful.finished hs.outgrowth.finished).1]
    simp [size, htypes]
  have hspace : t.size ≤ handleSpace := hranks.size_le.trans (by decide)
  obtain ⟨_, s', hclose, -⟩ := hcovers.closeIfFinished_returns hdraining ht.expanded
    (hgrown.finished.trans hs.outgrowth.finished) hpending hspace
  have hrun : (do
      let type ← x
      Store.closeIfFinished
      return type : StoreM Handle).run s = .ok (a, s') :=
    run_bind_eq_ok.mpr ⟨a, mid, hx, run_bind_eq_ok.mpr ⟨(), s', hclose, rfl⟩⟩
  obtain ⟨hlawful, hlater⟩ := hs.outgrowth.lawful.intern hgrown hmid hclose
  have hcovers' := hcovers.closeIfFinished hdraining ht.expanded hclose
  have houtgrowth := hs.outgrowth.next hlawful hlater (hkeeps a s' hrun)
  obtain ⟨rank', hranks'⟩ := houtgrowth.ranks ht hcovers' hranks
  exact ⟨a, s', hrun, ⟨houtgrowth, hs.settled.intern hgrown hmid hclose hranks'
      hs.outgrowth.enlarges.later.size_le, hcovers'⟩,
    hab.mono (hdraining.closeIfFinished_later hclose).extends, hlater⟩

theorem Follows.instantiate (hs : Follows common s t) (ht : Outgrowth common t)
    (hranks : t.Ranks common.size rank) {definition : Handle} {args args' : List Handle}
    (hargs : List.Forall₂ (Corresponds common s t) args args')
    (happlies : t.Applies definition args' b) :
    Returns (Store.instantiate definition args) s fun a s' =>
      Follows common s' t ∧ Corresponds common s' t a b ∧ Later s s' := by
  obtain ⟨params, hd, -⟩ := id happlies
  have hdefinition : definition < s.size := Nat.lt_of_lt_of_le
    (ht.enlarges.definition_lt hd) hs.outgrowth.enlarges.later.size_le
  have hlt : ∀ arg ∈ args, arg < s.size := by
    intro arg harg
    obtain ⟨arg', -, hcorresponds⟩ := mem_of_forall₂ hargs harg
    exact hcorresponds.lt hs.outgrowth.enlarges
  obtain ⟨a, mid, hintern, -⟩ := internInstance_returns hs.covers.source.coherent hdefinition hlt
  obtain ⟨hcovers, hgrown, hab⟩ := hs.covers.internInstance hargs happlies hintern
  exact hs.intern ht hranks hintern hgrown hcovers hab ((robust_derivedFrom common.size).instantiate
    hs.outgrowth.derived hs.outgrowth.lawful definition args)

theorem Follows.arrayOf (hs : Follows common s t) (ht : Outgrowth common t)
    (hranks : t.Ranks common.size rank) {element element' : Handle} {order : Nat}
    (helement : Corresponds common s t element element')
    (harray : t.IsArray element' (max order 1) b) :
    Returns (Store.arrayOf element order) s fun a s' =>
      Follows common s' t ∧ Corresponds common s' t a b ∧ Later s s' := by
  obtain ⟨a, mid, hintern, -⟩ := internArray_returns hs.covers.source.coherent
    (helement.lt hs.outgrowth.enlarges) (Nat.le_max_right order 1)
  obtain ⟨hcovers, hgrown, hab⟩ := hs.covers.internArray helement harray hintern
  exact hs.intern ht hranks hintern hgrown hcovers hab ((robust_derivedFrom common.size).arrayOf
    hs.outgrowth.derived hs.outgrowth.lawful element order)

end Steps

section Embedding

variable {φ : Handle → Handle} {entry : Entry}

/-- The handles of a renaming that fixes the common store. -/
theorem map_eq_self {types : List Handle} (hφ : ∀ type, type < common.size → φ type = type)
    (h : ∀ type ∈ types, type < common.size) : types.map φ = types := by
  rw [List.map_congr_left fun type htype => hφ type (h type htype), List.map_id']

/-- A renaming that fixes the common store leaves the shapes of its types alone. -/
theorem bare_rename_of_common (hs : common.Coherent)
    (hφ : ∀ type, type < common.size → φ type = type) {type : Handle}
    (hentry : common.types[type]? = some entry) :
    entry.shape.bare = (entry.shape.rename φ).bare := by
  have hform : common.form type = some entry.form := form_of_entry hentry
  have hargs : ∀ arg ∈ entry.arguments, arg < common.size := by
    intro arg harg
    obtain ⟨part, hpart, -⟩ := hs.argument hform (by simpa using harg)
    exact form_lt hpart
  cases hshape : entry.shape with
  | named => rfl
  | definition params =>
      rw [Entry.arguments, hshape] at hargs
      simp [Shape.rename, Shape.bare, map_eq_self hφ hargs]
  | instantiation definition args =>
      rw [Entry.arguments, hshape] at hargs
      obtain ⟨-, hbelow, -⟩ := hs.instantiation hform
        (Entry.form_shape_eq_instantiation.mpr hshape)
      simp [Shape.rename, Shape.bare, map_eq_self hφ hargs,
        hφ definition (Nat.lt_trans hbelow (form_lt hform))]
  | array element rank =>
      obtain ⟨-, hbelow, -⟩ := hs.array hform (Entry.form_shape_eq_array.mpr hshape)
      simp [Shape.rename, Shape.bare, hφ element (Nat.lt_trans hbelow (form_lt hform))]
  | parameter info =>
      have hlists := (hs.parameter hform (Entry.form_shape_of_parameter hshape)).2.2
      cases howner : info.owner with
      | callable id => simp [Shape.rename, Shape.bare, howner, ParamOwner.rename]
      | type definition =>
          rw [howner] at hlists
          obtain ⟨_, ⟨_, hdefinition, -⟩, -⟩ := hlists
          simp [Shape.rename, Shape.bare, howner, ParamOwner.rename,
            hφ definition (form_lt hdefinition)]

theorem Derived.underlying (h : s.Derived entry) : entry.underlying = none := by
  cases h with
  | instantiation _ _ hcore => exact (congrArg Entry.underlying hcore : entry.core.underlying = _)
  | array _ hcore => exact (congrArg Entry.underlying hcore : entry.core.underlying = _)

theorem eq_map_of_corresponds (hφ : ∀ a b, Corresponds common s t a b → b = φ a)
    {as bs : List Handle} (h : List.Forall₂ (Corresponds common s t) as bs) : bs = as.map φ := by
  induction h with
  | nil => rfl
  | cons hhead _ ih => rw [List.map_cons, ← hφ _ _ hhead, ih]

theorem shape_of_param? {info : TypeParam} (h : entry.param? = some info) :
    entry.shape = .parameter info := by
  unfold Entry.param? at h
  split at h
  · next hshape => rw [hshape, Option.some.inj h]
  · cases h

/-- Interning adds no type parameters. -/
theorem Outgrowth.lt_of_param? (hs : Outgrowth common s) {a : Handle} {info : TypeParam}
    (hentry : s.types[a]? = some entry) (hinfo : entry.param? = some info) : a < common.size := by
  by_contra hge
  have hshape := shape_of_param? hinfo
  cases hs.derived a entry (Nat.le_of_not_lt hge) hentry with
  | instantiation _ _ hcore =>
      rw [shape_of_core_instantiation hcore] at hshape
      cases hshape
  | array _ hcore =>
      rw [shape_of_core_array hcore] at hshape
      cases hshape

/-- A type and its counterpart look the same. -/
theorem Follows.entryImage (hs : Follows common s t) (ht : Outgrowth common t)
    (hsettled : t.SettledFrom common.size) {rank : Handle → Nat} (hranks : t.Ranks common.size rank)
    (hφ : ∀ a b, Corresponds common s t a b → b = φ a) {a b : Handle} {entry entry' : Entry}
    (hab : Corresponds common s t a b) (hentry : s.types[a]? = some entry)
    (hentry' : t.types[b]? = some entry') : EntryImage φ entry entry' := by
  have hfix : ∀ type, type < common.size → φ type = type := fun type hlt =>
    (hφ type type (.same hlt)).symm
  have hrecords := hs.outgrowth.recordsAlike ht hab hentry hentry'
  have hbase := (hs.outgrowth.linksCorrespond ht hab hentry hentry').base
  have hsets := hs.outgrowth.interfaceSet_corresponds ht hs.settled hsettled hranks hab
  rw [interfaceSet_of_entry hentry, interfaceSet_of_entry hentry'] at hsets
  refine ⟨hrecords.name, hrecords.flags, ?_, ?_, eq_map_of_corresponds hφ hsets,
    hrecords.primitive, hrecords.isOpen⟩
  · cases hab with
    | same hlt =>
        rw [hs.outgrowth.enlarges.getElem? hlt] at hentry
        rw [ht.enlarges.getElem? hlt, hentry] at hentry'
        cases hentry'
        exact bare_rename_of_common hs.outgrowth.enlarges.wellFormed.coherent hfix hentry
    | application ha hb happlies happlies' hlength hargs =>
        obtain ⟨params, hd, -⟩ := id happlies
        rw [hs.outgrowth.enlarges.shape_of_applies happlies ha hentry,
          ht.enlarges.shape_of_applies happlies' hb hentry',
          eq_map_of_corresponds hφ (forall₂_iff_getElem?.mpr ⟨hlength, hargs⟩), Shape.rename,
          hfix _ (hs.outgrowth.enlarges.definition_lt hd)]
    | array ha hb harray harray' helement =>
        rw [harray.shape hentry, harray'.shape hentry', hφ _ _ helement]
        rfl
  · generalize entry.base = base, entry'.base = base' at hbase ⊢
    cases hbase with
    | none => rfl
    | some hxy => rw [Option.map_some, hφ _ _ hxy]

/-- A store that follows a settled one is embedded in it, and the solver cannot tell them apart. -/
theorem Follows.embeds (hs : Follows common s t) (ht : Outgrowth common t)
    (hsettled : t.SettledFrom common.size) {rank : Handle → Nat} (hranks : t.Ranks common.size rank)
    (hconstraints : common.ConstraintsInRange) (hroles : common.RolesInRange) :
    ∃ φ, FullyEmbeds φ s t ∧ ∀ a b, Corresponds common s t a b → Image φ s a b := by
  choose ψ hψ using hs.covers.counterpart
  let φ (a : Handle) : Handle := if h : a < s.size then ψ a h else a
  have hsource := hs.outgrowth.enlarges
  have hcounterpart : ∀ a, a < s.size → Corresponds common s t a (φ a) := by
    intro a ha
    rw [show φ a = ψ a ha from dif_pos ha]
    exact hψ a ha
  have hφ : ∀ a b, Corresponds common s t a b → b = φ a := fun a b hab =>
    hab.functional ht.enlarges.coherent (hcounterpart a (hab.lt hsource))
  have hfix : ∀ type, type < common.size → φ type = type := fun type hlt =>
    (hφ type type (.same hlt)).symm
  have hcommon : ∀ {a role}, a < s.size → role < common.size → (role = φ a ↔ role = a) := by
    intro a role ha hrole
    constructor
    · rintro rfl
      exact ((hcounterpart a ha).symm.eq_of_lt hrole).symm
    · rintro rfl
      exact (hfix role hrole).symm
  have himage : ∀ {a entry}, s.types[a]? = some entry →
      ∃ entry', t.types[φ a]? = some entry' ∧ EntryImage φ entry entry' := by
    intro a entry hentry
    have hab := hcounterpart a (lt_of_entry hentry)
    obtain ⟨entry', hentry'⟩ := entry_of_lt (hab.symm.lt ht.enlarges)
    exact ⟨entry', hentry', hs.entryImage ht hsettled hranks hφ hab hentry hentry'⟩
  have himageCommon : ∀ {a}, a < common.size → Image φ s a a := fun hlt =>
    ⟨Nat.lt_of_lt_of_le hlt hsource.later.size_le, (hfix _ hlt).symm⟩
  refine ⟨φ, ⟨⟨hs.outgrowth.lawful.wellFormed, ht.enlarges.coherent, fun ha hb heq => ?_, himage,
    ?_, fun htype => ?_, fun htype => ?_⟩, ?_, ?_⟩, fun a b hab => ⟨hab.lt hsource, hφ a b hab⟩⟩
  · exact (hcounterpart _ ha).injective hsource.coherent (heq ▸ hcounterpart _ hb)
  · rw [ht.enlarges.later.root, hsource.later.root]
    exact (hfix _ (isNamed_root hsource.wellFormed.coherent).queries.2.2.2).symm
  · rw [ht.enlarges.later.optionalWrapper, hsource.later.optionalWrapper]
    cases hwrapper : common.optionalWrapper with
    | none => simp
    | some wrapper =>
        rw [Option.some.injEq, Option.some.injEq]
        exact hcommon htype (hroles.optionalWrapper wrapper hwrapper)
  · rw [ht.enlarges.later.sequenceInterfaces, hsource.later.sequenceInterfaces]
    constructor
    · intro hmem
      exact (hcommon htype (hroles.sequenceInterfaces _ hmem)).mp rfl ▸ hmem
    · intro hmem
      exact (hcommon htype (hroles.sequenceInterfaces _ hmem)).mpr rfl ▸ hmem
  · intro a entry entry' info info' hentry hentry' hinfo hinfo'
    have hlt := hs.outgrowth.lt_of_param? hentry hinfo
    rw [hfix a hlt, ht.enlarges.getElem? hlt, ← hsource.getElem? hlt, hentry] at hentry'
    cases hentry'
    rw [hinfo] at hinfo'
    cases hinfo'
    refine List.forall₂_same.mpr fun constraint hconstraint => ?_
    cases constraint with
    | valueType => exact .valueType
    | referenceType => exact .referenceType
    | defaultConstructible => exact .defaultConstructible
    | base target =>
        rw [hsource.getElem? hlt] at hentry
        exact .base (himageCommon (hconstraints hentry (shape_of_param? hinfo) hconstraint))
  · intro a entry entry' hentry hentry'
    rcases Nat.lt_or_ge a common.size with hlt | hge
    · rw [hfix a hlt, ht.enlarges.getElem? hlt, ← hsource.getElem? hlt, hentry] at hentry'
      cases hentry'
      rw [hsource.getElem? hlt] at hentry
      cases hintegral : entry.underlying with
      | none => exact .none
      | some integral => exact .some (himageCommon (hroles.underlying hentry integral hintegral))
    · have hrecords := hs.outgrowth.recordsAlike ht
        (hcounterpart a (lt_of_entry hentry)) hentry hentry'
      have hnone := (hs.outgrowth.derived a entry hge hentry).underlying
      rw [hrecords.underlying, hnone]
      exact .none

end Embedding

end NominalGenerics.Store
