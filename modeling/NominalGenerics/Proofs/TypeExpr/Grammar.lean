import NominalGenerics.Proofs.TypeExpr.Reading

/-!
# The grammar of type expressions

    Type ::= Name ('<' Type (',' Type)* '>')? ('[' ','* ']')*

`Derives` states the grammar apart from the reader. Each rule cuts a text into what it derives and
what follows. A token takes the blanks before it along, and a name ends only where no name character
follows. The expression that is derived has the names, the arguments and the ranks of the text,
where a rank is one more than the number of its commas.

The reader succeeds on the texts that derive from the grammar, but for blanks at the end, and gives
the expression that they derive. So a text derives at most one expression.
-/

namespace NominalGenerics

namespace TypeExpr

open Text

/-- The characters are blanks. -/
def AllBlank (chars : List Char) : Prop := ∀ c ∈ chars, isBlank c = true

/-- The text is blanks, the character, and `rest`. -/
def Token (c : Char) (text rest : List Char) : Prop :=
  ∃ blanks, AllBlank blanks ∧ text = blanks ++ c :: rest

/-- The text is blanks, a name that no further name character follows, and `rest`. -/
def NameToken (name : String) (text rest : List Char) : Prop :=
  ∃ blanks, AllBlank blanks ∧ IsName name ∧ text = blanks ++ (name.toList ++ rest) ∧
    ∀ c ∈ rest.head?, isNameChar c = false

/-- The text is so many commas, and `rest`. -/
inductive Commas : Nat → List Char → List Char → Prop
  | nil (text : List Char) : Commas 0 text text
  | cons {count : Nat} {text mid rest : List Char} (hcomma : Token ',' text mid)
      (hmore : Commas count mid rest) : Commas (count + 1) text rest

mutual

/-- The text is one that derives from `Type`, and `rest`. -/
inductive Derives : List Char → TypeExpr → List Char → Prop
  | named {name : String} {text rest : List Char} (hname : NameToken name text rest) :
      Derives text (.named name) rest
  | apply {name : String} {args : List TypeExpr} {text opening first closing rest : List Char}
      (hname : NameToken name text opening) (hopen : Token '<' opening first)
      (hargs : DerivesAll first args closing) (hclose : Token '>' closing rest) :
      Derives text (.apply name args) rest
  | array {element : TypeExpr} {commas : Nat} {text opening first closing rest : List Char}
      (helement : Derives text element opening) (hopen : Token '[' opening first)
      (hcommas : Commas commas first closing) (hclose : Token ']' closing rest) :
      Derives text (.array element (commas + 1)) rest

/-- The text is one that derives from `Type (',' Type)*`, and `rest`. -/
inductive DerivesAll : List Char → List TypeExpr → List Char → Prop
  | single {arg : TypeExpr} {text rest : List Char} (harg : Derives text arg rest) :
      DerivesAll text [arg] rest
  | cons {arg : TypeExpr} {args : List TypeExpr} {text dividing next rest : List Char}
      (harg : Derives text arg dividing) (hcomma : Token ',' dividing next)
      (hmore : DerivesAll next args rest) : DerivesAll text (arg :: args) rest

end

/-- The whole text derives the expression, with blanks at the end at most. -/
def Derivation (text : List Char) (expr : TypeExpr) : Prop :=
  ∃ rest, Derives text expr rest ∧ AllBlank rest

section Tokens

variable {c d : Char} {name : String} {count fuel : Nat} {text rest after blanks : List Char}

theorem skipBlank_append (h : AllBlank blanks) (text : List Char) :
    skipBlank (blanks ++ text) = skipBlank text :=
  List.dropWhile_append_of_pos h

theorem skipBlank_eq_nil : skipBlank text = [] ↔ AllBlank text := by
  simp [skipBlank, AllBlank]

/-- A text is the blanks at its front, and what is left when they are skipped. -/
theorem exists_blanks (text : List Char) : ∃ blanks, AllBlank blanks ∧
    text = blanks ++ skipBlank text :=
  ⟨text.takeWhile isBlank, fun _ h => List.mem_takeWhile_imp h,
    List.takeWhile_append_dropWhile.symm⟩

theorem Token.cons (hd : isBlank d = true) (h : Token c text rest) : Token c (d :: text) rest := by
  obtain ⟨blanks, hblanks, rfl⟩ := h
  exact ⟨d :: blanks, List.forall_mem_cons.mpr ⟨hd, hblanks⟩, rfl⟩

theorem Token.length_lt (h : Token c text rest) : rest.length < text.length := by
  obtain ⟨blanks, -, rfl⟩ := h
  rw [List.length_append, List.length_cons]
  omega

/-- A token is eaten. -/
theorem eat?_eq_some (hc : isBlank c = false) : eat? c text = some rest ↔ Token c text rest := by
  constructor
  · intro h
    obtain ⟨blanks, hblanks, htext⟩ := exists_blanks text
    unfold eat? at h
    split at h
    · next first tail hskip =>
        rw [Option.ite_none_right_eq_some] at h
        obtain ⟨rfl, heq⟩ := h
        cases heq
        exact ⟨blanks, hblanks, hskip ▸ htext⟩
    · cases h
  · rintro ⟨blanks, hblanks, rfl⟩
    rw [eat?, skipBlank_append hblanks, skipBlank_cons hc]
    exact if_pos rfl

/-- No other token is eaten in its place. -/
theorem Token.eat?_eq_none (h : Token c text rest) (hc : isBlank c = false) (hne : c ≠ d) :
    eat? d text = none := by
  obtain ⟨blanks, hblanks, rfl⟩ := h
  rw [eat?, skipBlank_append hblanks, skipBlank_cons hc]
  exact if_neg hne

theorem AllBlank.eat?_eq_none (h : AllBlank text) : eat? c text = none := by
  rw [eat?, skipBlank_eq_nil.mpr h]

/-- A name token is read. -/
theorem readName_eq_ok : readName text = .ok (name, rest) ↔ NameToken name text rest := by
  constructor
  · intro h
    obtain ⟨blanks, hblanks, htext⟩ := exists_blanks text
    have hcut := skipBlank_of_readName h
    have hend := List.head?_dropWhile_not isNameChar (skipBlank text)
    rcases readName_cases text with ⟨name', rest', hread, hname, -⟩ | ⟨_, hread, -⟩
    · rw [h] at hread
      cases hread
      unfold readName at h
      dsimp only at h
      split at h
      · cases h
      · cases h
        refine ⟨blanks, hblanks, hname, by rw [← hcut, ← htext], fun c hc => ?_⟩
        · rw [Option.mem_def.mp hc] at hend
          simpa using hend
    · rw [h] at hread
      cases hread
  · rintro ⟨blanks, hblanks, hname, rfl, hrest⟩
    have hread := readName_append hname hrest
    have hskip : readName (blanks ++ (name.toList ++ rest)) = readName (name.toList ++ rest) := by
      unfold readName
      rw [skipBlank_append hblanks]
    exact hskip.trans hread

theorem NameToken.length_lt (h : NameToken name text rest) : rest.length < text.length := by
  obtain ⟨blanks, -, hname, rfl, -⟩ := h
  have hpos := List.length_pos_iff.mpr hname.1
  rw [List.length_append, List.length_append]
  omega

/-- Blanks before the commas are skipped. -/
theorem readCommas_blank (hd : isBlank d = true) (text : List Char) :
    readCommas (d :: text) = readCommas text := by
  have hne : d ≠ ',' := by
    rintro rfl
    exact absurd hd (by decide)
  rw [readCommas, if_neg hne, if_pos hd]

theorem readCommas_append (h : AllBlank blanks) (text : List Char) :
    readCommas (blanks ++ text) = readCommas text := by
  induction blanks with
  | nil => rfl
  | cons b blanks ih =>
      obtain ⟨hb, hblanks⟩ := List.forall_mem_cons.mp h
      rw [List.cons_append, readCommas_blank hb, ih hblanks]

theorem Commas.length_le (h : Commas count text rest) : rest.length ≤ text.length := by
  induction h with
  | nil => exact Nat.le_refl _
  | cons hcomma _ ih => exact ih.trans hcomma.length_lt.le

/-- Commas before a closing bracket are counted. -/
theorem readCommas_of_commas (h : Commas count text rest) (hclose : Token ']' rest after) :
    readCommas text = (count, ']' :: after) := by
  induction h with
  | nil text =>
      obtain ⟨blanks, hblanks, rfl⟩ := hclose
      rw [readCommas_append hblanks]
      rfl
  | cons hcomma _ ih =>
      obtain ⟨blanks, hblanks, rfl⟩ := hcomma
      rw [readCommas_append hblanks, readCommas, if_pos rfl, ih hclose]

/-- Where the closing bracket follows the counted commas, they are commas. -/
theorem commas_of_readCommas (h : eat? ']' (readCommas text).2 = some after) :
    ∃ rest, Commas (readCommas text).1 text rest ∧ Token ']' rest after := by
  induction text with
  | nil => cases h
  | cons d text ih =>
      by_cases hd : d = ','
      · subst hd
        rw [readCommas, if_pos rfl] at h ⊢
        obtain ⟨rest, hcommas, hclose⟩ := ih h
        exact ⟨rest, .cons ⟨[], by simp [AllBlank], rfl⟩ hcommas, hclose⟩
      · cases hblank : isBlank d with
        | true =>
            rw [readCommas_blank hblank] at h ⊢
            obtain ⟨rest, hcommas, hclose⟩ := ih h
            generalize (readCommas text).1 = count at hcommas
            -- The blank stands before the first comma, or before the bracket.
            cases hcommas with
            | nil => exact ⟨_, .nil _, hclose.cons hblank⟩
            | cons hcomma hmore => exact ⟨rest, .cons (hcomma.cons hblank) hmore, hclose⟩
        | false =>
            rw [readCommas, if_neg hd, if_neg (by simp [hblank])] at h ⊢
            exact ⟨_, .nil _, (eat?_eq_some (by decide)).mp h⟩

end Tokens

section Soundness

variable {expr found : TypeExpr} {args : List TypeExpr} {fuel : Nat} {start text rest : List Char}

theorem derives_of_readRanks (h : Derives start expr text)
    (hread : readRanks fuel expr text = .ok (found, rest)) : Derives start found rest := by
  induction fuel generalizing expr text with
  | zero =>
      cases hread
      exact h
  | succ fuel ih =>
      unfold readRanks at hread
      split at hread
      · cases hread
        exact h
      · next inner hopen =>
          dsimp only at hread
          split at hread
          · next after hclose =>
              obtain ⟨last, hcommas, hlast⟩ := commas_of_readCommas hclose
              exact ih (.array h ((eat?_eq_some (by decide)).mp hopen) hcommas hlast) hread
          · cases hread

theorem derivesAll_of_readArgs {read : List Char → Reading TypeExpr}
    (hsound : ∀ {text expr rest}, read text = .ok (expr, rest) → Derives text expr rest)
    (hread : readArgs read fuel text = .ok (args, rest)) : DerivesAll text args rest := by
  induction fuel generalizing text args with
  | zero => cases hread
  | succ fuel ih =>
      unfold readArgs at hread
      split at hread
      · cases hread
      · next arg mid hfirst =>
          have harg := hsound hfirst
          split at hread
          · cases hread
            exact .single harg
          · next after hcomma =>
              split at hread
              · cases hread
              · next others last hmore =>
                  cases hread
                  exact .cons harg ((eat?_eq_some (by decide)).mp hcomma) (ih hmore)

/-- What is read is derived. -/
theorem derives_of_readType (hread : readType fuel text = .ok (expr, rest)) :
    Derives text expr rest := by
  induction fuel generalizing text expr rest with
  | zero => cases hread
  | succ fuel ih =>
      unfold readType at hread
      split at hread
      · cases hread
      · next name opening hname =>
          have htoken := readName_eq_ok.mp hname
          split at hread
          · exact derives_of_readRanks (.named htoken) hread
          · next first hopen =>
              have hopening := (eat?_eq_some (by decide)).mp hopen
              split at hread
              · cases hread
              · next args closing hargs =>
                  have hall := derivesAll_of_readArgs ih hargs
                  split at hread
                  · next after hclose =>
                      have hclosing := (eat?_eq_some (by decide)).mp hclose
                      exact derives_of_readRanks (.apply htoken hopening hall hclosing) hread
                  · cases hread

end Soundness

section Completeness

variable {fuel : Nat} {text rest first : List Char} {expr : TypeExpr}

/-- No ranks are read where no bracket opens. -/
theorem readRanks_of_eat? (h : eat? '[' text = none) :
    readRanks fuel expr text = .ok (expr, text) := by
  cases fuel with
  | zero => rfl
  | succ fuel => rw [readRanks, h]

/-- A rank is read. -/
theorem readRanks_of_commas {commas : Nat} {closing : List Char} (hopen : Token '[' text first)
    (hcommas : Commas commas first closing) (hclose : Token ']' closing rest) :
    readRanks fuel.succ expr text = readRanks fuel (.array expr (commas + 1)) rest := by
  have hlast : eat? ']' (']' :: rest) = some rest := by rw [eat?_cons (by decide), if_pos rfl]
  rw [readRanks, (eat?_eq_some (by decide)).mpr hopen]
  dsimp only
  rw [readCommas_of_commas hcommas hclose]
  dsimp only
  rw [hlast]

mutual

theorem Derives.length_lt : {expr : TypeExpr} → {text rest : List Char} → Derives text expr rest →
    rest.length < text.length
  | .named _, _, _, h => by
      cases h with
      | named hname => exact hname.length_lt
  | .apply _ _, _, _, h => by
      cases h with
      | apply hname hopen hargs hclose =>
          have := hname.length_lt
          have := hopen.length_lt
          have := hargs.length_lt
          have := hclose.length_lt
          omega
  | .array _ _, _, _, h => by
      cases h with
      | array helement hopen hcommas hclose =>
          have := helement.length_lt
          have := hopen.length_lt
          have := hcommas.length_le
          have := hclose.length_lt
          omega

theorem DerivesAll.length_lt : {args : List TypeExpr} → {text rest : List Char} →
    DerivesAll text args rest → rest.length < text.length
  | [], _, _, h => nomatch h
  | _ :: _, _, _, h => by
      cases h with
      | single harg => exact harg.length_lt
      | cons harg hcomma hmore =>
          have := harg.length_lt
          have := hcomma.length_lt
          have := hmore.length_lt
          omega

end

mutual

/-- Reading what is derived comes to where further ranks would be read, unless arguments follow. -/
theorem readType_of_derives : (expr : TypeExpr) → ∀ (fuel : Nat) {text rest : List Char},
    Derives text expr rest → eat? '<' rest = none → text.length ≤ fuel.succ →
      ∃ fuel', rest.length ≤ fuel' ∧ readType fuel.succ text = readRanks fuel' expr rest
  | .named name, fuel, text, rest, h, hrest, hlength => by
      cases h with
      | named hname =>
          have := hname.length_lt
          refine ⟨fuel, by omega, ?_⟩
          rw [readType, readName_eq_ok.mpr hname]
          dsimp only
          rw [hrest]
  | .apply name args, fuel, text, rest, h, _, hlength => by
      cases h with
      | apply hname hopen hargs hclose =>
          have := hname.length_lt
          have := hopen.length_lt
          have := hargs.length_lt
          have := hclose.length_lt
          refine ⟨fuel, by omega, ?_⟩
          rw [readType, readName_eq_ok.mpr hname]
          dsimp only
          rw [(eat?_eq_some (by decide)).mpr hopen]
          dsimp only
          rw [readArgs_of_derivesAll args fuel fuel hargs hclose (by omega) (by omega)]
          dsimp only
          rw [(eat?_eq_some (by decide)).mpr hclose]
  | .array element rank, fuel, text, rest, h, _, hlength => by
      cases h with
      | array helement hopen hcommas hclose =>
          obtain ⟨fuel', hfuel, hread⟩ := readType_of_derives element fuel helement
            (hopen.eat?_eq_none (by decide) (by decide)) hlength
          have := hopen.length_lt
          have := hcommas.length_le
          have := hclose.length_lt
          obtain ⟨last, rfl⟩ : ∃ last, fuel' = last + 1 := ⟨fuel' - 1, by omega⟩
          exact ⟨last, by omega, hread.trans (readRanks_of_commas hopen hcommas hclose)⟩

/-- Derived arguments before a closing bracket are read. -/
theorem readArgs_of_derivesAll : (args : List TypeExpr) → ∀ (fuel count : Nat)
    {text closing rest : List Char}, DerivesAll text args closing → Token '>' closing rest →
      text.length ≤ fuel → text.length ≤ count →
        readArgs (readType fuel) count text = .ok (args, closing)
  | [], _, _, _, _, _, h, _, _, _ => nomatch h
  | arg :: args, fuel, count, text, closing, rest, h, hclose, hfuel, hcount => by
      have hpos := h.length_lt
      obtain ⟨fuel, rfl⟩ : ∃ fuel', fuel = fuel' + 1 := ⟨fuel - 1, by omega⟩
      obtain ⟨count, rfl⟩ : ∃ count', count = count' + 1 := ⟨count - 1, by omega⟩
      cases h with
      | single harg =>
          have hnone : ∀ {d : Char}, '>' ≠ d → eat? d closing = none := fun hne =>
            hclose.eat?_eq_none (by decide) hne
          obtain ⟨fuel', -, hread⟩ := readType_of_derives arg fuel harg (hnone (by decide)) hfuel
          rw [readArgs, hread, readRanks_of_eat? (hnone (by decide))]
          dsimp only
          rw [hnone (by decide)]
      | cons harg hcomma hmore =>
          have hnone : ∀ {d : Char}, ',' ≠ d → eat? d _ = none := fun hne =>
            hcomma.eat?_eq_none (by decide) hne
          obtain ⟨fuel', -, hread⟩ := readType_of_derives arg fuel harg (hnone (by decide)) hfuel
          have := harg.length_lt
          have := hcomma.length_lt
          rw [readArgs, hread, readRanks_of_eat? (hnone (by decide))]
          dsimp only
          rw [(eat?_eq_some (by decide)).mpr hcomma]
          dsimp only
          rw [readArgs_of_derivesAll args (fuel + 1) count hmore hclose (by omega) (by omega)]

end

end Completeness

variable {text : List Char} {expr : TypeExpr}

/-- The reader accepts exactly the texts that derive an expression, and gives the expression. -/
theorem read_eq_ok : read text = .ok expr ↔ Derivation text expr := by
  constructor
  · intro h
    unfold read at h
    split at h
    · cases h
    · next found rest hread =>
        split at h
        · next hskip =>
            cases h
            exact ⟨rest, derives_of_readType hread, skipBlank_eq_nil.mp hskip⟩
        · cases h
  · rintro ⟨rest, hderives, hblank⟩
    obtain ⟨fuel, -, hread⟩ := readType_of_derives expr text.length hderives hblank.eat?_eq_none
      (Nat.le_succ _)
    rw [read, hread, readRanks_of_eat? hblank.eat?_eq_none]
    dsimp only
    rw [skipBlank_eq_nil.mpr hblank]

/-- A text derives at most one expression. -/
theorem Derivation.unique {other : TypeExpr} (h : Derivation text expr)
    (h' : Derivation text other) : expr = other :=
  Except.ok.inj ((read_eq_ok.mpr h).symm.trans (read_eq_ok.mpr h'))

/-- The names of a derivation are names. -/
theorem Derivation.isName (h : Derivation text expr) : ∀ name ∈ expr.names, IsName name :=
  isName_of_read (read_eq_ok.mpr h)

end TypeExpr

end NominalGenerics
