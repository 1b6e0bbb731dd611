import Mathlib.Data.List.TakeWhile
import NominalGenerics.TypeExpr.Reader

/-!
# Readings of type expressions

Reading consumes a text from the left: what a reading leaves over, or where it stops, is an end of
the text. The names that it finds are cut out of the text and consist of name characters, which set
them apart from the written forms of instantiations and arrays. A rank is at least one, and the text
is longer than that.

Writing an expression and reading it again gives the expression. A name ends only where something
else than a name character follows, and ranks follow each other. So the lemmas about writing are
about an expression before a rest of the text that begins with a delimiter, and say that reading the
expression comes to the point where further ranks would be read.
-/

namespace NominalGenerics

namespace TypeExpr

open Text

/-- The name consists of name characters, one at least. -/
def IsName (name : String) : Prop := name.toList ≠ [] ∧ ∀ c ∈ name.toList, isNameChar c = true

-- Deciding the condition through `List.all` keeps to the characters of the name.
instance (name : String) : Decidable (IsName name) :=
  decidable_of_iff (name.toList ≠ [] ∧ name.toList.all isNameChar = true) (by simp [IsName])

mutual

/-- The names that occur in an expression. -/
def names : TypeExpr → List String
  | .named name => [name]
  | .apply name args => name :: allNames args
  | .array element _ => element.names

/-- The names that occur in some expressions. -/
def allNames : List TypeExpr → List String
  | [] => []
  | expr :: rest => expr.names ++ allNames rest

end

mutual

/-- The ranks that occur in an expression. -/
def ranks : TypeExpr → List Nat
  | .named _ => []
  | .apply _ args => allRanks args
  | .array element rank => rank :: element.ranks

/-- The ranks that occur in some expressions. -/
def allRanks : List TypeExpr → List Nat
  | [] => []
  | expr :: rest => expr.ranks ++ allRanks rest

end

section Characters

variable {c : Char} {text : List Char}

/-- A blank is no name character. -/
theorem not_isNameChar_of_isBlank (h : isBlank c = true) : isNameChar c = false := by
  have hall : ∀ n ∈ blankRanges.flatMap fun range => List.range' range.1 (range.2 + 1 - range.1),
      isNameChar (Char.ofNat n) = false := by
    decide +kernel
  obtain ⟨⟨low, high⟩, hrange, hc⟩ := List.any_eq_true.mp h
  rw [Bool.and_eq_true, decide_eq_true_eq, decide_eq_true_eq] at hc
  have hmem : c.toNat ∈ List.range' low (high + 1 - low) := by
    rw [List.mem_range'_1]
    omega
  have hname := hall c.toNat (List.mem_flatMap.mpr ⟨(low, high), hrange, hmem⟩)
  rwa [Char.ofNat_toNat] at hname

/-- What a written instantiation or array has and a name has not. -/
theorem IsName.not_mem {name : String} (h : IsName name) (hc : isNameChar c = false) :
    c ∉ name.toList := by
  intro hmem
  rw [h.2 c hmem] at hc
  cases hc

theorem not_isName_instantiationName (definition : String) (args : List String) :
    ¬ IsName (Store.instantiationName definition args) := fun h =>
  h.not_mem (c := '<') (by decide +kernel) (by simp [Store.instantiationName])

theorem not_isName_arrayName (element : String) (rank : Nat) :
    ¬ IsName (Store.arrayName element rank) := fun h =>
  h.not_mem (c := '[') (by decide +kernel) (by simp [Store.arrayName])

theorem skipBlank_cons (h : isBlank c = false) : skipBlank (c :: text) = c :: text :=
  List.dropWhile_cons_of_neg (by simp [h])

theorem skipBlank_suffix (text : List Char) : skipBlank text <:+ text := List.dropWhile_suffix _

theorem eat?_cons (h : isBlank c = false) (token : Char) :
    eat? token (c :: text) = if c = token then some text else none := by
  rw [eat?, skipBlank_cons h]

/-- A token is eaten with the blanks before it. -/
theorem eat?_cons_suffix {token : Char} {rest : List Char} (h : eat? token text = some rest) :
    token :: rest <:+ text := by
  unfold eat? at h
  split at h
  · next first tail hskip =>
      split at h
      · next heq =>
          cases h
          exact heq ▸ hskip ▸ skipBlank_suffix text
      · cases h
  · cases h

theorem eat?_suffix {token : Char} {rest : List Char} (h : eat? token text = some rest) :
    rest <:+ text :=
  (List.suffix_cons token rest).trans (eat?_cons_suffix h)

end Characters

section Consuming

variable {α : Type} {text rest : List Char}

/-- The name is read where an end of the text begins. -/
def ReadFrom (text : List Char) (name : String) : Prop :=
  ∃ start after, start <:+ text ∧ readName start = .ok (name, after)

theorem ReadFrom.later {name : String} {text' : List Char} (h : ReadFrom text name)
    (htext : text <:+ text') : ReadFrom text' name := by
  obtain ⟨start, after, hstart, hread⟩ := h
  exact ⟨start, after, hstart.trans htext, hread⟩

/-- What a reading of a text has found: expressions whose names are names and are read from the text,
with ranks that the text has room for, before an end of the text. -/
structure Consumes (text : List Char) (exprs : List TypeExpr) (rest : List Char) : Prop where
  rest : rest <:+ text
  names : ∀ name ∈ allNames exprs, IsName name
  slices : ∀ name ∈ allNames exprs, ReadFrom text name
  ranks : ∀ rank ∈ allRanks exprs, 1 ≤ rank ∧ rank ≤ text.length

/-- A reading found what it gives, or the expressions that it completed before it stopped. -/
def Finds (text : List Char) (exprs : α → List TypeExpr) : Reading α → Prop
  | .ok (a, rest) => Consumes text (exprs a) rest
  | .error stop => Consumes text stop.complete stop.rest

theorem consumes_nil (h : rest <:+ text) : Consumes text [] rest :=
  ⟨h, by simp [allNames], by simp [allNames], by simp [allRanks]⟩

namespace Consumes

variable {exprs : List TypeExpr} {expr : TypeExpr} {name : String} {rest' text' : List Char}

theorem later (h : Consumes text exprs rest) (htext : text <:+ text') :
    Consumes text' exprs rest where
  rest := h.rest.trans htext
  names := h.names
  slices name hname := (h.slices name hname).later htext
  ranks rank hrank := ⟨(h.ranks rank hrank).1, (h.ranks rank hrank).2.trans htext.length_le⟩

theorem rest_of (h : Consumes text exprs rest) (hrest : rest' <:+ rest) :
    Consumes text exprs rest' :=
  { h with rest := hrest.trans h.rest }

theorem cons (h : Consumes text [expr] rest) (h' : Consumes text exprs rest') :
    Consumes text (expr :: exprs) rest' where
  rest := h'.rest
  names := List.forall_mem_append.mpr ⟨by simpa [allNames] using h.names, h'.names⟩
  slices := List.forall_mem_append.mpr ⟨by simpa [allNames] using h.slices, h'.slices⟩
  ranks := List.forall_mem_append.mpr ⟨by simpa [allRanks] using h.ranks, h'.ranks⟩

theorem named (hname : IsName name) (hslice : ReadFrom text name) (hrest : rest <:+ text) :
    Consumes text [.named name] rest :=
  ⟨hrest, by simpa [allNames, TypeExpr.names] using hname,
    by simpa [allNames, TypeExpr.names] using hslice, by simp [allRanks, TypeExpr.ranks]⟩

theorem apply (hname : IsName name) (hslice : ReadFrom text name)
    (h : Consumes text exprs rest) : Consumes text [.apply name exprs] rest :=
  ⟨h.rest, by simpa [allNames, TypeExpr.names] using ⟨hname, h.names⟩,
    by simpa [allNames, TypeExpr.names] using ⟨hslice, h.slices⟩,
    by simpa [allRanks, TypeExpr.ranks] using h.ranks⟩

theorem array (h : Consumes text [expr] rest) {rank : Nat} (hpositive : 1 ≤ rank)
    (hroom : rank ≤ text.length) : Consumes text [.array expr rank] rest :=
  ⟨h.rest, by simpa [allNames, TypeExpr.names] using h.names,
    by simpa [allNames, TypeExpr.names] using h.slices,
    by simpa [allRanks, TypeExpr.ranks] using
      ⟨⟨hpositive, hroom⟩, by simpa [allRanks] using h.ranks⟩⟩

end Consumes

theorem Finds.later {exprs : α → List TypeExpr} {reading : Reading α} {text' : List Char}
    (h : Finds text exprs reading) (htext : text <:+ text') : Finds text' exprs reading := by
  cases reading with
  | ok found => exact Consumes.later h htext
  | error stop => exact Consumes.later h htext

/-- A text begins with a name, after blanks, or reading one stops there. -/
theorem readName_cases (text : List Char) :
    (∃ name rest, readName text = .ok (name, rest) ∧ IsName name ∧ rest <:+ text) ∨
      ∃ rest, readName text = .error ⟨[], .typeName, rest⟩ ∧ rest <:+ text := by
  unfold readName
  dsimp only
  cases htake : (skipBlank text).takeWhile isNameChar with
  | nil => exact Or.inr ⟨_, rfl, skipBlank_suffix text⟩
  | cons c chars =>
      refine Or.inl ⟨String.ofList (c :: chars), _, rfl, ⟨by simp, fun d hd => ?_⟩,
        (List.dropWhile_suffix _).trans (skipBlank_suffix text)⟩
      rw [String.toList_ofList, ← htake] at hd
      exact List.mem_takeWhile_imp hd

/-- Where a name is read the text holds it, after blanks. -/
theorem skipBlank_of_readName {name : String} (h : readName text = .ok (name, rest)) :
    skipBlank text = name.toList ++ rest := by
  unfold readName at h
  dsimp only at h
  split at h
  · cases h
  · cases h
    rw [String.toList_ofList, List.takeWhile_append_dropWhile]

theorem readCommas_suffix (text : List Char) : (readCommas text).2 <:+ text := by
  induction text with
  | nil => exact List.suffix_rfl
  | cons c text ih =>
      unfold readCommas
      split
      · exact ih.trans (List.suffix_cons c text)
      · split
        · exact ih.trans (List.suffix_cons c text)
        · exact List.suffix_rfl

theorem readCommas_le (text : List Char) : (readCommas text).1 ≤ text.length := by
  induction text with
  | nil => exact Nat.le_refl _
  | cons c text ih =>
      unfold readCommas
      split
      · exact Nat.succ_le_succ ih
      · split
        · exact Nat.le_succ_of_le ih
        · exact Nat.zero_le _

theorem readRanks_finds (fuel : Nat) {expr : TypeExpr} (h : Consumes text [expr] rest) :
    Finds text (fun expr => [expr]) (readRanks fuel expr rest) := by
  induction fuel generalizing expr rest with
  | zero => exact h
  | succ fuel ih =>
      unfold readRanks
      split
      · exact h
      · next inner hopen =>
          dsimp only
          have hinner := (readCommas_suffix inner).trans (eat?_suffix hopen)
          split
          · next after hclose =>
              have hroom : (readCommas inner).1 + 1 ≤ text.length :=
                (Nat.succ_le_succ (readCommas_le inner)).trans
                  ((eat?_cons_suffix hopen).trans h.rest).length_le
              exact ih ((h.rest_of ((eat?_suffix hclose).trans hinner)).array
                (Nat.le_add_left 1 _) hroom)
          · exact h.rest_of ((skipBlank_suffix _).trans hinner)

theorem readArgs_finds {read : List Char → Reading TypeExpr}
    (hread : ∀ text, Finds text (fun expr => [expr]) (read text)) (fuel : Nat) (text : List Char) :
    Finds text id (readArgs read fuel text) := by
  induction fuel generalizing text with
  | zero => exact consumes_nil List.suffix_rfl
  | succ fuel ih =>
      have hfirst := hread text
      unfold readArgs
      generalize read text = first at hfirst
      cases first with
      | error stop => exact hfirst
      | ok found =>
          obtain ⟨arg, rest⟩ := found
          dsimp only
          split
          · exact hfirst
          · next after hcomma =>
              have hafter := (ih after).later ((eat?_suffix hcomma).trans hfirst.rest)
              generalize readArgs read fuel after = others at hafter
              cases others with
              | error stop => exact Consumes.cons hfirst hafter
              | ok found => exact Consumes.cons hfirst hafter

theorem readType_finds (fuel : Nat) (text : List Char) :
    Finds text (fun expr => [expr]) (readType fuel text) := by
  induction fuel generalizing text with
  | zero => exact consumes_nil List.suffix_rfl
  | succ fuel ih =>
      unfold readType
      rcases readName_cases text with
        ⟨name, rest, hread, hname, hrest⟩ | ⟨rest, hread, hrest⟩
      · have hslice : ReadFrom text name := ⟨text, rest, List.suffix_rfl, hread⟩
        rw [hread]
        dsimp only
        split
        · exact readRanks_finds fuel (.named hname hslice hrest)
        · next inner hopen =>
            have hargs := (readArgs_finds ih fuel inner).later ((eat?_suffix hopen).trans hrest)
            generalize readArgs (readType fuel) fuel inner = args at hargs
            cases args with
            | error stop => exact hargs
            | ok found =>
                obtain ⟨args, after⟩ := found
                dsimp only
                split
                · next last hclose =>
                    exact readRanks_finds fuel
                      (.apply hname hslice (Consumes.rest_of hargs (eat?_suffix hclose)))
                · exact hargs.rest_of (skipBlank_suffix after)
      · rw [hread]
        exact consumes_nil hrest

theorem read_cases (text : List Char) :
    (∃ expr, read text = .ok expr ∧ Consumes text [expr] []) ∨
      ∃ stop, read text = .error stop ∧ Consumes text stop.complete stop.rest := by
  have hfinds := readType_finds text.length.succ text
  unfold read
  generalize readType text.length.succ text = reading at hfinds
  cases reading with
  | error stop => exact Or.inr ⟨stop, rfl, hfinds⟩
  | ok found =>
      obtain ⟨expr, rest⟩ := found
      dsimp only
      split
      · exact Or.inl ⟨expr, rfl, Consumes.rest_of hfinds List.nil_suffix⟩
      · exact Or.inr ⟨_, rfl, hfinds.rest_of (skipBlank_suffix rest)⟩

/-- The names of an expression that was read are names. -/
theorem isName_of_read {expr : TypeExpr} (h : read text = .ok expr) :
    ∀ name ∈ expr.names, IsName name := by
  rcases read_cases text with ⟨found, hread, hconsumes⟩ | ⟨stop, hread, -⟩ <;> rw [h] at hread
  · cases hread
    simpa [allNames] using hconsumes.names
  · cases hread

/-- So are those of the expressions that were completed before a text stopped being an expression,
and what stands there is an end of the text. -/
theorem consumes_of_read {stop : Stop} (h : read text = .error stop) :
    Consumes text stop.complete stop.rest := by
  rcases read_cases text with ⟨expr, hread, -⟩ | ⟨found, hread, hconsumes⟩ <;> rw [h] at hread
  · cases hread
  · cases hread
    exact hconsumes

end Consuming

section Writing

mutual

/-- The written form of an expression. -/
def write : TypeExpr → List Char
  | .named name => name.toList
  | .apply name args => name.toList ++ '<' :: (writeAll args ++ ['>'])
  | .array element rank => element.write ++ '[' :: (List.replicate (rank - 1) ',' ++ [']'])

/-- The written form of some expressions. -/
def writeAll : List TypeExpr → List Char
  | [] => []
  | [expr] => expr.write
  | expr :: next :: rest => expr.write ++ ',' :: ' ' :: writeAll (next :: rest)

end

mutual

/-- The expression has names, arguments and ranks such that it can be read. -/
def Writable : TypeExpr → Prop
  | .named name => IsName name
  | .apply name args => IsName name ∧ args ≠ [] ∧ AllWritable args
  | .array element rank => element.Writable ∧ 1 ≤ rank

/-- The expressions can be read. -/
def AllWritable : List TypeExpr → Prop
  | [] => True
  | expr :: rest => expr.Writable ∧ AllWritable rest

end

/-- What may follow a written expression. -/
def Delimited (rest : List Char) : Prop :=
  ∀ c ∈ rest.head?, c = '[' ∨ c = ',' ∨ c = '>'

variable {name : String} {rest : List Char}

theorem IsName.not_isBlank (h : IsName name) {c : Char} (hc : c ∈ name.toList) :
    isBlank c = false := by
  refine Bool.eq_false_iff.mpr fun hblank => ?_
  have hname := not_isNameChar_of_isBlank hblank
  rw [h.2 c hc] at hname
  cases hname

/-- A name before something that is no name character is read. -/
theorem readName_append (h : IsName name) (hrest : ∀ c ∈ rest.head?, isNameChar c = false) :
    readName (name.toList ++ rest) = .ok (name, rest) := by
  have hskip : skipBlank (name.toList ++ rest) = name.toList ++ rest := by
    cases hname : name.toList with
    | nil => exact absurd hname h.1
    | cons c chars => exact skipBlank_cons (h.not_isBlank (hname ▸ List.mem_cons_self))
  have htake : rest.takeWhile isNameChar = [] ∧ rest.dropWhile isNameChar = rest := by
    cases rest with
    | nil => exact ⟨rfl, rfl⟩
    | cons c chars =>
        have hc := hrest c rfl
        simp [hc]
  unfold readName
  dsimp only
  rw [hskip, List.takeWhile_append_of_pos h.2, List.dropWhile_append_of_pos h.2, htake.1, htake.2,
    List.append_nil]
  split
  · next hnil => exact absurd hnil h.1
  · rw [String.ofList_toList]

theorem not_isNameChar_of_delimited (h : Delimited rest) :
    ∀ c ∈ rest.head?, isNameChar c = false := by
  intro c hc
  rcases h c hc with rfl | rfl | rfl <;> decide +kernel

/-- Reading a type begins at the first character that is not blank. -/
theorem readType_blank (fuel : Nat) (text : List Char) :
    readType fuel.succ (' ' :: text) = readType fuel.succ text := by
  have hskip : skipBlank (' ' :: text) = skipBlank text :=
    List.dropWhile_cons_of_pos (by decide)
  unfold readType readName
  rw [hskip]

theorem readCommas_replicate (count : Nat) (rest : List Char) :
    readCommas (List.replicate count ',' ++ ']' :: rest) = (count, ']' :: rest) := by
  induction count with
  | zero => rfl
  | succ count ih =>
      rw [List.replicate_succ, List.cons_append, readCommas, if_pos rfl, ih]

/-- A written rank is read. -/
theorem readRanks_array (fuel : Nat) {expr : TypeExpr} {rank : Nat} (hrank : 1 ≤ rank) :
    readRanks fuel.succ expr ('[' :: (List.replicate (rank - 1) ',' ++ ']' :: rest)) =
      readRanks fuel (.array expr rank) rest := by
  have hopen : eat? '[' ('[' :: (List.replicate (rank - 1) ',' ++ ']' :: rest)) =
      some (List.replicate (rank - 1) ',' ++ ']' :: rest) := by
    rw [eat?_cons (by decide), if_pos rfl]
  have hclose : eat? ']' (']' :: rest) = some rest := by rw [eat?_cons (by decide), if_pos rfl]
  rw [readRanks, hopen]
  dsimp only
  rw [readCommas_replicate]
  dsimp only
  rw [hclose, Nat.sub_add_cancel hrank]

/-- No rank is read where none is written. -/
theorem readRanks_end (fuel : Nat) {expr : TypeExpr}
    (h : ∀ c ∈ rest.head?, c = ',' ∨ c = '>') : readRanks fuel expr rest = .ok (expr, rest) := by
  cases fuel with
  | zero => rfl
  | succ fuel =>
      have hnone : eat? '[' rest = none := by
        cases rest with
        | nil => rfl
        | cons c chars =>
            rcases h c rfl with rfl | rfl
            · exact (eat?_cons (by decide) '[').trans (if_neg (by decide))
            · exact (eat?_cons (by decide) '[').trans (if_neg (by decide))
      rw [readRanks, hnone]

theorem eat?_eq_none {token : Char} {rest : List Char}
    (h : ∀ c ∈ rest.head?, isBlank c = false ∧ c ≠ token) : eat? token rest = none := by
  cases rest with
  | nil => rfl
  | cons c chars =>
      obtain ⟨hblank, hne⟩ := h c rfl
      rw [eat?_cons hblank, if_neg hne]

/-- Blanks before the arguments are skipped. -/
theorem readArgs_blank (fuel count : Nat) (text : List Char) :
    readArgs (readType fuel.succ) count.succ (' ' :: text) =
      readArgs (readType fuel.succ) count.succ text := by
  rw [readArgs, readArgs, readType_blank]

mutual

/-- Reading a written expression comes to where further ranks would be read. -/
theorem readType_write : (expr : TypeExpr) → expr.Writable → ∀ (fuel : Nat) (rest : List Char),
    Delimited rest → (expr.write ++ rest).length ≤ fuel.succ →
      ∃ fuel', rest.length ≤ fuel' ∧
        readType fuel.succ (expr.write ++ rest) = readRanks fuel' expr rest
  | .named name, hname, fuel, rest, hrest, hlength => by
      rw [Writable] at hname
      have hnone : eat? '<' rest = none := eat?_eq_none fun c hc => by
        rcases hrest c hc with rfl | rfl | rfl <;> exact ⟨by decide, by decide⟩
      rw [write, List.length_append] at hlength
      have hpos := List.length_pos_iff.mpr hname.1
      refine ⟨fuel, by omega, ?_⟩
      rw [readType, write, readName_append hname (not_isNameChar_of_delimited hrest)]
      dsimp only
      rw [hnone]
  | .apply name args, hwritable, fuel, rest, _, hlength => by
      obtain ⟨hname, hne, hargs⟩ := (Writable.eq_2 name args).mp hwritable
      have hwrite : (TypeExpr.apply name args).write ++ rest =
          name.toList ++ '<' :: (writeAll args ++ '>' :: rest) := by
        simp [write]
      rw [hwrite, List.length_append, List.length_cons] at hlength
      have hpos := List.length_pos_iff.mpr hname.1
      rw [hwrite, readType, readName_append hname (by rintro c ⟨⟩; decide +kernel)]
      dsimp only
      rw [eat?_cons (by decide), if_pos rfl]
      dsimp only
      rw [readArgs_writeAll args hne hargs fuel fuel rest (by omega) (by omega)]
      dsimp only
      rw [eat?_cons (by decide), if_pos rfl]
      rw [List.length_append, List.length_cons] at hlength
      exact ⟨fuel, by omega, rfl⟩
  | .array element rank, hwritable, fuel, rest, _, hlength => by
      obtain ⟨helement, hrank⟩ := (Writable.eq_3 element rank).mp hwritable
      have hwrite : (TypeExpr.array element rank).write ++ rest =
          element.write ++ '[' :: (List.replicate (rank - 1) ',' ++ ']' :: rest) := by
        simp [write]
      rw [hwrite] at hlength ⊢
      obtain ⟨fuel', hfuel, hread⟩ := readType_write element helement fuel _
        (by rintro c ⟨⟩; exact Or.inl rfl) hlength
      simp only [List.length_cons, List.length_append] at hfuel
      obtain ⟨last, rfl⟩ : ∃ last, fuel' = last + 1 := ⟨fuel' - 1, by omega⟩
      exact ⟨last, by omega, hread.trans (readRanks_array last hrank)⟩

/-- Written arguments are read. -/
theorem readArgs_writeAll : (exprs : List TypeExpr) → exprs ≠ [] → AllWritable exprs →
    ∀ (fuel count : Nat) (rest : List Char), (writeAll exprs ++ '>' :: rest).length ≤ fuel →
      (writeAll exprs ++ '>' :: rest).length ≤ count →
        readArgs (readType fuel) count (writeAll exprs ++ '>' :: rest) = .ok (exprs, '>' :: rest)
  | [], hne, _, _, _, _, _, _ => absurd rfl hne
  | [expr], _, hwritable, fuel, count, rest, hfuel, hcount => by
      obtain ⟨hexpr, -⟩ := (AllWritable.eq_2 expr []).mp hwritable
      rw [writeAll] at hfuel hcount ⊢
      rw [List.length_append, List.length_cons] at hcount
      obtain ⟨fuel, rfl⟩ : ∃ fuel', fuel = fuel' + 1 :=
        ⟨fuel - 1, by rw [List.length_append, List.length_cons] at hfuel; omega⟩
      obtain ⟨count, rfl⟩ : ∃ count', count = count' + 1 := ⟨count - 1, by omega⟩
      obtain ⟨fuel', -, hread⟩ := readType_write expr hexpr fuel ('>' :: rest)
        (by rintro c ⟨⟩; exact Or.inr (Or.inr rfl)) hfuel
      rw [readArgs, hread, readRanks_end fuel' (by rintro c ⟨⟩; exact Or.inr rfl)]
      dsimp only
      rw [eat?_cons (by decide), if_neg (by decide)]
  | expr :: next :: exprs, _, hwritable, fuel, count, rest, hfuel, hcount => by
      obtain ⟨hexpr, hexprs⟩ := (AllWritable.eq_2 expr (next :: exprs)).mp hwritable
      have hwrite : writeAll (expr :: next :: exprs) ++ '>' :: rest =
          expr.write ++ ',' :: ' ' :: (writeAll (next :: exprs) ++ '>' :: rest) := by
        simp [writeAll]
      rw [hwrite] at hfuel hcount ⊢
      have hlengths : ∀ {n}, (expr.write ++ ',' :: ' ' ::
          (writeAll (next :: exprs) ++ '>' :: rest)).length ≤ n →
            (writeAll (next :: exprs) ++ '>' :: rest).length + 2 ≤ n := by
        intro n hn
        rw [List.length_append, List.length_cons, List.length_cons] at hn
        omega
      obtain ⟨fuel, rfl⟩ : ∃ fuel', fuel = fuel' + 1 := ⟨fuel - 1, by have := hlengths hfuel; omega⟩
      obtain ⟨count, rfl⟩ : ∃ count', count = count' + 2 :=
        ⟨count - 2, by have := hlengths hcount; omega⟩
      obtain ⟨fuel', -, hread⟩ := readType_write expr hexpr fuel _
        (by rintro c ⟨⟩; exact Or.inr (Or.inl rfl)) hfuel
      rw [readArgs, hread, readRanks_end fuel' (by rintro c ⟨⟩; exact Or.inl rfl)]
      dsimp only
      rw [eat?_cons (by decide), if_pos rfl]
      dsimp only
      rw [readArgs_blank, readArgs_writeAll (next :: exprs) (by simp) hexprs (fuel + 1) (count + 1)
        rest (by have := hlengths hfuel; omega) (by have := hlengths hcount; omega)]

end

/-- Reading undoes writing. -/
theorem read_write {expr : TypeExpr} (h : expr.Writable) : read expr.write = .ok expr := by
  obtain ⟨fuel, -, hread⟩ := readType_write expr h expr.write.length []
    (by rintro c ⟨⟩) (by simp)
  rw [List.append_nil] at hread
  rw [read, hread, readRanks_end fuel (by rintro c ⟨⟩)]
  rfl

end Writing

end TypeExpr

end NominalGenerics
