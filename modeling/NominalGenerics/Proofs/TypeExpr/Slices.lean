import Mathlib.Data.String.Basic
import NominalGenerics.Proofs.Computation
import NominalGenerics.Proofs.TypeExpr.Reading

/-!
# Where a text is cut

Reading keeps to ends of the text, and an end of a text begins between two characters. So a text can
be cut at every offset, counted in bytes, at which a name begins or ends and which an error message
names. `cutBetweenCharacters` states it for all texts.
-/

namespace NominalGenerics

namespace TypeExpr

open Text

/-- What a text holds between two offsets, both of which are between two characters. -/
structure IsSlice (text : String) (low high : String.Pos.Raw) (slice : String) : Prop where
  start : low.IsValid text
  stop : high.IsValid text
  le : low ≤ high
  extract : low.extract text high = slice
  append : ∃ before after, text = before ++ slice ++ after

/-- The offset at which an end of the text begins. -/
def offset (text : String) (rest : List Char) : String.Pos.Raw :=
  ⟨text.utf8ByteSize - (String.ofList rest).utf8ByteSize⟩

section Slices

variable {text name : String} {rest after slice : List Char}

theorem isSlice_append (before slice after : List Char) :
    IsSlice (String.ofList (before ++ slice ++ after)) ⟨String.utf8Len before⟩
      ⟨String.utf8Len before + String.utf8Len slice⟩ (String.ofList slice) where
  start := by
    refine String.Pos.Raw.isValid_iff_exists_append.mpr
      ⟨String.ofList before, String.ofList (slice ++ after), ?_, ?_⟩
    · rw [← String.ofList_append, List.append_assoc]
    · rw [String.rawEndPos_ofList]
  stop := by
    refine String.Pos.Raw.isValid_iff_exists_append.mpr
      ⟨String.ofList (before ++ slice), String.ofList after, String.ofList_append, ?_⟩
    rw [String.rawEndPos_ofList, String.utf8Len_append]
  le := Nat.le_add_right _ _
  extract := String.extract_of_valid before slice after
  append := ⟨String.ofList before, String.ofList after, by
    rw [String.ofList_append, String.ofList_append]⟩

/-- What stands at the front of an end of the text. -/
theorem isSlice_of_suffix (h : slice ++ after <:+ text.toList) :
    IsSlice text (offset text (slice ++ after)) (offset text after) (String.ofList slice) := by
  obtain ⟨before, hbefore⟩ := h
  obtain rfl : text = String.ofList (before ++ slice ++ after) := by
    rw [List.append_assoc, hbefore, String.ofList_toList]
  have hstart : offset (String.ofList (before ++ slice ++ after)) (slice ++ after) =
      ⟨String.utf8Len before⟩ := by
    simp only [offset, String.utf8ByteSize_ofList, String.utf8Len_append]
    exact congrArg String.Pos.Raw.mk (by omega)
  have hstop : offset (String.ofList (before ++ slice ++ after)) after =
      ⟨String.utf8Len before + String.utf8Len slice⟩ := by
    simp only [offset, String.utf8ByteSize_ofList, String.utf8Len_append]
    exact congrArg String.Pos.Raw.mk (by omega)
  rw [hstart, hstop]
  exact isSlice_append before slice after

/-- A name is what the text holds from where the blanks end to where the name does. -/
theorem isSlice_of_readName (hrest : rest <:+ text.toList)
    (hread : readName rest = .ok (name, after)) :
    IsSlice text (offset text (skipBlank rest)) (offset text after) name := by
  have hskip := skipBlank_of_readName hread
  have hslice := isSlice_of_suffix (hskip ▸ (skipBlank_suffix rest).trans hrest)
  rwa [String.ofList_toList, ← hskip] at hslice

/-- An end of the text is what the text holds from there on. -/
theorem isSlice_rest (hrest : rest <:+ text.toList) :
    IsSlice text (offset text rest) text.rawEndPos (String.ofList rest) := by
  have hslice : IsSlice text (offset text (rest ++ [])) (offset text []) (String.ofList rest) :=
    isSlice_of_suffix (by rwa [List.append_nil])
  rw [List.append_nil] at hslice
  exact hslice

theorem length_le_utf8ByteSize (chars : List Char) :
    chars.length ≤ (String.ofList chars).utf8ByteSize := by
  induction chars with
  | nil => exact Nat.zero_le _
  | cons c chars ih =>
      have hpos := c.utf8Size_pos
      rw [String.ofList_cons, String.utf8ByteSize_append, String.utf8ByteSize_singleton,
        List.length_cons]
      omega

end Slices

section Errors

variable {α β : Type}

/-- No error of the computation is about the text rather than about a name in it. -/
def BlamesNames (x : TypeExprM α) : Prop :=
  ∀ s source expected rest s',
    x.run.run s ≠ .ok (.error (.malformed source expected rest), s')

theorem blamesNames_pure (a : α) : BlamesNames (pure a : TypeExprM α) :=
  fun _ _ _ _ _ hrun => nomatch hrun

theorem blamesNames_lift (x : StoreM α) : BlamesNames (liftM x : TypeExprM α) := by
  intro s source expected rest s' hrun
  rw [run_liftM] at hrun
  obtain ⟨_, _, -, hrun⟩ := run_bind_eq_ok.mp hrun
  cases hrun

theorem blamesNames_throw {error : TypeExprError}
    (h : ∀ source expected rest, error ≠ .malformed source expected rest) :
    BlamesNames (throw error : TypeExprM α) := by
  intro s source expected rest s' hrun
  cases hrun
  exact h _ _ _ rfl

theorem BlamesNames.bind {x : TypeExprM α} {f : α → TypeExprM β} (hx : BlamesNames x)
    (hf : ∀ a, BlamesNames (f a)) : BlamesNames (x >>= f) := by
  intro s source expected rest s' hrun
  rw [ExceptT.run_bind] at hrun
  obtain ⟨outcome, mid, hfirst, hrun⟩ := run_bind_eq_ok.mp hrun
  cases outcome with
  | ok a => exact hf a _ _ _ _ _ hrun
  | error error =>
      cases hrun
      exact hx _ _ _ _ _ hfirst

theorem resolve_blamesNames (scope : Scope) (name : String) : BlamesNames (resolve scope name) := by
  unfold resolve
  split
  · exact blamesNames_pure _
  · refine BlamesNames.bind (blamesNames_lift get) fun store => ?_
    split
    · exact blamesNames_pure _
    · exact blamesNames_throw (by simp)

theorem instantiate_blamesNames (scope : Scope) (name : String) (args : List Handle) :
    BlamesNames (instantiate scope name args) := by
  refine (resolve_blamesNames scope name).bind fun definition =>
    BlamesNames.bind (blamesNames_lift get) fun store =>
      BlamesNames.bind (blamesNames_lift _) fun found => ?_
  split
  · refine BlamesNames.bind (blamesNames_lift _) fun params => ?_
    dsimp only
    split
    · exact blamesNames_lift _
    · exact blamesNames_throw (by simp)
  · exact blamesNames_throw (by simp)

mutual

theorem intern_blamesNames (scope : Scope) : (expr : TypeExpr) → BlamesNames (expr.intern scope)
  | .named name => by
      rw [intern]
      exact resolve_blamesNames scope name
  | .apply name args => by
      rw [intern]
      exact (internAll_blamesNames scope args).bind fun types =>
        instantiate_blamesNames scope name types
  | .array element rank => by
      rw [intern]
      exact (intern_blamesNames scope element).bind fun type => blamesNames_lift _

theorem internAll_blamesNames (scope : Scope) :
    (exprs : List TypeExpr) → BlamesNames (internAll scope exprs)
  | [] => by
      rw [internAll]
      exact blamesNames_pure _
  | expr :: rest => by
      rw [internAll]
      exact (intern_blamesNames scope expr).bind fun type =>
        (internAll_blamesNames scope rest).bind fun types => blamesNames_pure _

end

/-- An error about the text says where reading it stopped, and why. -/
theorem stop_of_malformed {scope : Scope} {text source rest : String} {expected : Expectation}
    {s s' : Store}
    (h : (parseType scope text).run.run s = .ok (.error (.malformed source expected rest), s')) :
    ∃ stop, read text.toList = .error stop ∧ source = text ∧ expected = stop.expected ∧
      rest = String.ofList stop.rest := by
  unfold parseType at h
  split at h
  · exact absurd h (intern_blamesNames scope _ _ _ _ _ _)
  · next stop hread =>
      rw [ExceptT.run_bind] at h
      obtain ⟨outcome, mid, hfirst, h⟩ := run_bind_eq_ok.mp h
      cases outcome with
      | ok types =>
          cases h
          exact ⟨stop, hread, rfl, rfl, rfl⟩
      | error error =>
          cases h
          have hblames : BlamesNames (discard (internAll scope stop.complete)) :=
            (internAll_blamesNames scope stop.complete).bind fun _ => blamesNames_pure _
          exact absurd hfirst (hblames _ _ _ _ _)

end Errors

/-- The expressions that a text holds, up to where it stops being a type expression, and what stands
there. -/
def found (text : List Char) : List TypeExpr × List Char :=
  match read text with
  | .ok expr => ([expr], [])
  | .error stop => (stop.complete, stop.rest)

theorem consumes_found (text : List Char) : Consumes text (found text).1 (found text).2 := by
  unfold found
  rcases read_cases text with ⟨expr, hread, hconsumes⟩ | ⟨stop, hread, hconsumes⟩ <;> rw [hread] <;>
    exact hconsumes

/-- Reading a text as a type cuts it between two characters only: where reading stops, where a name
begins and ends, and at the offset of an error message, which may quote the rest of the text. -/
structure CutBetweenCharacters (text : String) : Prop where
  stop : (offset text (found text.toList).2).IsValid text
  name : ∀ {rest after name}, rest <:+ text.toList → readName rest = .ok (name, after) →
    IsSlice text (offset text (skipBlank rest)) (offset text after) name
  found : ∀ name ∈ allNames (found text.toList).1, ReadFrom text.toList name
  error : ∀ {scope s source expected rest s'},
    (parseType scope text).run.run s = .ok (.error (.malformed source expected rest), s') →
      source = text ∧ IsSlice text ⟨text.utf8ByteSize - rest.utf8ByteSize⟩ text.rawEndPos rest

theorem cutBetweenCharacters (text : String) : CutBetweenCharacters text where
  stop := (isSlice_rest (consumes_found text.toList).rest).start
  name := isSlice_of_readName
  found := (consumes_found text.toList).slices
  error h := by
    obtain ⟨stop, hread, rfl, -, rfl⟩ := stop_of_malformed h
    exact ⟨rfl, isSlice_rest (consumes_of_read hread).rest⟩

end TypeExpr

end NominalGenerics
