import NominalGenerics.Text.Alphanumeric
import NominalGenerics.Text.Blank
import NominalGenerics.TypeExpr.Basic

/-!
# Reading type expressions

    Type ::= Name ('<' Type (',' Type)* '>')? ('[' ','* ']')*

A name is a longest run of name characters, and blanks may stand before every token and at the end.

A text is read from left to right and its parts get their meaning as soon as they are complete. So
where a text stops being a type expression, the parts completed before that point are interned all
the same, and an error in one of them comes first. A failed reading therefore keeps the expressions
that it completed.
-/

namespace NominalGenerics

namespace TypeExpr

open Text

/-- A reading that stopped: the expressions completed so far and not yet part of a larger one, what
was missing, and the text from there on. -/
structure Stop where
  complete : List TypeExpr
  expected : Expectation
  rest : List Char
  deriving Repr

/-- A reading of a thing at the front of a text, with the text that follows it. -/
abbrev Reading (α : Type) := Except Stop (α × List Char)

/-- Characters of type names. -/
def isNameChar (c : Char) : Bool :=
  isAlphanumeric c || c == '_' || c == '.' || c == '*'

/-- The text after a token, which blanks may precede. -/
def eat? (token : Char) (text : List Char) : Option (List Char) :=
  match skipBlank text with
  | c :: rest => if c = token then some rest else none
  | [] => none

/-- Reads a name. -/
def readName (text : List Char) : Reading String :=
  let text := skipBlank text
  match text.takeWhile isNameChar with
  | [] => .error ⟨[], .typeName, text⟩
  | name => .ok (String.ofList name, text.dropWhile isNameChar)

/-- Counts the commas at the front of a text. -/
def readCommas : List Char → Nat × List Char
  | [] => (0, [])
  | c :: rest =>
      if c = ',' then
        let (count, rest) := readCommas rest
        (count + 1, rest)
      else if isBlank c then
        readCommas rest
      else
        (0, c :: rest)

/-- Reads the ranks that follow an expression. Each takes two characters or more, so the length of
the text is fuel enough here and in the readers below. -/
def readRanks : Nat → TypeExpr → List Char → Reading TypeExpr
  | 0, expr, text => .ok (expr, text)
  | fuel + 1, expr, text =>
      match eat? '[' text with
      | none => .ok (expr, text)
      | some text =>
          let (commas, text) := readCommas text
          match eat? ']' text with
          | some text => readRanks fuel (.array expr (commas + 1)) text
          | none => .error ⟨[expr], .char ']', skipBlank text⟩

/-- Reads one or more expressions divided by commas. `read` reads one of them. -/
def readArgs (read : List Char → Reading TypeExpr) :
    Nat → List Char → Reading (List TypeExpr)
  | 0, text => .error ⟨[], .typeName, text⟩
  | fuel + 1, text =>
      match read text with
      | .error stop => .error stop
      | .ok (arg, text) =>
          match eat? ',' text with
          | none => .ok ([arg], text)
          | some text =>
              match readArgs read fuel text with
              | .error stop => .error { stop with complete := arg :: stop.complete }
              | .ok (args, text) => .ok (arg :: args, text)

/-- Reads an expression. -/
def readType : Nat → List Char → Reading TypeExpr
  | 0, text => .error ⟨[], .typeName, text⟩
  | fuel + 1, text =>
      match readName text with
      | .error stop => .error stop
      | .ok (name, text) =>
          match eat? '<' text with
          | none => readRanks fuel (.named name) text
          | some text =>
              match readArgs (readType fuel) fuel text with
              | .error stop => .error stop
              | .ok (args, text) =>
                  match eat? '>' text with
                  | some text => readRanks fuel (.apply name args) text
                  | none => .error ⟨args, .char '>', skipBlank text⟩

/-- Reads a whole text as an expression. -/
def read (text : List Char) : Except Stop TypeExpr :=
  match readType text.length.succ text with
  | .error stop => .error stop
  | .ok (expr, text) =>
      match skipBlank text with
      | [] => .ok expr
      | rest => .error ⟨[expr], .endOfText, rest⟩

end TypeExpr

/-- The type that a text names. -/
def parseType (scope : Scope) (text : String) : TypeExprM Handle :=
  match TypeExpr.read text.toList with
  | .ok expr => expr.intern scope
  | .error stop => do
      discard <| TypeExpr.internAll scope stop.complete
      throw (.malformed text stop.expected (String.ofList stop.rest))

end NominalGenerics
