import NominalGenerics.Json.Basic

/-!
# Reading JSON

The reader accepts exactly the JSON grammar: blanks between tokens, no comments, no trailing commas
and nothing after the document. A string may hold escapes of any 16-bit unit; two units that form a
surrogate pair are one character.
-/

namespace NominalGenerics.Json

/-- Blanks between tokens. -/
def isSpace (c : Char) : Bool := c == ' ' || c == '\t' || c == '\n' || c == '\r'

/-- The text from its next token on. -/
def skipSpace (text : List Char) : List Char := text.dropWhile isSpace

/-- The text after a word. -/
def afterWord? : (word text : List Char) → Option (List Char)
  | [], text => some text
  | c :: word, d :: text => if c = d then afterWord? word text else none
  | _ :: _, [] => none

/-- The text after one or more digits. -/
def afterDigits? : List Char → Option (List Char)
  | [] => none
  | c :: text => if c.isDigit then some (text.dropWhile Char.isDigit) else none

/-- The text after the digits of a whole number, which has no leading zero. -/
def afterWhole? : List Char → Option (List Char)
  | '0' :: text => some text
  | text => afterDigits? text

/-- The text after a fraction, if there is one. -/
def afterFraction? : List Char → Option (List Char)
  | '.' :: text => afterDigits? text
  | text => some text

/-- The text after an exponent, if there is one. -/
def afterExponent? : List Char → Option (List Char)
  | c :: text =>
      if c = 'e' ∨ c = 'E' then
        match text with
        | '+' :: digits | '-' :: digits => afterDigits? digits
        | digits => afterDigits? digits
      else
        some (c :: text)
  | [] => some []

/-- The text after a number. -/
def afterNumber? (text : List Char) : Option (List Char) := do
  let text := match text with
    | '-' :: text => text
    | text => text
  afterExponent? (← afterFraction? (← afterWhole? text))

/-- The value of a hexadecimal digit. -/
def hexDigit? (c : Char) : Option Nat :=
  if c.isDigit then some (c.toNat - '0'.toNat)
  else if 'a' ≤ c ∧ c ≤ 'f' then some (c.toNat - 'a'.toNat + 10)
  else if 'A' ≤ c ∧ c ≤ 'F' then some (c.toNat - 'A'.toNat + 10)
  else none

/-- The value of four hexadecimal digits. -/
def hexUnit? (a b c d : Char) : Option Nat := do
  return (((← hexDigit? a) * 16 + (← hexDigit? b)) * 16 + (← hexDigit? c)) * 16 + (← hexDigit? d)

/-- The character that a one-letter escape stands for. -/
def escape? : Char → Option Char
  | '"' => some '"'
  | '\\' => some '\\'
  | '/' => some '/'
  | 'b' => some '\x08'
  | 'f' => some '\x0c'
  | 'n' => some '\n'
  | 'r' => some '\r'
  | 't' => some '\t'
  | _ => none

/-- A part of a string: a character, or a 16-bit unit given by its number. -/
inductive Piece where
  | char (c : Char)
  | unit (code : Nat)
  deriving DecidableEq, Repr

/-- Reads the pieces of a string up to its closing quote. Control characters must be escaped. -/
def readPieces : List Char → Option (List Piece × List Char)
  | [] => none
  | '"' :: text => some ([], text)
  | '\\' :: 'u' :: a :: b :: c :: d :: text => do
      let code ← hexUnit? a b c d
      let (pieces, text) ← readPieces text
      return (.unit code :: pieces, text)
  | '\\' :: c :: text => do
      let c ← escape? c
      let (pieces, text) ← readPieces text
      return (.char c :: pieces, text)
  | c :: text => do
      if c.toNat < 0x20 then
        none
      else
        let (pieces, text) ← readPieces text
        return (.char c :: pieces, text)

/-- The characters of a string, if its surrogates come in pairs. -/
def joinPieces? : List Piece → Option (List Char)
  | [] => some []
  | .char c :: pieces => (joinPieces? pieces).map (c :: ·)
  | .unit high :: .unit low :: pieces =>
      if 0xd800 ≤ high ∧ high < 0xdc00 then
        if 0xdc00 ≤ low ∧ low < 0xe000 then
          (joinPieces? pieces).map
            (Char.ofNat (0x10000 + (high - 0xd800) * 0x400 + (low - 0xdc00)) :: ·)
        else
          none
      else if 0xdc00 ≤ high ∧ high < 0xe000 then
        none
      else
        (joinPieces? (.unit low :: pieces)).map (Char.ofNat high :: ·)
  | .unit code :: pieces =>
      if 0xd800 ≤ code ∧ code < 0xe000 then none
      else (joinPieces? pieces).map (Char.ofNat code :: ·)

/-- Reads a string after its opening quote. -/
def readString (text : List Char) : Option (Option String × List Char) := do
  let (pieces, text) ← readPieces text
  return ((joinPieces? pieces).map String.ofList, text)

/-- Reads the items of an array up to its closing bracket. `read` reads a document. -/
def readItems (read : List Char → Option (Json × List Char)) :
    Nat → List Char → Option (List Json × List Char)
  | 0, _ => none
  | fuel + 1, text => do
      let (item, text) ← read text
      match skipSpace text with
      | ',' :: text =>
          let (items, text) ← readItems read fuel text
          return (item :: items, text)
      | ']' :: text => return ([item], text)
      | _ => none

/-- Reads the members of an object up to its closing brace. `read` reads a document. -/
def readMembers (read : List Char → Option (Json × List Char)) :
    Nat → List Char → Option (List (Option String × Json) × List Char)
  | 0, _ => none
  | fuel + 1, text => do
      match skipSpace text with
      | '"' :: text =>
          let (key, text) ← readString text
          match skipSpace text with
          | ':' :: text =>
              let (value, text) ← read text
              match skipSpace text with
              | ',' :: text =>
                  let (members, text) ← readMembers read fuel text
                  return ((key, value) :: members, text)
              | '}' :: text => return ([(key, value)], text)
              | _ => none
          | _ => none
      | _ => none

/-- Reads a document at the front of a text. A document inside another one starts later, so the
length of the text is fuel enough. -/
def readValue : Nat → List Char → Option (Json × List Char)
  | 0, _ => none
  | fuel + 1, text =>
      match skipSpace text with
      | '"' :: text => (readString text).map fun (value, text) => (.string value, text)
      | '[' :: text =>
          match skipSpace text with
          | ']' :: text => some (.array [], text)
          | text => (readItems (readValue fuel) fuel text).map fun (items, text) =>
              (.array items, text)
      | '{' :: text =>
          match skipSpace text with
          | '}' :: text => some (.object [], text)
          | text => (readMembers (readValue fuel) fuel text).map fun (members, text) =>
              (.object members, text)
      | 'n' :: text => (afterWord? "ull".toList text).map fun text => (.null, text)
      | 't' :: text => (afterWord? "rue".toList text).map fun text => (.bool true, text)
      | 'f' :: text => (afterWord? "alse".toList text).map fun text => (.bool false, text)
      | text => (afterNumber? text).map fun text => (.number, text)

/-- Reads a whole text as a document. -/
def parse? (text : String) : Option Json := do
  let text := text.toList
  let (document, rest) ← readValue text.length.succ text
  if (skipSpace rest).isEmpty then some document else none

end NominalGenerics.Json
