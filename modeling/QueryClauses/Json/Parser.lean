import QueryClauses.Json.Basic

/-! Reading JSON. Blanks may stand around every token, and nothing else may be left over. -/

namespace QueryClauses.Json

def isBlank (c : Char) : Bool := c = ' ' || c = '\t' || c = '\n' || c = '\r'

def skipBlank (s : List Char) : List Char := s.dropWhile isBlank

/-- A string behind its opening quote. -/
def scanString? (s : List Char) : Option (Option String × List Char) :=
  (JsonText.scan? s).map fun (ps, r) => ((JsonText.text? ps).map String.ofList, r)

mutual

/-- A value at the front and what is behind it. Every other step takes a character, so twice as many
steps as there are characters are enough. -/
def scan? : Nat → List Char → Option (Json × List Char)
  | 0, _ => none
  | steps + 1, s =>
    match skipBlank s with
    | 'n' :: 'u' :: 'l' :: 'l' :: r => some (null, r)
    | 't' :: 'r' :: 'u' :: 'e' :: r => some (bool true, r)
    | 'f' :: 'a' :: 'l' :: 's' :: 'e' :: r => some (bool false, r)
    | '"' :: r => (scanString? r).map fun (text, r) => (string text, r)
    | '[' :: r =>
      match skipBlank r with
      | ']' :: r => some (array [], r)
      | r => (scanItems? steps r).map fun (items, r) => (array items, r)
    | '\x7b' :: r =>
      match skipBlank r with
      | '\x7d' :: r => some (object [], r)
      | r => (scanMembers? steps r).map fun (members, r) => (object members, r)
    | s => (Numeral.scan? s).map fun (n, r) => (number n, r)

/-- The items of an array, of which there is at least one. -/
def scanItems? : Nat → List Char → Option (List Json × List Char)
  | 0, _ => none
  | steps + 1, s => do
    let (item, r) ← scan? steps s
    match skipBlank r with
    | ',' :: r => (scanItems? steps r).map fun (items, r) => (item :: items, r)
    | ']' :: r => some ([item], r)
    | _ => none

/-- The members of an object, of which there is at least one. -/
def scanMembers? : Nat → List Char → Option (List (Option String × Json) × List Char)
  | 0, _ => none
  | steps + 1, s =>
    match skipBlank s with
    | '"' :: r => do
      let (key, r) ← scanString? r
      match skipBlank r with
      | ':' :: r => do
        let (value, r) ← scan? steps r
        match skipBlank r with
        | ',' :: r => (scanMembers? steps r).map fun (members, r) => ((key, value) :: members, r)
        | '\x7d' :: r => some ([(key, value)], r)
        | _ => none
      | _ => none
    | _ => none

end

def parse? (text : String) : Option Json := do
  let s := text.toList
  let (value, r) ← scan? (2 * s.length + 1) s
  if (skipBlank r).isEmpty then some value else none

end QueryClauses.Json
