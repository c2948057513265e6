import QueryClauses.Toml.Scalar
import QueryClauses.Toml.Text

/-! Reading TOML: statements, each on a line of its own apart from values of several lines. -/

namespace QueryClauses.Toml

open TomlText (isSpace isControl dropNewline?)

def skipSpace (s : List Char) : List Char := s.dropWhile isSpace

/-- Behind the end of the line, on which at most a comment is left. `inComment` is set within it. -/
def endLine? (inComment : Bool) : List Char → Option (List Char)
  | [] => some []
  | '\n' :: r => some r
  | '\r' :: '\n' :: r => some r
  | c :: r =>
    if inComment then (if isControl c then none else endLine? true r)
    else if isSpace c then endLine? false r
    else if c = '#' then endLine? true r
    else none

/-- Behind spaces, ends of lines and comments. -/
def skipLines? (inComment : Bool) : List Char → Option (List Char)
  | [] => some []
  | '\n' :: r => skipLines? false r
  | '\r' :: '\n' :: r => skipLines? false r
  | c :: r =>
    if inComment then (if isControl c then none else skipLines? true r)
    else if isSpace c then skipLines? false r
    else if c = '#' then skipLines? true r
    else some (c :: r)

def isBareChar (c : Char) : Bool := c.isAlphanum || c = '-' || c = '_'

/-- One part of a key, bare or between quotes. -/
def scanKey? (s : List Char) : Option (String × List Char) :=
  match TomlText.scanLine? s with
  | some (key, r) => some (String.ofList key, r)
  | none =>
    match s.takeWhile isBareChar with
    | [] => none
    | key => some (String.ofList key, s.dropWhile isBareChar)

/-- The parts of a key, between dots and at most so many, and what is behind it and the spaces after
it. -/
def scanParts? : Nat → List Char → Option (List String × List Char)
  | 0, _ => none
  | count + 1, s => do
    let (key, r) ← scanKey? (skipSpace s)
    match skipSpace r with
    | '.' :: r => (scanParts? count r).map fun (path, r) => (key :: path, r)
    | r => some ([key], r)

/-- How many parts a key may have, whatever table it is in. -/
def maxParts : Nat := 80

def scanPath? (s : List Char) : Option (List String × List Char) := scanParts? maxParts s

mutual

/-- A value at the front and what is behind it, with at most so many brackets inside each other. -/
def scan? : Nat → Nat → List Char → Option (Toml × List Char)
  | 0, _, _ => none
  | steps + 1, depth, s =>
    match s with
    | '[' :: r =>
      if depth = 0 then none
      else do
        match ← skipLines? false r with
        | ']' :: r => some (array [], r)
        | r => (scanItems? steps (depth - 1) r).map fun (items, r) => (array items, r)
    | '\x7b' :: r =>
      if depth = 0 then none
      else
        match skipSpace r with
        | '\x7d' :: r => some (table .inline [], r)
        | r => (scanEntries? steps (depth - 1) [] r).map fun (es, r) => (table .inline es, r)
    | '"' :: _ | '\'' :: _ => (TomlText.scan? s).map fun (text, r) => (string (String.ofList text), r)
    | s => TomlScalar.scan? s

/-- The items of an array, of which there is at least one. -/
def scanItems? : Nat → Nat → List Char → Option (List Toml × List Char)
  | 0, _, _ => none
  | steps + 1, depth, s => do
    let (item, r) ← scan? steps depth s
    match ← skipLines? false r with
    | ']' :: r => some ([item], r)
    | ',' :: r =>
      match ← skipLines? false r with
      | ']' :: r => some ([item], r)
      | r => (scanItems? steps depth r).map fun (items, r) => (item :: items, r)
    | _ => none

/-- The entries of a table between braces, of which there is at least one, added to those before. -/
def scanEntries? : Nat → Nat → Entries → List Char → Option (Entries × List Char)
  | 0, _, _, _ => none
  | steps + 1, depth, es, s => do
    let (path, r) ← scanPath? s
    match r with
    | '=' :: r => do
      let (value, r) ← scan? steps depth (skipSpace r)
      let es ← assign true path value es
      match skipSpace r with
      | '\x7d' :: r => some (es, r)
      | ',' :: r => scanEntries? steps depth es r
      | _ => none
    | _ => none

end

/-- How many brackets may be inside each other. -/
def maxDepth : Nat := 80

/-- A statement up to its last character. -/
def scanStatement? (steps : Nat) (s : List Char) : Option (TomlStatement × List Char) :=
  match s with
  | '[' :: '[' :: r => do
    match ← scanPath? r with
    | (path, ']' :: ']' :: r) => some (.elementHeader path, r)
    | _ => none
  | '[' :: r => do
    match ← scanPath? r with
    | (path, ']' :: r) => some (.tableHeader path, r)
    | _ => none
  | s => do
    match ← scanPath? s with
    | (path, '=' :: r) => do
      let (value, r) ← scan? steps maxDepth (skipSpace r)
      some (.entry path value, r)
    | _ => none

/-- The statements, of which there is at most one on a line. -/
def statements? : Nat → List Char → Option (List TomlStatement)
  | 0, _ => none
  | steps + 1, s => do
    match ← skipLines? false s with
    | [] => some []
    | s => do
      let (statement, r) ← scanStatement? steps s
      (statements? steps (← endLine? false r)).map (statement :: ·)

/-- The entries of a document. A mark of the byte order may precede it. Every other step takes a
character, so twice as many steps as there are characters are enough. -/
def parse? (text : String) : Option Entries := do
  let s := match text.toList with
    | '\ufeff' :: r => r
    | s => s
  TomlStatement.assemble? (← statements? (2 * s.length + 2) s)

end QueryClauses.Toml
