import QueryClauses.Text.Hex

/-! The four forms of strings: with escapes or without, on one line or on several. -/

namespace QueryClauses.TomlText

/-- Characters that stand for themselves in no form: controls other than the tab. A line feed stands
for itself in the forms of several lines only. -/
def isControl (c : Char) : Bool := (c < ' ' && c ≠ '\t') || c = '\x7f'

/-! ### Writing -/

inductive Form where
  | basic | literal | multiBasic | multiLiteral
  deriving DecidableEq, Repr

/-- Three of a character in a row. -/
def hasTriple (q : Char) : List Char → Bool
  | a :: r@(b :: c :: _) => (a = q && b = q && c = q) || hasTriple q r
  | _ => false

/-- The first form in which nothing or little has to be escaped. -/
def formFor (s : List Char) : Form :=
  let clean := s.all fun c => !isControl c || c = '\n'
  let oneLine := !s.contains '\n'
  if clean && oneLine && !s.contains '\\' && !s.contains '"' then .basic
  else if clean && oneLine && !s.contains '\'' then .literal
  else if clean && !s.contains '\\' && !hasTriple '"' s then .multiBasic
  else if clean && !hasTriple '\'' s then .multiLiteral
  else if oneLine then .basic
  else .multiBasic

/-- How a character other than a quote or a line feed is written where there are escapes. -/
def escape (c : Char) : List Char :=
  if c = '\x08' then ['\\', 'b']
  else if c = '\t' then ['\\', 't']
  else if c = '\x0c' then ['\\', 'f']
  else if c = '\r' then ['\\', 'r']
  else if c = '\\' then ['\\', '\\']
  else if isControl c then ['\\', 'u', '0', '0'] ++ Hex.upperPair c.toNat
  else [c]

def escapeOneLine (c : Char) : List Char :=
  if c = '"' then ['\\', '"'] else if c = '\n' then ['\\', 'n'] else escape c

/-- Escapes every third quote of a row, so many of which have gone before. -/
def escapeLines : Nat → List Char → List Char
  | _, [] => []
  | quotes, '"' :: r => if quotes = 2 then '\\' :: '"' :: escapeLines 0 r else '"' :: escapeLines (quotes + 1) r
  | _, '\n' :: r => '\n' :: escapeLines 0 r
  | _, c :: r => escape c ++ escapeLines 0 r

/-- A line feed that is not part of the string, to put its lines below each other. -/
def lead (s : List Char) : List Char := if s.contains '\n' then ['\n'] else []

def write (s : List Char) : List Char :=
  match formFor s with
  | .basic => ['"'] ++ s.flatMap escapeOneLine ++ ['"']
  | .literal => ['\''] ++ s ++ ['\'']
  | .multiBasic => ['"', '"', '"'] ++ lead s ++ escapeLines 0 s ++ ['"', '"', '"']
  | .multiLiteral => ['\'', '\'', '\''] ++ lead s ++ s ++ ['\'', '\'', '\'']

/-! ### Reading -/

/-- The character of a code point, if it has one. -/
def charOf? (n : Nat) : Option Char := if n.isValidChar then some (.ofNat n) else none

def ofEscape? : Char → Option Char
  | 'b' => some '\x08'
  | 't' => some '\t'
  | 'n' => some '\n'
  | 'f' => some '\x0c'
  | 'r' => some '\r'
  | '"' => some '"'
  | '\\' => some '\\'
  | _ => none

/-- The characters up to the closing quote, and what is behind it. -/
def scanBasic? : List Char → Option (List Char × List Char)
  | [] => none
  | '"' :: r => some ([], r)
  | '\\' :: 'u' :: a :: b :: c :: d :: r => do
    let x ← (Hex.number? [a, b, c, d]).bind charOf?
    (scanBasic? r).map fun (s, r) => (x :: s, r)
  | '\\' :: 'U' :: a :: b :: c :: d :: e :: f :: g :: h :: r => do
    let x ← (Hex.number? [a, b, c, d, e, f, g, h]).bind charOf?
    (scanBasic? r).map fun (s, r) => (x :: s, r)
  | '\\' :: e :: r => do
    let x ← ofEscape? e
    (scanBasic? r).map fun (s, r) => (x :: s, r)
  | c :: r => if isControl c || c = '\\' then none else (scanBasic? r).map fun (s, r) => (c :: s, r)

def scanLiteral? : List Char → Option (List Char × List Char)
  | [] => none
  | '\'' :: r => some ([], r)
  | c :: r => if isControl c then none else (scanLiteral? r).map fun (s, r) => (c :: s, r)

def isSpace (c : Char) : Bool := c = ' ' || c = '\t'

/-- Behind an end of line. -/
def dropNewline? : List Char → Option (List Char)
  | '\n' :: r => some r
  | '\r' :: '\n' :: r => some r
  | _ => none

/-- Behind an end of line, if there is one. -/
def dropNewline (s : List Char) : List Char := (dropNewline? s).getD s

/-- Only spaces are left on the line. -/
def isLineBlank (s : List Char) : Bool := (dropNewline? (s.dropWhile isSpace)).isSome

/-- The characters up to the three closing quotes, before which there may be two more. A backslash at
the end of a line takes away all blanks that follow; `trim` is set while they are passed over. -/
def scanMultiBasic? (trim : Bool) : List Char → Option (List Char × List Char)
  | [] => none
  | '"' :: '"' :: '"' :: '"' :: '"' :: r => some (['"', '"'], r)
  | '"' :: '"' :: '"' :: '"' :: r => some (['"'], r)
  | '"' :: '"' :: '"' :: r => some ([], r)
  | '\r' :: '\n' :: r =>
    if trim then scanMultiBasic? true r else (scanMultiBasic? false r).map fun (s, r) => ('\r' :: '\n' :: s, r)
  | '\\' :: 'u' :: a :: b :: c :: d :: r => do
    let x ← (Hex.number? [a, b, c, d]).bind charOf?
    (scanMultiBasic? false r).map fun (s, r) => (x :: s, r)
  | '\\' :: 'U' :: a :: b :: c :: d :: e :: f :: g :: h :: r => do
    let x ← (Hex.number? [a, b, c, d, e, f, g, h]).bind charOf?
    (scanMultiBasic? false r).map fun (s, r) => (x :: s, r)
  | '\\' :: e :: r =>
    if isLineBlank (e :: r) then scanMultiBasic? true r
    else do
      let x ← ofEscape? e
      (scanMultiBasic? false r).map fun (s, r) => (x :: s, r)
  | c :: r =>
    if trim && (isSpace c || c = '\n') then scanMultiBasic? true r
    else if (isControl c && c ≠ '\n') || c = '\\' then none
    else (scanMultiBasic? false r).map fun (s, r) => (c :: s, r)

def scanMultiLiteral? : List Char → Option (List Char × List Char)
  | [] => none
  | '\'' :: '\'' :: '\'' :: '\'' :: '\'' :: r => some (['\'', '\''], r)
  | '\'' :: '\'' :: '\'' :: '\'' :: r => some (['\''], r)
  | '\'' :: '\'' :: '\'' :: r => some ([], r)
  | '\r' :: '\n' :: r => (scanMultiLiteral? r).map fun (s, r) => ('\r' :: '\n' :: s, r)
  | c :: r =>
    if isControl c && c ≠ '\n' then none else (scanMultiLiteral? r).map fun (s, r) => (c :: s, r)

/-- A string on one line and what is behind it. -/
def scanLine? : List Char → Option (List Char × List Char)
  | '"' :: r => scanBasic? r
  | '\'' :: r => scanLiteral? r
  | _ => none

/-- A string of any form and what is behind it. -/
def scan? : List Char → Option (List Char × List Char)
  | '"' :: '"' :: '"' :: r => scanMultiBasic? false (dropNewline r)
  | '\'' :: '\'' :: '\'' :: r => scanMultiLiteral? (dropNewline r)
  | s => scanLine? s

end QueryClauses.TomlText
