import QueryClauses.Text.Hex

/-! Strings between quotes, in which some characters are written as escapes. -/

namespace QueryClauses.JsonText

/-- How a character is written. -/
def escape (c : Char) : List Char :=
  if c = '"' then ['\\', '"']
  else if c = '\\' then ['\\', '\\']
  else if c = '\x08' then ['\\', 'b']
  else if c = '\x0c' then ['\\', 'f']
  else if c = '\n' then ['\\', 'n']
  else if c = '\r' then ['\\', 'r']
  else if c = '\t' then ['\\', 't']
  else if c < ' ' then ['\\', 'u', '0', '0'] ++ Hex.lowerPair c.toNat
  else [c]

def quote (s : List Char) : List Char := '"' :: s.flatMap escape ++ ['"']

def ofEscape? : Char → Option Char
  | '"' => some '"'
  | '\\' => some '\\'
  | '/' => some '/'
  | 'b' => some '\x08'
  | 'f' => some '\x0c'
  | 'n' => some '\n'
  | 'r' => some '\r'
  | 't' => some '\t'
  | _ => none

/-- A character, or a unit of 16 bits given by its number. -/
inductive Piece where
  | char (c : Char)
  | unit (u : Nat)
  deriving DecidableEq, Repr

/-- The pieces up to the closing quote, and what is behind it. -/
def scan? : List Char → Option (List Piece × List Char)
  | [] => none
  | '"' :: r => some ([], r)
  | '\\' :: 'u' :: a :: b :: c :: d :: r => do
    let u ← Hex.number? [a, b, c, d]
    let (ps, r) ← scan? r
    some (.unit u :: ps, r)
  | '\\' :: e :: r => do
    let c ← ofEscape? e
    let (ps, r) ← scan? r
    some (.char c :: ps, r)
  | c :: r => if c < ' ' || c = '\\' then none else (scan? r).map fun (ps, r) => (.char c :: ps, r)

def isHighSurrogate (u : Nat) : Bool := 0xd800 ≤ u && u < 0xdc00

def isLowSurrogate (u : Nat) : Bool := 0xdc00 ≤ u && u < 0xe000

/-- The text of the pieces, if each surrogate unit has its counterpart. -/
def text? : List Piece → Option (List Char)
  | [] => some []
  | .char c :: r => (text? r).map (c :: ·)
  | .unit u :: .unit v :: r =>
    if isHighSurrogate u && isLowSurrogate v then
      (text? r).map (.ofNat (0x10000 + (u - 0xd800) * 1024 + (v - 0xdc00)) :: ·)
    else if isHighSurrogate u || isLowSurrogate u then none
    else (text? (.unit v :: r)).map (.ofNat u :: ·)
  | .unit u :: r =>
    if isHighSurrogate u || isLowSurrogate u then none else (text? r).map (.ofNat u :: ·)

end QueryClauses.JsonText
