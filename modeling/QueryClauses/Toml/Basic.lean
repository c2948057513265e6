import QueryClauses.Binary64.Basic

/-! TOML values and tables. Which further definitions a table admits depends on how it arose. -/

namespace QueryClauses

/-- How a table arose: as a value between braces, by a header of its own, by a longer header, or by a
dotted key. -/
inductive TableOrigin where
  | inline | header | implied | dotted
  deriving DecidableEq, Repr

inductive Toml where
  | string (s : String)
  | boolean (b : Bool)
  | integer (n : Int)
  | float (x : Binary64)
  /-- A date, a time of day or both, as it is written. -/
  | moment (text : String)
  | array (items : List Toml)
  | table (origin : TableOrigin) (entries : List (String × Toml))
  /-- Tables that follow each other, each with a header of its own. -/
  | tables (elements : List (List (String × Toml)))

namespace Toml

/-- The keys and values of a table, in their order. -/
abbrev Entries := List (String × Toml)

/-- Replaces the value of a key, or adds it. -/
def put (key : String) (value : Toml) : Entries → Entries
  | [] => [(key, value)]
  | (k, v) :: r => if k = key then (k, value) :: r else (k, v) :: put key value r

/-- Defines a key. A dotted key ends in a table that itself arose from dotted keys, which `mayEnd` says
of this one, and never goes through a table that has a header. -/
def assign (mayEnd : Bool) : List String → Toml → Entries → Option Entries
  | [], _, _ => none
  | [key], value, es => if mayEnd && (es.lookup key).isNone then some (put key value es) else none
  | key :: rest, value, es =>
    match es.lookup key with
    | none => (assign true rest value []).map fun sub => put key (.table .dotted sub) es
    | some (.table .dotted sub) =>
      (assign true rest value sub).map fun sub => put key (.table .dotted sub) es
    | some (.table .implied sub) =>
      (assign false rest value sub).map fun sub => put key (.table .implied sub) es
    | some (.tables elements) => do
      let sub ← assign false rest value (← elements.getLast?)
      some (put key (.tables (elements.dropLast ++ [sub])) es)
    | some _ => none

/-- Changes the table under a header, the latest one where there are several. Missing tables on the way
are implied. -/
def within (change : Entries → Option Entries) : List String → Entries → Option Entries
  | [], es => change es
  | key :: rest, es =>
    match es.lookup key with
    | none => (within change rest []).map fun sub => put key (.table .implied sub) es
    | some (.table .inline _) => none
    | some (.table origin sub) => (within change rest sub).map fun sub => put key (.table origin sub) es
    | some (.tables elements) => do
      let sub ← within change rest (← elements.getLast?)
      some (put key (.tables (elements.dropLast ++ [sub])) es)
    | some _ => none

/-- Gives a table its header, which it can have once. -/
def openTable (key : String) (es : Entries) : Option Entries :=
  match es.lookup key with
  | none => some (put key (.table .header []) es)
  | some (.table .implied sub) => some (put key (.table .header sub) es)
  | some _ => none

/-- Adds a table to those that follow each other under a key. -/
def openElement (key : String) (es : Entries) : Option Entries :=
  match es.lookup key with
  | none => some (put key (.tables [[]]) es)
  | some (.tables elements) => some (put key (.tables (elements ++ [[]])) es)
  | some _ => none

end Toml

inductive TomlStatement where
  | tableHeader (path : List String)
  | elementHeader (path : List String)
  | entry (path : List String) (value : Toml)

namespace TomlStatement

open Toml

/-- Applies a statement to the whole document and to the path of the latest header. -/
def apply (state : Entries × List String) : TomlStatement → Option (Entries × List String)
  | tableHeader path => do
    let es ← within (openTable (← path.getLast?)) path.dropLast state.1
    some (es, path)
  | elementHeader path => do
    let es ← within (openElement (← path.getLast?)) path.dropLast state.1
    some (es, path)
  | entry path value => do
    let es ← within (assign true path value) state.2 state.1
    some (es, state.2)

/-- The document that the statements define. -/
def assemble? (statements : List TomlStatement) : Option Entries :=
  (statements.foldlM apply ([], [])).map (·.1)

end TomlStatement

end QueryClauses
