/-! TOML documents as nested tables, and the rules on which tables may still be added to. -/

namespace LoanScope

/-- How a table came to be. -/
inductive Toml.Origin where
  /-- It has a header of its own. -/
  | explicit
  /-- It is on the way to the table of a header. -/
  | implied
  /-- It is on the way to a dotted key. -/
  | dotted
deriving DecidableEq, Repr

/-- A value. Floats and dates are kept as they are written. -/
inductive Toml where
  | string (value : String)
  | integer (value : Int)
  | float (text : String)
  | dateTime (text : String)
  | bool (value : Bool)
  | array (elements : List Toml)
  /-- A table in braces; nothing can be added to it. -/
  | inline (entries : List (String × Toml))
  | table (origin : Toml.Origin) (entries : List (String × Toml))
  /-- The tables of repeated headers in double brackets. -/
  | tables (elements : List (List (String × Toml)))

namespace Toml

/-- Keys with their values. -/
abbrev Entries := List (String × Toml)

namespace Entries

def set (es : Entries) (key : String) (v : Toml) : Entries :=
  es.map fun e => if e.1 = key then (key, v) else e

/-- Applies a change to the last of several tables. -/
def updateLast? (f : Entries → Option Entries) : List Entries → Option (List Entries)
  | [] => none
  | [es] => do some [← f es]
  | es :: rest => do some (es :: (← updateLast? f rest))

/-- Adds a value under a dotted key. The tables on the way are made as needed; none of them may have
a header, and the last one must be a table of dotted keys. `here` tells whether the value may be
added to this very table. -/
def put? (here : Bool) (es : Entries) : List String → String → Toml → Option Entries
  | [], key, v => if here ∧ (es.lookup key).isNone then some (es ++ [(key, v)]) else none
  | k :: path, key, v =>
      match es.lookup k with
      | none => do some (es ++ [(k, .table .dotted (← put? true [] path key v))])
      | some (.table .dotted sub) => do
          some (es.set k (.table .dotted (← put? true sub path key v)))
      | some (.table .implied sub) => do
          some (es.set k (.table .implied (← put? false sub path key v)))
      | some (.tables elements) => do
          some (es.set k (.tables (← updateLast? (fun sub => put? false sub path key v) elements)))
      | some _ => none

/-- Applies a change to the table at a path, the last one of repeated tables. Tables on the way are
implied as needed. -/
def updateAt? (f : Entries → Option Entries) : List String → Entries → Option Entries
  | [], es => f es
  | k :: path, es =>
      match es.lookup k with
      | none => do some (es ++ [(k, .table .implied (← updateAt? f path []))])
      | some (.table origin sub) => do
          some (es.set k (.table origin (← updateAt? f path sub)))
      | some (.tables elements) => do
          some (es.set k (.tables (← updateLast? (updateAt? f path) elements)))
      | some _ => none

/-- A header in brackets. A table has at most one, and none if it was made by dotted keys. -/
def openTable? (key : String) (es : Entries) : Option Entries :=
  match es.lookup key with
  | none => some (es ++ [(key, .table .explicit [])])
  | some (.table .implied sub) => some (es.set key (.table .explicit sub))
  | some _ => none

/-- A header in double brackets, which starts another table of that name. -/
def openElement? (key : String) (es : Entries) : Option Entries :=
  match es.lookup key with
  | none => some (es ++ [(key, .tables [[]])])
  | some (.tables elements) => some (es.set key (.tables (elements ++ [[]])))
  | some _ => none

end Entries

end Toml

end LoanScope
