import LoanScope.Json

/-! Typed reading of JSON values: records with named fields, tagged unions, and primitive values.
A record may be an object or an array of its fields in order; a tagged value has its tag in the
member `kind`, or first in the array. -/

namespace LoanScope.Json

def string? : Json → Option String
  | str s => some s
  | _ => none

def bool? : Json → Option Bool
  | bool b => some b
  | _ => none

def nat? : Json → Option Nat
  | int n => n.toNat?
  | _ => none

def uint32? : Json → Option UInt32
  | int n => if 0 ≤ n ∧ n.toNat < UInt32.size then some (UInt32.ofNat n.toNat) else none
  | _ => none

def int64? : Json → Option Int64
  | int n =>
      if Int64.minValue.toInt ≤ n ∧ n ≤ Int64.maxValue.toInt then some (Int64.ofInt n) else none
  | _ => none

/-- A double; an integer stands for the nearest one. -/
def double? : Json → Option Binary64
  | float x => some x
  | int n => Binary64.ofInt? n
  | _ => none

/-- A string of one character. -/
def char? : Json → Option Char
  | str s =>
      match s.toList with
      | [c] => some c
      | _ => none
  | _ => none

def list? {α : Type} (f : Json → Option α) : Json → Option (List α)
  | arr elements => elements.mapM f
  | _ => none

/-- A value that may be null. -/
def nullable? {α : Type} (f : Json → Option α) : Json → Option (Option α)
  | null => some none
  | v => (f v).map some

/-- A name out of a fixed set, alone or as the only key of an object without content. -/
def name? : Json → Option String
  | str s => some s
  | obj [(s, null)] => some s
  | obj [(s, obj [])] => some s
  | _ => none

/-- The fields of a record, by name. -/
abbrev Fields := List (String × Json)

/-- The fields with the given names, each at most once. Other members of an object are ignored; an
array may leave off fields at its end. -/
def record? (names : List String) : Json → Option Fields
  | obj members =>
      let known := members.filter fun m => m.1 ∈ names
      if (known.map Prod.fst).Nodup then some known else none
  | arr elements => if elements.length ≤ names.length then some (names.zip elements) else none
  | _ => none

namespace Fields

/-- A field that must be there. -/
def need? {α : Type} (fields : Fields) (name : String) (f : Json → Option α) : Option α := do
  f (← fields.lookup name)

/-- A field with a value for when it is not there. -/
def getD? {α : Type} (fields : Fields) (name : String) (default : α) (f : Json → Option α) :
    Option α :=
  match fields.lookup name with
  | none => some default
  | some v => f v

/-- A field that may be missing or null. -/
def opt? {α : Type} (fields : Fields) (name : String) (f : Json → Option α) : Option (Option α) :=
  fields.getD? name none (nullable? f)

end Fields

/-- A tag by its name, or by its position among all tags where positions are allowed. -/
def tag? (positions : Bool) (tags : List String) : Json → Option String
  | str s => if s ∈ tags then some s else none
  | int n => if positions then n.toNat?.bind (tags[·]?) else none
  | _ => none

/-- The tag of a value, and the rest of the value. -/
def tagged? (positions : Bool) (tags : List String) : Json → Option (String × Json)
  | obj members =>
      match members.filter fun m => m.1 = "kind" with
      | [(_, t)] => do some (← tag? positions tags t, obj (members.filter fun m => m.1 ≠ "kind"))
      | _ => none
  | arr (t :: rest) => do some (← tag? positions tags t, arr rest)
  | _ => none

end LoanScope.Json
