import LoanScope.Json.Raw

/-! Reading of JSON text. A shape says which parts of a value are wanted: what is not wanted is
passed over, and then neither its numbers nor its strings nor its nesting matter. -/

namespace LoanScope.Json

/-! ### Numbers -/

/-- Adds decimal digits to a significand as long as 64 bits hold it, and counts those left over. -/
def Numeral.accumulate : List Nat → Nat → Nat × Nat
  | [], significand => (significand, 0)
  | d :: rest, significand =>
      if 10 * significand + d < UInt64.size then accumulate rest (10 * significand + d)
      else (significand, rest.length + 1)

/-- A numeral without point and exponent is an integer if 64 bits hold it, with or without a sign;
any other is a double, and zero with a minus sign is one too. A double out of range is refused. -/
def Numeral.value? (n : Numeral) : Option Json := do
  let (significand, left) := accumulate n.whole 0
  if n.fraction.isNone ∧ n.exponent.isNone ∧ left = 0 ∧ ¬ n.negative then
    some (.int significand)
  else if n.fraction.isNone ∧ n.exponent.isNone ∧ left = 0 ∧ 0 < significand ∧
      Int64.minValue.toInt ≤ -significand then
    some (.int (-significand))
  else
    let fraction := n.fraction.getD []
    let (significand, dropped) := accumulate fraction significand
    let exponent := (left : Int) - (fraction.length - dropped : Nat) + n.exponent.getD 0
    let x ← Binary64.ofInt? significand
    let y ← x.scaleDecimal? exponent
    some (.float { y with negative := n.negative })

/-! ### Strings -/

def highSurrogate (n : Nat) : Bool := 0xD800 ≤ n && n < 0xDC00

def lowSurrogate (n : Nat) : Bool := 0xDC00 ≤ n && n < 0xE000

/-- The text of a string. Surrogates come in pairs, high before low. -/
def chars? : List StringUnit → Option (List Char)
  | [] => some []
  | .char c :: rest => (chars? rest).map (c :: ·)
  | .code m :: .code n :: rest =>
      if highSurrogate m then
        if lowSurrogate n then
          (chars? rest).map (Char.ofNat (0x10000 + 0x400 * (m - 0xD800) + (n - 0xDC00)) :: ·)
        else none
      else if lowSurrogate m then none
      else (chars? (.code n :: rest)).map (Char.ofNat m :: ·)
  | .code m :: rest =>
      if highSurrogate m || lowSurrogate m then none
      else (chars? rest).map (Char.ofNat m :: ·)

def textOf? (units : List StringUnit) : Option String := (chars? units).map String.ofList

/-! ### Shapes -/

/-- What a reader wants of a value: all of it, the same of each element, or certain members by name.
Members of other names are kept in full if `others`, else passed over. A record written as an array
has its fields in order. -/
inductive Shape where
  | all
  | each (element : Shape)
  | record (fields : List (String × Shape)) (others : Bool)

/-- The shape of the element at a position. -/
def Shape.element (i : Nat) : Shape → Shape
  | all => all
  | each s => s
  | record fields _ => (fields[i]?.map Prod.snd).getD all

/-- The shape of the member of a name, if it is wanted. -/
def Shape.member? (key : String) : Shape → Option Shape
  | all => some all
  | each _ => some all
  | record fields others =>
      match fields.lookup key with
      | some s => some s
      | none => if others then some all else none

mutual

/-- Reads what the shape wants, with at most `limit` containers open at once. -/
def Raw.read? (limit : Nat) (shape : Shape) : Raw → Option Json
  | .null => some .null
  | .bool b => some (.bool b)
  | .num n => n.value?
  | .str us => (textOf? us).map .str
  | .arr elements =>
      if limit = 0 then none else (readElements? (limit - 1) shape 0 elements).map .arr
  | .obj members =>
      if limit = 0 then none else (readMembers? (limit - 1) shape members).map .obj

def Raw.readElements? (limit : Nat) (shape : Shape) (i : Nat) : List Raw → Option (List Json)
  | [] => some []
  | v :: rest => do
      let v ← Raw.read? limit (shape.element i) v
      some (v :: (← Raw.readElements? limit shape (i + 1) rest))

def Raw.readMembers? (limit : Nat) (shape : Shape) :
    List (List StringUnit × Raw) → Option (List (String × Json))
  | [] => some []
  | (key, v) :: rest => do
      let key ← textOf? key
      match shape.member? key with
      | some s => do
          let v ← Raw.read? limit s v
          some ((key, v) :: (← Raw.readMembers? limit shape rest))
      | none => Raw.readMembers? limit shape rest

end

/-- The value of a text, as far as the shape wants it. -/
def parse? (limit : Nat) (shape : Shape) (text : String) : Option Json := do
  (← Raw.parse? text).read? limit shape

end LoanScope.Json
