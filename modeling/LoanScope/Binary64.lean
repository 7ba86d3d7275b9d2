/-! Finite doubles in exact integer arithmetic: rounding of fractions, products and
quotients, reading of decimals, and the shortest decimal that reads back. -/

namespace LoanScope

/-- The quotient rounded to the nearest integer, a tie going to the even one. -/
def roundDiv (num den : Nat) : Nat :=
  let quotient := num / den
  let twice := 2 * (num % den)
  if twice < den ∨ (twice = den ∧ quotient % 2 = 0) then quotient else quotient + 1

/-- A finite double. `pattern` is the 63-bit word of its magnitude: eleven exponent bits
above fifty-two fraction bits. -/
structure Binary64 where
  negative : Bool
  pattern : Nat
  finite : pattern < 0x7FF0000000000000
deriving DecidableEq

namespace Binary64

def zero : Binary64 := ⟨false, 0, by decide⟩

instance : Inhabited Binary64 := ⟨zero⟩

/-- The bit above the fraction bits. -/
def leadingBit : Nat := 0x10000000000000

/-- The integer `m` of the magnitude `m * 2 ^ q`. -/
def mantissa (x : Binary64) : Nat :=
  if x.pattern < leadingBit then x.pattern else leadingBit + x.pattern % leadingBit

/-- The integer `q` of the magnitude `m * 2 ^ q`. -/
def scale (x : Binary64) : Int :=
  if x.pattern < leadingBit then -1074 else (x.pattern / leadingBit : Nat) - 1075

def isZero (x : Binary64) : Bool := x.pattern = 0

/-- The greatest `e` with `2 ^ e ≤ num / den`, for positive `num` and `den`. -/
def binaryExponent (num den : Nat) : Int :=
  let e : Int := (num.log2 : Int) - den.log2
  if den <<< e.toNat ≤ num <<< (-e).toNat then e else e - 1

/-- The word of the double nearest to `num / den`. A carry out of the fraction bits
raises the exponent bits, as it should. -/
def nearestPattern (num den : Nat) : Nat :=
  if num = 0 then 0
  else
    let q := max (binaryExponent num den - 52) (-1074)
    (q + 1074).toNat * leadingBit + roundDiv (num <<< (-q).toNat) (den <<< q.toNat)

/-- The double nearest to a fraction, unless it is out of range. -/
def ofRatio? (negative : Bool) (num den : Nat) : Option Binary64 :=
  let pattern := nearestPattern num den
  if h : pattern < 0x7FF0000000000000 then some ⟨negative, pattern, h⟩ else none

/-- The double nearest to an integer, unless it is out of range. -/
def ofInt? (n : Int) : Option Binary64 := ofRatio? (n < 0) n.natAbs 1

/-- The magnitude as a fraction. -/
def ratio (x : Binary64) : Nat × Nat :=
  (x.mantissa <<< x.scale.toNat, 1 <<< (-x.scale).toNat)

def mul? (x y : Binary64) : Option Binary64 :=
  ofRatio? (x.negative != y.negative) (x.ratio.1 * y.ratio.1) (x.ratio.2 * y.ratio.2)

/-- The quotient, unless the divisor is zero or the result is out of range. -/
def div? (x y : Binary64) : Option Binary64 :=
  if y.isZero then none
  else ofRatio? (x.negative != y.negative) (x.ratio.1 * y.ratio.2) (x.ratio.2 * y.ratio.1)

/-- Multiplies by a power of ten in double arithmetic: the power is itself a double, and
each step rounds once. Exponents below -308 take a first step of `10 ^ 308`; below -616
nothing is left of a number under `2 ^ 64`. -/
def scaleDecimal? (x : Binary64) (e : Int) : Option Binary64 :=
  let power (k : Nat) := ofRatio? false (Nat.pow 10 k) 1
  if 308 < e then
    if x.isZero then some x else none
  else if 0 ≤ e then do x.mul? (← power e.toNat)
  else if -308 ≤ e then do x.div? (← power (-e).toNat)
  else if -616 ≤ e then do
    let y ← x.div? (← power 308)
    y.div? (← power (-e - 308).toNat)
  else some { zero with negative := x.negative }

/-- Whether `digits * 10 ^ exponent` is beyond the greatest double. The length of the number decides
unless it is near that. -/
def overflows (digits : Nat) (exponent : Int) : Bool :=
  let length : Int := (Nat.toDigits 10 digits).length + exponent
  if digits = 0 ∨ length < 300 then false
  else if 320 < length then true
  else (ofRatio? false (digits * Nat.pow 10 exponent.toNat) (Nat.pow 10 (-exponent).toNat)).isNone

/-- The word of the whole number, sign bit first. -/
def bits (x : Binary64) : Nat := (if x.negative then 0x8000000000000000 else 0) + x.pattern

/-- Sixteen hexadecimal digits of the word. -/
def hex (x : Binary64) : String :=
  let digits := Nat.toDigits 16 x.bits
  String.ofList (List.replicate (16 - digits.length) '0' ++ digits)

/-! ### Shortest decimal -/

/-- The least `j` with `den ≤ num * 10 ^ j`, searched upward for `fuel` steps. -/
def leadingZeros (num den : Nat) : Nat → Nat → Nat
  | 0, j => j
  | fuel + 1, j => if den ≤ num * Nat.pow 10 j then j else leadingZeros num den fuel (j + 1)

/-- The greatest `e` with `10 ^ e ≤ num / den`, down to `-400`. -/
def decimalExponent (num den : Nat) : Int :=
  if den ≤ num then (Nat.toDigits 10 (num / den)).length - 1
  else -(leadingZeros num den 400 1 : Int)

/-- A decimal `digits * 10 ^ exponent`. -/
structure Decimal where
  digits : Nat
  exponent : Int
deriving DecidableEq

/-- The magnitude of a double between the two neighbouring midpoints, all as numerators over
one denominator. The midpoints read back as this double if `closed`. -/
structure Neighbourhood where
  low : Nat
  value : Nat
  high : Nat
  den : Nat
  closed : Bool

def neighbourhood (x : Binary64) : Neighbourhood :=
  let up := (x.scale - 2).toNat
  let m := x.mantissa
  let below := if m = leadingBit ∧ -1074 < x.scale then 1 else 2
  { low := (4 * m - below) <<< up, value := (4 * m) <<< up, high := (4 * m + 2) <<< up
    den := 1 <<< (2 - x.scale).toNat, closed := m % 2 = 0 }

/-- Whether `digits * 10 ^ k` reads back as the double. -/
def Neighbourhood.holds (v : Neighbourhood) (digits : Nat) (k : Int) : Bool :=
  let num := digits * Nat.pow 10 k.toNat * v.den
  let unit := Nat.pow 10 (-k).toNat
  if v.closed then v.low * unit ≤ num ∧ num ≤ v.high * unit
  else v.low * unit < num ∧ num < v.high * unit

/-- A decimal on the grid of `10 ^ k` that reads back, the nearer of the two around the value. -/
def Neighbourhood.onGrid? (v : Neighbourhood) (k : Int) : Option Decimal :=
  let num := v.value * Nat.pow 10 (-k).toNat
  let den := v.den * Nat.pow 10 k.toNat
  let below := num / den
  match v.holds below k, v.holds (below + 1) k with
  | true, true => some ⟨roundDiv num den, k⟩
  | true, false => some ⟨below, k⟩
  | false, true => some ⟨below + 1, k⟩
  | false, false => none

/-- The first grid with a decimal that reads back, each one digit finer than the last. -/
def Neighbourhood.shortest (v : Neighbourhood) : Nat → Int → Decimal
  | 0, k => ⟨roundDiv (v.value * Nat.pow 10 (-k).toNat) (v.den * Nat.pow 10 k.toNat), k⟩
  | fuel + 1, k => (v.onGrid? k).getD (v.shortest fuel (k - 1))

/-- Drops trailing zeros of the digits, at most `fuel` of them. -/
def Decimal.trim : Nat → Decimal → Decimal
  | 0, d => d
  | fuel + 1, d =>
      if d.digits ≠ 0 ∧ d.digits % 10 = 0 then trim fuel ⟨d.digits / 10, d.exponent + 1⟩ else d

/-- The decimal with fewest digits that reads back as the magnitude. -/
def shortest (x : Binary64) : Decimal :=
  if x.isZero then ⟨0, 0⟩
  else
    let v := x.neighbourhood
    (v.shortest 17 (decimalExponent v.value v.den)).trim 17

/-- Positional between `10 ^ -5` and `10 ^ 16`, with an exponent elsewhere; a whole number
keeps one zero after the point. -/
def text (x : Binary64) : String :=
  let d := x.shortest
  let digits := Nat.toDigits 10 d.digits
  let zeros (n : Int) := List.replicate n.toNat '0'
  let point : Int := digits.length + d.exponent
  let body :=
    if x.isZero then ['0', '.', '0']
    else if 0 ≤ d.exponent ∧ point ≤ 16 then digits ++ zeros d.exponent ++ ['.', '0']
    else if 0 < point ∧ point ≤ 16 then
      digits.take point.toNat ++ '.' :: digits.drop point.toNat
    else if -5 < point ∧ point ≤ 0 then '0' :: '.' :: zeros (-point) ++ digits
    else
      let fraction := digits.drop 1
      digits.take 1 ++ (if fraction.isEmpty then [] else '.' :: fraction) ++
        'e' :: (toString (point - 1)).toList
  String.ofList (if x.negative then '-' :: body else body)

end Binary64

end LoanScope
