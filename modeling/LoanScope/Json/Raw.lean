import LoanScope.Json

/-! JSON as it is written: numerals digit by digit, strings unit by unit. A raw value says nothing
on whether its numbers are in range or its strings are text; reading decides that. -/

namespace LoanScope.Json

/-- A part of a string: a character, or the sixteen-bit code of a `\u` escape. -/
inductive StringUnit where
  | char (c : Char)
  | code (n : Nat)

/-- A number as written. -/
structure Numeral where
  negative : Bool
  whole : List Nat
  fraction : Option (List Nat)
  exponent : Option Int

inductive Raw where
  | null
  | bool (value : Bool)
  | num (value : Numeral)
  | str (value : List StringUnit)
  | arr (elements : List Raw)
  | obj (members : List (List StringUnit × Raw))

inductive Token where
  | openArr | closeArr | openObj | closeObj | comma | colon
  | null
  | bool (value : Bool)
  | num (value : Numeral)
  | str (value : List StringUnit)

namespace Raw

/-! ### Tokens -/

def isBlank (c : Char) : Bool := c = ' ' || c = '\t' || c = '\n' || c = '\r'

def digitsOf (cs : List Char) : List Nat := cs.map fun c => c.toNat - '0'.toNat

/-- One or more digits, and what follows them. -/
def digits? (cs : List Char) : Option (List Nat × List Char) :=
  match cs.takeWhile Char.isDigit with
  | [] => none
  | ds => some (digitsOf ds, cs.dropWhile Char.isDigit)

def ofDigits (ds : List Nat) : Nat := ds.foldl (fun n d => 10 * n + d) 0

def sign (cs : List Char) : Bool × List Char :=
  match cs with
  | '-' :: rest => (true, rest)
  | _ => (false, cs)

def fraction? (cs : List Char) : Option (Option (List Nat) × List Char) :=
  match cs with
  | '.' :: rest => do
      let (ds, rest) ← digits? rest
      some (some ds, rest)
  | _ => some (none, cs)

def exponent? (cs : List Char) : Option (Option Int × List Char) :=
  match cs with
  | 'e' :: rest | 'E' :: rest => do
      let (negative, rest) :=
        match rest with
        | '+' :: rest => (false, rest)
        | _ => sign rest
      let (ds, rest) ← digits? rest
      some (some (if negative then -(ofDigits ds : Int) else ofDigits ds), rest)
  | _ => some (none, cs)

/-- A number. A whole part of several digits does not start with zero. -/
def numeral? (cs : List Char) : Option (Numeral × List Char) := do
  let (negative, cs) := sign cs
  let (whole, cs) ← digits? cs
  if whole.head? = some 0 ∧ 1 < whole.length then none
  else
    let (fraction, cs) ← fraction? cs
    let (exponent, cs) ← exponent? cs
    some (⟨negative, whole, fraction, exponent⟩, cs)

def hexDigit? (c : Char) : Option Nat :=
  if '0' ≤ c ∧ c ≤ '9' then some (c.toNat - '0'.toNat)
  else if 'a' ≤ c ∧ c ≤ 'f' then some (c.toNat - 'a'.toNat + 10)
  else if 'A' ≤ c ∧ c ≤ 'F' then some (c.toNat - 'A'.toNat + 10)
  else none

def unescape? (c : Char) : Option Char :=
  match c with
  | '"' => some '"'
  | '\\' => some '\\'
  | '/' => some '/'
  | 'b' => some '\x08'
  | 'f' => some '\x0c'
  | 'n' => some '\n'
  | 'r' => some '\r'
  | 't' => some '\t'
  | _ => none

/-- The units up to the closing quote, and what follows it. -/
def units? : List Char → Option (List StringUnit × List Char)
  | [] => none
  | '"' :: rest => some ([], rest)
  | '\\' :: 'u' :: a :: b :: c :: d :: rest => do
      let n :=
        16 * (16 * (16 * (← hexDigit? a) + (← hexDigit? b)) + (← hexDigit? c)) + (← hexDigit? d)
      let (us, rest) ← units? rest
      some (.code n :: us, rest)
  | '\\' :: c :: rest => do
      let c ← unescape? c
      let (us, rest) ← units? rest
      some (.char c :: us, rest)
  | c :: rest =>
      if c.toNat < 0x20 then none
      else do
        let (us, rest) ← units? rest
        some (.char c :: us, rest)

def token? (cs : List Char) : Option (Token × List Char) :=
  match cs with
  | '[' :: rest => some (.openArr, rest)
  | ']' :: rest => some (.closeArr, rest)
  | '\x7b' :: rest => some (.openObj, rest)
  | '\x7d' :: rest => some (.closeObj, rest)
  | ',' :: rest => some (.comma, rest)
  | ':' :: rest => some (.colon, rest)
  | 'n' :: 'u' :: 'l' :: 'l' :: rest => some (.null, rest)
  | 't' :: 'r' :: 'u' :: 'e' :: rest => some (.bool true, rest)
  | 'f' :: 'a' :: 'l' :: 's' :: 'e' :: rest => some (.bool false, rest)
  | '"' :: rest => do
      let (us, rest) ← units? rest
      some (.str us, rest)
  | _ => do
      let (n, rest) ← numeral? cs
      some (.num n, rest)

/-- All tokens of a text; every token takes a character of fuel. -/
def tokens? : Nat → List Char → Option (List Token)
  | fuel, cs =>
      match fuel, cs.dropWhile isBlank with
      | _, [] => some []
      | 0, _ => none
      | fuel + 1, cs => do
          let (t, rest) ← token? cs
          some (t :: (← tokens? fuel rest))

/-! ### Values -/

mutual

def value? : Nat → List Token → Option (Raw × List Token)
  | 0, _ => none
  | fuel + 1, tokens =>
      match tokens with
      | .null :: rest => some (.null, rest)
      | .bool b :: rest => some (.bool b, rest)
      | .num n :: rest => some (.num n, rest)
      | .str us :: rest => some (.str us, rest)
      | .openArr :: .closeArr :: rest => some (.arr [], rest)
      | .openArr :: rest => do
          let (vs, rest) ← elements? fuel rest
          some (.arr vs, rest)
      | .openObj :: .closeObj :: rest => some (.obj [], rest)
      | .openObj :: rest => do
          let (ms, rest) ← members? fuel rest
          some (.obj ms, rest)
      | _ => none

/-- The elements up to the closing bracket. -/
def elements? : Nat → List Token → Option (List Raw × List Token)
  | 0, _ => none
  | fuel + 1, tokens => do
      let (v, rest) ← value? fuel tokens
      match rest with
      | .closeArr :: rest => some ([v], rest)
      | .comma :: rest => do
          let (vs, rest) ← elements? fuel rest
          some (v :: vs, rest)
      | _ => none

/-- The members up to the closing brace. -/
def members? : Nat → List Token → Option (List (List StringUnit × Raw) × List Token)
  | 0, _ => none
  | fuel + 1, tokens =>
      match tokens with
      | .str key :: .colon :: rest => do
          let (v, rest) ← value? fuel rest
          match rest with
          | .closeObj :: rest => some ([(key, v)], rest)
          | .comma :: rest => do
              let (ms, rest) ← members? fuel rest
              some ((key, v) :: ms, rest)
          | _ => none
      | _ => none

end

/-- The one value of a text. -/
def parse? (text : String) : Option Raw := do
  let cs := text.toList
  let tokens ← tokens? cs.length cs
  match ← value? (2 * tokens.length + 1) tokens with
  | (v, []) => some v
  | _ => none

end Raw

end LoanScope.Json
