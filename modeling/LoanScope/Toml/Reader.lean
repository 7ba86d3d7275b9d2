import LoanScope.Binary64
import LoanScope.Toml

/-! Reading of TOML text. Each function takes what it can from the front of a text and returns the
rest; whatever is left after a whole statement makes the document invalid. -/

namespace LoanScope.Toml

/-- A reader of something at the front of a text. -/
abbrev Reader (α : Type) := List Char → Option (α × List Char)

/-! ### Blanks, comments, line ends -/

def isBlank (c : Char) : Bool := c = ' ' || c = '\t'

def skipBlanks (cs : List Char) : List Char := cs.dropWhile isBlank

/-- Characters of comments and strings: no control characters but the tab. -/
def isPrintable (c : Char) : Bool := c = '\t' || (0x20 ≤ c.toNat && c.toNat ≠ 0x7F)

def newline? : List Char → Option (List Char)
  | '\n' :: rest => some rest
  | '\r' :: '\n' :: rest => some rest
  | _ => none

def skipComment : List Char → List Char
  | '#' :: rest => rest.dropWhile isPrintable
  | cs => cs

/-- The end of a line, or of the text. -/
def lineEnd? (cs : List Char) : Option (List Char) :=
  match skipComment (skipBlanks cs) with
  | [] => some []
  | cs => newline? cs

/-- Blanks, comments and line ends between the parts of an array. -/
def skipLines : Nat → List Char → Option (List Char)
  | 0, cs => some cs
  | fuel + 1, cs =>
      match skipBlanks cs with
      | '#' :: rest => do skipLines fuel (← newline? (skipComment ('#' :: rest)))
      | '\n' :: rest => skipLines fuel rest
      | '\r' :: rest => do skipLines fuel (← newline? ('\r' :: rest))
      | cs => some cs

/-! ### Strings -/

def hexValue? (c : Char) : Option Nat :=
  if c.isDigit then some (c.toNat - '0'.toNat)
  else if 'a' ≤ c ∧ c ≤ 'f' then some (c.toNat - 'a'.toNat + 10)
  else if 'A' ≤ c ∧ c ≤ 'F' then some (c.toNat - 'A'.toNat + 10)
  else none

/-- The character with the given hexadecimal digits. -/
def scalar? (digits : List Char) : Option Char := do
  let n := (← digits.mapM hexValue?).foldl (fun n d => 16 * n + d) 0
  if n.isValidChar then some (Char.ofNat n) else none

def unescape? : Char → Option Char
  | 'b' => some '\x08'
  | 't' => some '\t'
  | 'n' => some '\n'
  | 'f' => some '\x0c'
  | 'r' => some '\r'
  | '"' => some '"'
  | '\\' => some '\\'
  | _ => none

/-- A string in quotes, after the opening one. -/
def basic? : Reader (List Char)
  | [] => none
  | '"' :: rest => some ([], rest)
  | '\\' :: 'u' :: a :: b :: c :: d :: rest => do
      let x ← scalar? [a, b, c, d]
      let (s, rest) ← basic? rest
      some (x :: s, rest)
  | '\\' :: 'U' :: a :: b :: c :: d :: e :: f :: g :: h :: rest => do
      let x ← scalar? [a, b, c, d, e, f, g, h]
      let (s, rest) ← basic? rest
      some (x :: s, rest)
  | '\\' :: c :: rest => do
      let x ← unescape? c
      let (s, rest) ← basic? rest
      some (x :: s, rest)
  | c :: rest =>
      if isPrintable c then do
        let (s, rest) ← basic? rest
        some (c :: s, rest)
      else none

/-- A string in apostrophes, after the opening one. -/
def literal? : Reader (List Char)
  | [] => none
  | '\'' :: rest => some ([], rest)
  | c :: rest =>
      if isPrintable c then do
        let (s, rest) ← literal? rest
        some (c :: s, rest)
      else none

def skipNewline (cs : List Char) : List Char := (newline? cs).getD cs

/-- Skips blank lines and the blanks after them; the fuel bounds the lines. -/
def skipBlankLines : Nat → List Char → List Char
  | 0, cs => cs
  | fuel + 1, cs =>
      match newline? (skipBlanks cs) with
      | some rest => skipBlankLines fuel rest
      | none => skipBlanks cs

/-- What follows a backslash at the end of a line: blank lines and leading blanks do not count. -/
def continued? (cs : List Char) : Option (List Char) :=
  (newline? (skipBlanks cs)).map fun rest => skipBlankLines (rest.length + 1) rest

/-- The end of a string between tripled marks: up to two marks before the last three belong to
it. -/
def tripled? (mark : Char) (cs : List Char) : Option (List Char × List Char) :=
  let marks := cs.takeWhile (· = mark)
  if 3 ≤ marks.length ∧ marks.length ≤ 5 then
    some (marks.drop 3, cs.dropWhile (· = mark))
  else none

/-- A string between tripled marks, after the opening ones; escapes count if `escaped`. The fuel
bounds its length. -/
def multiline? (mark : Char) (escaped : Bool) : Nat → Reader (List Char)
  | 0, _ => none
  | fuel + 1, cs =>
      let add (x : List Char) (rest : List Char) := do
        let (s, rest) ← multiline? mark escaped fuel rest
        some (x ++ s, rest)
      match cs with
      | [] => none
      | c :: rest =>
          if c = mark then
            let marks := cs.takeWhile (· = mark)
            if 3 ≤ marks.length then tripled? mark cs
            else add marks (cs.dropWhile (· = mark))
          else if c = '\\' ∧ escaped then
            match rest with
            | 'u' :: a :: b :: c :: d :: rest => do add [← scalar? [a, b, c, d]] rest
            | 'U' :: a :: b :: c :: d :: e :: f :: g :: h :: rest => do
                add [← scalar? [a, b, c, d, e, f, g, h]] rest
            | e :: after =>
                match unescape? e with
                | some x => add [x] after
                | none => do add [] (← continued? rest)
            | [] => none
          else
            match newline? cs with
            | some rest => add ['\n'] rest
            | none => if isPrintable c then add [c] rest else none

def string? : Reader (List Char)
  | '"' :: '"' :: '"' :: rest =>
      let rest := skipNewline rest
      multiline? '"' true (rest.length + 1) rest
  | '"' :: rest => basic? rest
  | '\'' :: '\'' :: '\'' :: rest =>
      let rest := skipNewline rest
      multiline? '\'' false (rest.length + 1) rest
  | '\'' :: rest => literal? rest
  | _ => none

/-! ### Keys -/

def isBare (c : Char) : Bool := c.isAlphanum || c = '_' || c = '-'

def simpleKey? : Reader String
  | '"' :: rest => do
      let (s, rest) ← basic? rest
      some (String.ofList s, rest)
  | '\'' :: rest => do
      let (s, rest) ← literal? rest
      some (String.ofList s, rest)
  | cs =>
      match cs.takeWhile isBare with
      | [] => none
      | s => some (String.ofList s, cs.dropWhile isBare)

/-- The parts of a dotted key, with blanks around each. -/
def keyParts? : Nat → Reader (List String)
  | 0, _ => none
  | fuel + 1, cs => do
      let (k, rest) ← simpleKey? (skipBlanks cs)
      match skipBlanks rest with
      | '.' :: rest => do
          let (ks, rest) ← keyParts? fuel rest
          some (k :: ks, rest)
      | rest => some ([k], rest)

/-- Tables, arrays and keys go this deep at most. -/
def depthLimit : Nat := 80

/-- A dotted key: the way to its table, and the last part. -/
def key? (cs : List Char) : Option ((List String × String) × List Char) := do
  let (parts, rest) ← keyParts? cs.length cs
  if parts.length < depthLimit then some ((parts.dropLast, ← parts.getLast?), rest) else none

/-! ### Numbers -/

/-- Digits, with single underscores between them. -/
def digitRun (isDigit : Char → Bool) : List Char → List Char × List Char
  | '_' :: c :: rest =>
      if isDigit c then
        let (ds, rest) := digitRun isDigit rest
        (c :: ds, rest)
      else ([], '_' :: c :: rest)
  | c :: rest =>
      if isDigit c then
        let (ds, rest) := digitRun isDigit rest
        (c :: ds, rest)
      else ([], c :: rest)
  | [] => ([], [])

/-- One or more digits that start with a digit. -/
def digits? (isDigit : Char → Bool) (cs : List Char) : Option (List Char × List Char) :=
  match cs with
  | c :: _ => if isDigit c then some (digitRun isDigit cs) else none
  | [] => none

def sign (cs : List Char) : Bool × List Char :=
  match cs with
  | '-' :: rest => (true, rest)
  | '+' :: rest => (false, rest)
  | _ => (false, cs)

/-- A decimal integer without its sign. Zero stands alone. -/
def decimal? (cs : List Char) : Option (List Char × List Char) :=
  match cs with
  | '0' :: rest => some (['0'], rest)
  | _ => digits? Char.isDigit cs

def toNat (base : Nat) (digits : List Char) : Nat :=
  digits.foldl (fun n c => base * n + (hexValue? c).getD 0) 0

/-- An integer of 64 bits. -/
def integer? (cs : List Char) : Option (Toml × List Char) := do
  let inRange (n : Int) (rest : List Char) :=
    if Int64.minValue.toInt ≤ n ∧ n ≤ Int64.maxValue.toInt then
      some (Toml.integer n, rest)
    else none
  let based (base : Nat) (isDigit : Char → Bool) (cs : List Char) := do
    let (ds, rest) ← digits? isDigit cs
    inRange (toNat base ds) rest
  match cs with
  | '0' :: 'x' :: rest => based 16 (fun c => (hexValue? c).isSome) rest
  | '0' :: 'o' :: rest => based 8 (fun c => '0' ≤ c ∧ c ≤ '7') rest
  | '0' :: 'b' :: rest => based 2 (fun c => c = '0' || c = '1') rest
  | _ => do
      let (negative, cs) := sign cs
      let (ds, rest) ← decimal? cs
      let n : Int := toNat 10 ds
      inRange (if negative then -n else n) rest

def fraction? (cs : List Char) : Option (List Char × List Char) :=
  match cs with
  | '.' :: rest => digits? Char.isDigit rest
  | _ => none

def exponent? (cs : List Char) : Option (Int × List Char) :=
  match cs with
  | 'e' :: rest | 'E' :: rest => do
      let (negative, rest) := sign rest
      let (ds, rest) ← digits? Char.isDigit rest
      let n : Int := toNat 10 ds
      some (if negative then -n else n, rest)
  | _ => none

/-- The front of a text, up to where the rest begins. -/
def taken (cs rest : List Char) : String := String.ofList (cs.take (cs.length - rest.length))

/-- A float has a fraction, an exponent or both, or is infinite or no number. A positive one must
not be beyond the greatest double. -/
def float? (cs : List Char) : Option (Toml × List Char) := do
  let (negative, body) := sign cs
  match body with
  | 'i' :: 'n' :: 'f' :: rest => some (.float (taken cs rest), rest)
  | 'n' :: 'a' :: 'n' :: rest => some (.float (taken cs rest), rest)
  | _ => do
      let (whole, rest) ← decimal? body
      let (fraction, afterFraction) := (fraction? rest).getD ([], rest)
      let (exponent, afterAll) := (exponent? afterFraction).getD (0, afterFraction)
      if afterAll.length = rest.length then none
      else if !negative &&
          Binary64.overflows (toNat 10 (whole ++ fraction)) (exponent - fraction.length) then none
      else some (.float (taken cs afterAll), afterAll)

/-! ### Dates and times -/

/-- A number of just so many digits, within bounds. -/
def field? (width low high : Nat) (cs : List Char) : Option (Nat × List Char) :=
  let ds := cs.take width
  let n := toNat 10 ds
  if ds.length = width ∧ ds.all Char.isDigit ∧ low ≤ n ∧ n ≤ high then some (n, cs.drop width)
  else none

def char? (c : Char) : List Char → Option (List Char)
  | d :: rest => if c = d then some rest else none
  | [] => none

def daysIn (year month : Nat) : Nat :=
  let leap := year % 4 = 0 ∧ (year % 100 ≠ 0 ∨ year % 400 = 0)
  if month = 2 then (if leap then 29 else 28)
  else if month = 4 ∨ month = 6 ∨ month = 9 ∨ month = 11 then 30
  else 31

def date? (cs : List Char) : Option (List Char) := do
  let (year, cs) ← field? 4 0 9999 cs
  let (month, cs) ← field? 2 1 12 (← char? '-' cs)
  let (_, cs) ← field? 2 1 (daysIn year month) (← char? '-' cs)
  some cs

/-- A time of day. The second may be a leap second. -/
def time? (cs : List Char) : Option (List Char) := do
  let (_, cs) ← field? 2 0 23 cs
  let (_, cs) ← field? 2 0 59 (← char? ':' cs)
  let (_, cs) ← field? 2 0 60 (← char? ':' cs)
  match cs with
  | '.' :: rest =>
      match rest.takeWhile Char.isDigit with
      | [] => some cs
      | _ => some (rest.dropWhile Char.isDigit)
  | _ => some cs

def offset? (cs : List Char) : Option (List Char) :=
  match cs with
  | 'Z' :: rest | 'z' :: rest => some rest
  | '+' :: rest | '-' :: rest => do
      let (_, rest) ← field? 2 0 23 rest
      let (_, rest) ← field? 2 0 59 (← char? ':' rest)
      some rest
  | _ => none

/-- The time after a date, with or without an offset. -/
def timeAfterDate? (cs : List Char) : Option (List Char) :=
  match cs with
  | 'T' :: rest | 't' :: rest | ' ' :: rest => do
      let rest ← time? rest
      some ((offset? rest).getD rest)
  | _ => none

/-- A date, a time, or both; an offset only after both. -/
def dateTime? (cs : List Char) : Option (Toml × List Char) := do
  let rest ←
    match date? cs with
    | some rest => some ((timeAfterDate? rest).getD rest)
    | none => time? cs
  some (.dateTime (taken cs rest), rest)

/-! ### Values -/

/-- The elements of an array up to its bracket; a comma may follow the last. -/
def elements? (element : Reader Toml) : Nat → Reader (List Toml)
  | 0, _ => none
  | fuel + 1, cs => do
      match ← skipLines cs.length cs with
      | ']' :: rest => some ([], rest)
      | cs => do
          let (v, rest) ← element cs
          match ← skipLines rest.length rest with
          | ']' :: rest => some ([v], rest)
          | ',' :: rest => do
              let (vs, rest) ← elements? element fuel rest
              some (v :: vs, rest)
          | _ => none

/-- A key and its value. -/
def entry? (value : Reader Toml) (cs : List Char) :
    Option ((List String × String × Toml) × List Char) := do
  let ((path, key), rest) ← key? cs
  let (v, rest) ← value (skipBlanks (← char? '=' rest))
  some ((path, key, v), rest)

/-- The entries of a table in braces, of which there is at least one, and no comma after the
last. -/
def inlineEntries? (value : Reader Toml) (es : Entries) : Nat → Reader Entries
  | 0, _ => none
  | fuel + 1, cs => do
      let ((path, key, v), rest) ← entry? value cs
      let es ← es.put? true path key v
      match skipBlanks rest with
      | '\x7d' :: rest => some (es, rest)
      | ',' :: rest => inlineEntries? value es fuel rest
      | _ => none

/-- A value with fewer than `depth` containers open at once. -/
def value? : Nat → Reader Toml
  | depth, cs =>
      match cs with
      | '"' :: _ | '\'' :: _ => do
          let (s, rest) ← string? cs
          some (.string (String.ofList s), rest)
      | 't' :: 'r' :: 'u' :: 'e' :: rest => some (.bool true, rest)
      | 'f' :: 'a' :: 'l' :: 's' :: 'e' :: rest => some (.bool false, rest)
      | '[' :: rest =>
          match depth with
          | 0 => none
          | depth + 1 => do
              let (vs, rest) ← elements? (value? depth) (rest.length + 1) rest
              some (.array vs, rest)
      | '\x7b' :: rest =>
          match depth with
          | 0 => none
          | depth + 1 =>
              match skipBlanks rest with
              | '\x7d' :: rest => some (.inline [], rest)
              | rest => do
                  let (es, rest) ← inlineEntries? (value? depth) [] (rest.length + 1) rest
                  some (.inline es, rest)
      | _ => ((dateTime? cs).or (float? cs)).or (integer? cs)

/-! ### Documents -/

/-- The table that entries are added to, and the document so far. -/
structure Draft where
  path : List String
  entries : Entries

/-- A header: the table it opens, by `opened`. -/
def header? (d : Draft) (opened : String → Entries → Option Entries) (close : List Char)
    (cs : List Char) : Option (Draft × List Char) := do
  let ((path, key), rest) ← key? cs
  let rest ← close.foldlM (fun rest c => char? c rest) rest
  let entries ← d.entries.updateAt? (opened key) path
  some (⟨path ++ [key], entries⟩, ← lineEnd? rest)

def statement? (d : Draft) (cs : List Char) : Option (Draft × List Char) :=
  match cs with
  | '[' :: '[' :: rest => header? d Entries.openElement? [']', ']'] rest
  | '[' :: rest => header? d Entries.openTable? [']'] rest
  | _ => do
      let ((path, key, v), rest) ← entry? (value? (depthLimit - 1)) cs
      let entries ← d.entries.updateAt? (fun es => es.put? true path key v) d.path
      some (⟨d.path, entries⟩, ← lineEnd? rest)

/-- Statements to the end of the text; each takes a character of fuel. -/
def statements? : Nat → Draft → List Char → Option Entries
  | fuel, d, cs =>
      match fuel, skipBlanks cs with
      | _, [] => some d.entries
      | 0, _ => none
      | fuel + 1, c :: rest =>
          if c = '#' ∨ c = '\n' ∨ c = '\r' then do
            statements? fuel d (← lineEnd? (c :: rest))
          else do
            let (d, rest) ← statement? d (c :: rest)
            statements? fuel d rest

/-- The top level of a document. A byte order mark before it does not count. -/
def parse? (text : String) : Option Entries :=
  let cs :=
    match text.toList with
    | '\uFEFF' :: rest => rest
    | cs => cs
  statements? cs.length ⟨[], []⟩ cs

end LoanScope.Toml
