import LoanScope.Binary64

/-! JSON values and their text. An object keeps its members in order, repeated keys included;
an integer and a double are different numbers even when their values agree. -/

namespace LoanScope

inductive Json where
  | null
  | bool (value : Bool)
  | int (value : Int)
  | float (value : Binary64)
  | str (value : String)
  | arr (elements : List Json)
  | obj (members : List (String × Json))
deriving Inhabited

namespace Json

mutual

/-- Containers open at once in a value. -/
def depth : Json → Nat
  | arr elements => depthElements elements + 1
  | obj members => depthMembers members + 1
  | _ => 0

def depthElements : List Json → Nat
  | [] => 0
  | v :: rest => max (depth v) (depthElements rest)

def depthMembers : List (String × Json) → Nat
  | [] => 0
  | (_, v) :: rest => max (depth v) (depthMembers rest)

end

/-! ### Text -/

/-- A character inside quotes. Control characters are escaped, by a letter where there is one. -/
def escape (c : Char) : List Char :=
  if c = '"' then ['\\', '"']
  else if c = '\\' then ['\\', '\\']
  else if c = '\n' then ['\\', 'n']
  else if c = '\r' then ['\\', 'r']
  else if c = '\t' then ['\\', 't']
  else if c = '\x08' then ['\\', 'b']
  else if c = '\x0c' then ['\\', 'f']
  else if c.toNat < 0x20 then
    ['\\', 'u', '0', '0', Nat.digitChar (c.toNat / 16), Nat.digitChar (c.toNat % 16)]
  else [c]

def quote (s : String) : String :=
  String.ofList ('"' :: s.toList.flatMap escape ++ ['"'])

/-- Where the parts of a container go: on one line, or each on a line of its own. -/
structure Layout where
  /-- What stands before a part that lies in this many containers. -/
  lead : Nat → String
  colon : String

def Layout.compact : Layout := ⟨fun _ => "", ":"⟩

/-- Two spaces for each container. -/
def Layout.pretty : Layout :=
  ⟨fun level => "\n" ++ String.ofList (List.replicate (2 * level) ' '), ": "⟩

mutual

def textAt (layout : Layout) (level : Nat) : Json → String
  | null => "null"
  | bool true => "true"
  | bool false => "false"
  | int n => toString n
  | float x => x.text
  | str s => quote s
  | arr [] => "[]"
  | arr (v :: rest) =>
      "[" ++ layout.lead (level + 1) ++ textAt layout (level + 1) v ++
        elementsText layout (level + 1) rest ++ layout.lead level ++ "]"
  | obj [] => "\x7b\x7d"
  | obj ((k, v) :: rest) =>
      "\x7b" ++ layout.lead (level + 1) ++ quote k ++ layout.colon ++
        textAt layout (level + 1) v ++ membersText layout (level + 1) rest ++
        layout.lead level ++ "\x7d"

/-- The elements after the first. -/
def elementsText (layout : Layout) (level : Nat) : List Json → String
  | [] => ""
  | v :: rest =>
      "," ++ layout.lead level ++ textAt layout level v ++ elementsText layout level rest

/-- The members after the first. -/
def membersText (layout : Layout) (level : Nat) : List (String × Json) → String
  | [] => ""
  | (k, v) :: rest =>
      "," ++ layout.lead level ++ quote k ++ layout.colon ++ textAt layout level v ++
        membersText layout level rest

end

def compress (v : Json) : String := v.textAt .compact 0

def pretty (v : Json) : String := v.textAt .pretty 0

/-! ### Building -/

def ofNat (n : Nat) : Json := int n

def ofOption {α : Type} (f : α → Json) : Option α → Json
  | none => null
  | some a => f a

def ofList {α : Type} (f : α → Json) (l : List α) : Json := arr (l.map f)

def strings (l : List String) : Json := ofList str l

def nats (l : List Nat) : Json := ofList ofNat l

end Json

end LoanScope
