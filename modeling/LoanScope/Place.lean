import LoanScope.Fault
import LoanScope.Region

/-! Places: what an lvalue names. A place is a variable followed by dereferences and members. -/

namespace LoanScope

/-- A declared variable. -/
structure Variable where
  decl : DeclId
  name : String
deriving DecidableEq, Repr

inductive Place where
  | var (v : Variable)
  | deref (base : Place)
  | member (base : Place) (field : String)
deriving DecidableEq, Repr

namespace Place

def base? : Place → Option Place
  | var _ => none
  | deref p => some p
  | member p _ => some p

def root : Place → Variable
  | var v => v
  | deref p => p.root
  | member p _ => p.root

/-- The place itself, its base, the base of that, down to the variable. -/
def prefixes : Place → List Place
  | var v => [var v]
  | deref p => deref p :: p.prefixes
  | member p f => member p f :: p.prefixes

/-- Whether `q` is reached from `p` by dereferences and members. -/
def isPrefixOf (p q : Place) : Bool := p ∈ q.prefixes

/-- Whether one place lies within the other. -/
def overlaps (p q : Place) : Bool := p.isPrefixOf q || q.isPrefixOf p

/-- C syntax, without parentheses; a member of a dereference is written with an arrow. -/
def text : Place → String
  | var v => v.name
  | deref p => "*" ++ p.text
  | member (deref p) f => p.text ++ "->" ++ f
  | member p f => p.text ++ "." ++ f

end Place

/-- The types of declared variables, in the order of declaration. -/
structure Declared where
  entries : List (Variable × Ty)

namespace Declared

def empty : Declared := ⟨[]⟩

def add (d : Declared) (v : Variable) (ty : Ty) : Declared := ⟨d.entries ++ [(v, ty)]⟩

/-- The number of declarations; one that is declared again counts once. -/
def size (d : Declared) : Nat := (d.entries.map (·.1.decl)).eraseDups.length

/-- The type of a declaration, the last one if it is declared again. -/
def get? (d : Declared) (decl : DeclId) : Option Ty :=
  (d.entries.findRev? (·.1.decl = decl)).map Prod.snd

/-- The types of all variables of a name. -/
def named (d : Declared) (name : String) : List Ty :=
  (d.entries.filter (·.1.name = name)).map Prod.snd

end Declared

/-- The type of a place. Members have none, since aggregates are not modelled. -/
def Place.typeIn (d : Declared) : Place → Except Cause Ty
  | var v =>
      match d.get? v.decl with
      | some ty => .ok ty
      | none => .error (.type (.unknownDeclaration v.name))
  | deref p => do
      match ← p.typeIn d with
      | .ref _ pointee _ _ _ => .ok pointee
      | ty => .error (.type (.derefOfNonReference ty))
  | member _ f => .error (.unsupported (.memberType f))

end LoanScope
