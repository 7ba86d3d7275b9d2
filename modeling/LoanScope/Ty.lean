import LoanScope.CType

/-! Types as the checker sees them: builtins, and references with a borrow kind and a region. -/

namespace LoanScope

/-- A region, by its position. -/
abbrev RegionId := Nat

def RegionId.text (r : RegionId) : String := s!"'{r}"

inductive BorrowKind where
  | shared | mutable
deriving DecidableEq, Repr

namespace BorrowKind

def text : BorrowKind → String
  | shared => "shared"
  | mutable => "mutable"

end BorrowKind

inductive Ty where
  | builtin (kind : Builtin) (isConst : Bool)
  | ref (kind : BorrowKind) (pointee : Ty) (region : Option RegionId) (isConst isRestrict : Bool)
deriving DecidableEq, Repr

namespace Ty

def isConst : Ty → Bool
  | builtin _ c => c
  | ref _ _ _ c _ => c

def isRestrict : Ty → Bool
  | builtin _ _ => false
  | ref _ _ _ _ r => r

def isRef : Ty → Bool
  | builtin _ _ => false
  | ref _ _ _ _ _ => true

/-- Values without references are copied, all others move. -/
def isCopyable (t : Ty) : Bool := !t.isRef

def kind? : Ty → Option BorrowKind
  | builtin _ _ => none
  | ref k _ _ _ _ => some k

def pointee? : Ty → Option Ty
  | builtin _ _ => none
  | ref _ p _ _ _ => some p

/-- The region of the outermost reference. -/
def region? : Ty → Option RegionId
  | builtin _ _ => none
  | ref _ _ r _ _ => r

/-- The regions of all levels that have one, outermost first. -/
def regions : Ty → List RegionId
  | builtin _ _ => []
  | ref _ p r _ _ => r.toList ++ p.regions

/-- The number of reference levels. -/
def depth : Ty → Nat
  | builtin _ _ => 0
  | ref _ p _ _ _ => p.depth + 1

/-- Gives every level a region, counting from `next` at the innermost. -/
def number (next : RegionId) : Ty → Ty
  | builtin k c => builtin k c
  | ref k p _ c r => ref k (p.number next) (some (next + p.depth)) c r

def text : Ty → String
  | builtin k c => (if c then "const " else "") ++ k.spelling
  | ref _ p _ c r => p.text ++ " *" ++ (if c then " const" else "") ++
      (if r then " restrict" else "")

end Ty

end LoanScope
