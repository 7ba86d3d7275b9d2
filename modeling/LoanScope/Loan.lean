import LoanScope.Place

/-! Loans, and the accesses that respect or violate them. -/

namespace LoanScope

/-- A loan, by its position. -/
abbrev LoanId := Nat

def LoanId.text (l : LoanId) : String := s!"L{l}"

/-- A place lent to a reference. -/
structure Loan where
  id : LoanId
  region : RegionId
  kind : BorrowKind
  /-- The type of the reference that receives the address. -/
  declaredTy : Ty
  place : Place
  placeTy : Ty
  /-- The node and the address-of expression that make the loan. -/
  origin : NodeId
  expr : ExprId
  span : FileSpan

inductive Mode where
  | read | write
deriving DecidableEq, Repr

inductive Reach where
  | shallow | deep
deriving DecidableEq, Repr

/-- A use of a place: of its own value only, or of all that is reached from it. -/
structure Access where
  place : Place
  mode : Mode
  reach : Reach
deriving DecidableEq, Repr

namespace Access

def isShallowWrite (a : Access) : Bool := a.mode = .write && a.reach = .shallow

/-- Whether an access touches what a loan of `place` lends. -/
def touches (a : Access) (place : Place) : Bool :=
  match a.reach with
  | .deep => a.place.overlaps place
  | .shallow => place.isPrefixOf a.place

/-- Whether an access is at odds with a loan: it touches the lent place, and one of the two
writes. -/
def conflicts (a : Access) (l : Loan) : Bool :=
  a.touches l.place && (a.mode = .write || l.kind = .mutable)

def text (a : Access) : String :=
  (match a.reach with
    | .shallow => "shallow "
    | .deep => "deep ") ++
    (match a.mode with
    | .read => "read "
    | .write => "write ") ++ a.place.text

end Access

/-- How a value passes from one place to another. -/
inductive TransferKind where
  | copy | move
deriving DecidableEq, Repr

/-- Builtin values are copied and references move; the two do not mix. -/
def TransferKind.classify (dest src : Ty) : Except TypeError TransferKind :=
  match dest.isCopyable, src.isCopyable with
  | true, true => .ok .copy
  | false, false => .ok .move
  | _, _ => .error (.copyabilityMismatch dest src)

/-- A place with its type. -/
structure TypedPlace where
  place : Place
  ty : Ty
deriving DecidableEq, Repr

structure Transfer where
  dest : TypedPlace
  src : TypedPlace
deriving DecidableEq, Repr

def Transfer.text (t : Transfer) : String := s!"{t.dest.place.text} = {t.src.place.text}"

/-- What is assigned to a reference. -/
inductive Source where
  | borrow (loan : LoanId)
  | place (src : TypedPlace)
  | call (args : List TypedPlace)
deriving DecidableEq, Repr

structure Assignment where
  dest : TypedPlace
  source : Source
deriving DecidableEq, Repr

end LoanScope
