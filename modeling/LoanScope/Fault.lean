import LoanScope.Operator
import LoanScope.Span
import LoanScope.Ty

/-! What the checker refuses, and how it says so. -/

namespace LoanScope

/-- An expression that names no place. -/
inductive NonPlace where
  | literal
  | derefOfLiteral
  | memberOfLiteral
  | unary (op : UnaryOp)
  | binary
  | call
deriving DecidableEq, Repr

def NonPlace.text : NonPlace → String
  | literal => "literal"
  | derefOfLiteral => "dereferenced literal"
  | memberOfLiteral => "member of a literal"
  | unary op => s!"unary `{op.spelling}` expression"
  | binary => "binary operation"
  | call => "call"

/-- Constructs outside the checked part of the language. -/
inductive Unsupported where
  | switchStatement
  | elaboratedType (keyword : TagKeyword) (name : String)
  | parenthesizedExpression
  | lvalue (expression : NonPlace)
  | memberType (field : String)
deriving DecidableEq, Repr

def Unsupported.text : Unsupported → String
  | switchStatement => "`switch` statements are not supported"
  | elaboratedType keyword name => s!"elaborated type `{keyword.name} {name}` is not supported"
  | parenthesizedExpression => "parenthesized expressions are not supported here"
  | lvalue e => s!"{e.text} cannot be used as an lvalue"
  | memberType field => s!"member `{field}` of an aggregate cannot be typed"

inductive TypeError where
  | constRestrictPointer
  | restrictOnNonPointer
  | copyabilityMismatch (dest src : Ty)
  | borrowIntoNonReference (ty : Ty)
  | derefOfNonReference (ty : Ty)
  | unknownDeclaration (name : String)
deriving DecidableEq, Repr

def TypeError.text : TypeError → String
  | constRestrictPointer => "cannot have a restrict pointer to a const type"
  | restrictOnNonPointer => "restrict qualifier requires a pointer type"
  | copyabilityMismatch dest src =>
      s!"cannot assign `{src.text}` to `{dest.text}`: copyable and non-copyable types do not mix"
  | borrowIntoNonReference ty => s!"cannot borrow into non-reference type `{ty.text}`"
  | derefOfNonReference ty => s!"cannot dereference non-reference type `{ty.text}`"
  | unknownDeclaration name => s!"`{name}` has no registered declaration"

inductive Cause where
  | unsupported (construct : Unsupported)
  | type (error : TypeError)
  /-- An address is taken where nothing receives it, so its borrow kind is unknown. -/
  | borrowWithoutDestination
deriving DecidableEq, Repr

/-- A cause and where it arose. -/
structure Fault where
  cause : Cause
  span : FileSpan
deriving DecidableEq, Repr

def Fault.message (f : Fault) : String :=
  match f.cause with
  | .unsupported u => s!"unsupported construct at {f.span.text}: {u.text}"
  | .type e => s!"type error at {f.span.text}: {e.text}"
  | .borrowWithoutDestination =>
      s!"precondition violated at {f.span.text}: " ++
        "address-of expression has no enclosing assignment to take its borrow kind from"

end LoanScope
