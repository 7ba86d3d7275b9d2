/-! Operators of C expressions. -/

namespace LoanScope

inductive BinaryOp where
  | assign | add | sub | mul | div | rem | lt | le | gt | ge | eq | ne | and | or
  | bitAnd | bitOr | bitXor | shl | shr
deriving DecidableEq, Repr

namespace BinaryOp

def all : List BinaryOp :=
  [assign, add, sub, mul, div, rem, lt, le, gt, ge, eq, ne, and, or,
    bitAnd, bitOr, bitXor, shl, shr]

def name : BinaryOp → String
  | assign => "assign"
  | add => "add"
  | sub => "sub"
  | mul => "mul"
  | div => "div"
  | rem => "rem"
  | lt => "lt"
  | le => "le"
  | gt => "gt"
  | ge => "ge"
  | eq => "eq"
  | ne => "ne"
  | and => "and"
  | or => "or"
  | bitAnd => "bit_and"
  | bitOr => "bit_or"
  | bitXor => "bit_xor"
  | shl => "shl"
  | shr => "shr"

def spelling : BinaryOp → String
  | assign => "="
  | add => "+"
  | sub => "-"
  | mul => "*"
  | div => "/"
  | rem => "%"
  | lt => "<"
  | le => "<="
  | gt => ">"
  | ge => ">="
  | eq => "=="
  | ne => "!="
  | and => "&&"
  | or => "||"
  | bitAnd => "&"
  | bitOr => "|"
  | bitXor => "^"
  | shl => "<<"
  | shr => ">>"

def ofName? (s : String) : Option BinaryOp := all.find? (·.name = s)

end BinaryOp

inductive UnaryOp where
  | addrOf | deref | neg | plus | not | bitNot
deriving DecidableEq, Repr

namespace UnaryOp

def all : List UnaryOp := [addrOf, deref, neg, plus, not, bitNot]

def name : UnaryOp → String
  | addrOf => "addr_of"
  | deref => "deref"
  | neg => "neg"
  | plus => "plus"
  | not => "not"
  | bitNot => "bit_not"

def spelling : UnaryOp → String
  | addrOf => "&"
  | deref => "*"
  | neg => "-"
  | plus => "+"
  | not => "!"
  | bitNot => "~"

def ofName? (s : String) : Option UnaryOp := all.find? (·.name = s)

end UnaryOp

end LoanScope
