import LoanScope.Binary64
import LoanScope.CType
import LoanScope.Operator
import LoanScope.Span

/-! Functions as they are handed to the checker: statements and liveness per graph node, with
variables given by name. -/

namespace LoanScope

inductive Literal where
  | int (value : Int64)
  | float (value : Binary64)
  | bool (value : Bool)
  | char (value : Char)
deriving DecidableEq

namespace Fixture

inductive Expr where
  | lit (value : Literal)
  | var (name : String)
  | assign (left right : Expr)
  | binary (op : BinaryOp) (left right : Expr)
  | addrOf (operand : Expr)
  | deref (operand : Expr)
  | unary (op : UnaryOp) (operand : Expr)
  | call (callee : String) (args : List Expr) (ty : Option CType)
  | paren (inner : Expr)
  | member (base : Expr) (field : String) (arrow : Bool)

inductive Stmt where
  | decl (name : String) (ty : CType) (init : Option Expr)
  | expr (e : Expr)
  | label (name : String)

/-- What a node does. -/
inductive Body where
  | start
  | finish
  | instructions (stmts : List Stmt)
  | branch (cond : Expr)
  | loop (cond : Expr)
  | ret (value : Option Expr)
  | switch (discriminant : Expr)
  | jump

structure Node where
  id : UInt32
  body : Body
  succ : List UInt32
  liveIn : List String
  liveOut : List String
  span : Option Span

structure Param where
  name : String
  ty : CType

end Fixture

/-- A function to be checked. -/
structure Fixture where
  name : String
  params : List Fixture.Param
  returnTy : Option CType
  start : UInt32
  nodes : List Fixture.Node

end LoanScope
