import LoanScope.Fixture
import LoanScope.Graph
import LoanScope.NameTable
import LoanScope.Place

/-! Functions ready to be checked: every variable is bound to its declaration, and types,
expressions, declarations and statements are numbered. A numbered part carries its number, and is
also found under it in the function's body. -/

namespace LoanScope

/-- A type and a statement, by their positions. -/
abbrev TypeId := Nat
abbrev StmtId := Nat

/-- A type and its number. -/
structure TypeRef where
  id : TypeId
  ty : CType
deriving DecidableEq

inductive Expr where
  | lit (id : ExprId) (span : FileSpan) (value : Literal)
  | binary (id : ExprId) (span : FileSpan) (op : BinaryOp) (left right : Expr)
  | unary (id : ExprId) (span : FileSpan) (op : UnaryOp) (operand : Expr)
  | call (id : ExprId) (span : FileSpan) (callee : String) (args : List Expr) (ty : Option TypeRef)
  | var (id : ExprId) (span : FileSpan) (target : Variable)
  | paren (id : ExprId) (span : FileSpan) (inner : Expr)
  | member (id : ExprId) (span : FileSpan) (base : Expr) (field : String) (arrow : Bool)

namespace Expr

def id : Expr → ExprId
  | lit i .. | binary i .. | unary i .. | call i .. | var i .. | paren i .. | member i .. => i

def span : Expr → FileSpan
  | lit _ s .. | binary _ s .. | unary _ s .. | call _ s .. | var _ s .. | paren _ s ..
  | member _ s .. => s

def children : Expr → List Expr
  | lit .. | var .. => []
  | binary _ _ _ left right => [left, right]
  | unary _ _ _ operand => [operand]
  | call _ _ _ args _ => args
  | paren _ _ inner => [inner]
  | member _ _ base _ _ => [base]

def isVar : Expr → Bool
  | var .. => true
  | _ => false

def isDeref : Expr → Bool
  | unary _ _ .deref _ => true
  | _ => false

def kindName : Expr → String
  | lit .. => "literal"
  | binary .. => "binary operation"
  | unary .. => "unary operation"
  | call .. => "call"
  | var .. => "variable reference"
  | paren .. => "parenthesized expression"
  | member .. => "member access"

end Expr

structure Decl where
  id : DeclId
  name : String
  ty : TypeRef
  init : Option Expr
  isParam : Bool
  span : FileSpan

def Decl.variable (d : Decl) : Variable := ⟨d.id, d.name⟩

inductive Stmt where
  | decl (id : StmtId) (d : Decl)
  | expr (id : StmtId) (e : Expr)
  | label (id : StmtId) (name : String) (span : FileSpan)

def Stmt.id : Stmt → StmtId
  | decl i _ => i
  | expr i _ => i
  | label i _ _ => i

/-- What a node does. -/
inductive Step where
  | start
  | finish
  | instructions (stmts : List Stmt)
  | branch (cond : Expr)
  | loop (cond : Expr)
  | ret (value : Option Expr) (span : FileSpan)
  | switch (discriminant : Expr) (span : FileSpan)
  | jump

def Step.kind : Step → NodeKind
  | start => .start
  | finish => .finish
  | instructions _ => .instructions
  | branch _ => .branch
  | loop _ => .loop
  | ret _ _ => .ret
  | switch _ _ => .switch
  | jump => .jump

structure Node where
  step : Step
  liveIn : List String
  liveOut : List String

/-- A type in a body. What it is built from is given by its number. -/
inductive TypeEntry where
  | builtin (kind : Builtin)
  | pointer (pointee : TypeId)
  | qualified (qualifiers : Qualifiers) (inner : TypeId)
  | typedef (name : String) (underlying : TypeId)
  | elaborated (keyword : TagKeyword) (name : String)
deriving DecidableEq, Repr

/-- The type of an entry, where `type?` finds types by their numbers. -/
def TypeEntry.build? (type? : TypeId → Option CType) : TypeEntry → Option CType
  | builtin kind => some (.builtin kind)
  | pointer pointee => (type? pointee).map .pointer
  | qualified qualifiers inner => (type? inner).map (.qualified qualifiers)
  | typedef name underlying => (type? underlying).map (.typedef name)
  | elaborated keyword name => some (.elaborated keyword name)

/-- All numbered parts, each at its number. -/
structure Body where
  types : Array TypeEntry
  exprs : Array Expr
  decls : Array Decl
  stmts : Array Stmt

namespace Body

def empty : Body := ⟨#[], #[], #[], #[]⟩

/-- The type with a number, put together by the numbers in its entry. These have to be smaller. -/
def typeAt? (b : Body) (i : TypeId) : Option CType :=
  b.types[i]? >>= TypeEntry.build? fun j => if j < i then b.typeAt? j else none
termination_by i

/-- Adds an entry for a type, with the next number. -/
def pushType (b : Body) (entry : TypeEntry) : TypeId × Body :=
  (b.types.size, { b with types := b.types.push entry })

/-- Adds the entries of a type, after those of what it is built from. -/
def placeType (b : Body) : CType → TypeId × Body
  | .builtin kind => b.pushType (.builtin kind)
  | .pointer pointee =>
      let (pointee, b) := b.placeType pointee
      b.pushType (.pointer pointee)
  | .qualified qualifiers inner =>
      let (inner, b) := b.placeType inner
      b.pushType (.qualified qualifiers inner)
  | .typedef name underlying =>
      let (underlying, b) := b.placeType underlying
      b.pushType (.typedef name underlying)
  | .elaborated keyword name => b.pushType (.elaborated keyword name)

def addType (b : Body) (t : CType) : TypeRef × Body :=
  let (id, b) := b.placeType t
  (⟨id, t⟩, b)

/-- Adds an expression, built for the next number. -/
def addExpr (b : Body) (make : ExprId → Expr) : Expr × Body :=
  let e := make b.exprs.size
  (e, { b with exprs := b.exprs.push e })

/-- Adds a declaration, built for the next number. -/
def addDecl (b : Body) (make : DeclId → Decl) : Decl × Body :=
  let d := make b.decls.size
  (d, { b with decls := b.decls.push d })

/-- Adds a statement, built for the next number. -/
def addStmt (b : Body) (make : StmtId → Stmt) : Stmt × Body :=
  let s := make b.stmts.size
  (s, { b with stmts := b.stmts.push s })

end Body

structure Function where
  name : String
  file : FileId
  params : List Decl
  returnTy : Option TypeRef
  nodes : List Node
  graph : Graph
  body : Body
  /-- All names that the function mentions. -/
  names : NameTable

/-- The function as a whole has no place in the text. -/
def Function.span (f : Function) : FileSpan := .detached f.file

end LoanScope
