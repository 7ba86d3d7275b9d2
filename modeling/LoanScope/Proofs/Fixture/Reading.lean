import LoanScope.Function.OfFixture
import LoanScope.Loan
import Mathlib.Logic.Relation

/-! How a fixture reads: what its names mean, which places its expressions name, and what its
statements assign, lend and overwrite. Nodes are read by ascending id, and a name means its last
declaration. -/

namespace LoanScope.Fixture

/-! ### Nodes -/

def nodeAt? (f : Fixture) (n : NodeId) : Option Node := f.nodes.find? (·.id.toNat = n)

/-- The walk `w 0 → w 1 → ... → w k`. -/
def IsWalk (f : Fixture) (w : Nat → NodeId) (k : Nat) : Prop := ∀ i < k, (w i, w (i + 1)) ∈ f.edges

/-- Some walk, possibly without a step, leads from the start to the node. -/
def Reaches (f : Fixture) (n : NodeId) : Prop :=
  Relation.ReflTransGen (fun a b => (a, b) ∈ f.edges) f.start.toNat n

/-! ### Names -/

def Stmt.declares : Stmt → List String
  | decl name _ _ => [name]
  | _ => []

def Body.stmts : Body → List Stmt
  | instructions stmts => stmts
  | _ => []

/-- The names that a node declares, in order. -/
def Body.declares (b : Body) : List String := b.stmts.flatMap Stmt.declares

/-- The statements of a node. -/
def stmtsAt (f : Fixture) (n : NodeId) : List Stmt := ((f.nodeAt? n).map (·.body.stmts)).getD []

def liveAt (f : Fixture) (n : NodeId) : List String := ((f.nodeAt? n).map Node.liveIn).getD []

/-- The names declared before a node is read: the parameters, then those of the nodes before it. -/
def declaredAt (f : Fixture) (n : NodeId) : List String :=
  f.params.map Param.name ++ (f.sortedNodes.take n).flatMap (·.body.declares)

/-- The names declared before statement `i` of a node is read. -/
def declaredBefore (f : Fixture) (n : NodeId) (i : Nat) : List String :=
  f.declaredAt n ++ ((f.stmtsAt n).take i).flatMap Stmt.declares

/-- All names that are declared, in order. -/
def declaredNames (f : Fixture) : List String :=
  f.params.map Param.name ++ f.sortedNodes.flatMap (·.body.declares)

/-- What a name means after some declarations: the last of them with this name. A variable is known
by the position of its declaration. -/
structure Means (names : List String) (x : String) (v : Variable) : Prop where
  name_eq : v.name = x
  declared : names[v.decl]? = some x
  last : ∀ j, v.decl < j → names[j]? ≠ some x

/-- The variable that the next declaration makes. -/
def nextVariable (names : List String) (x : String) : Variable := ⟨names.length, x⟩

/-! ### Expressions -/

/-- The expression names a place. -/
inductive Expr.Denotes (names : List String) : Expr → Place → Prop where
  | var {x v} (h : Means names x v) : Denotes names (.var x) (.var v)
  | deref {e p} (h : Denotes names e p) : Denotes names (.deref e) p.deref
  | unaryDeref {e p} (h : Denotes names e p) : Denotes names (.unary .deref e) p.deref
  | dot {e p field} (h : Denotes names e p) : Denotes names (.member e field false) (p.member field)
  | arrow {e p field} (h : Denotes names e p) :
      Denotes names (.member e field true) (p.deref.member field)
  | paren {e p} (h : Denotes names e p) : Denotes names (.paren e) p

/-- The expression is the address of another. -/
inductive Expr.IsAddressOf (operand : Expr) : Expr → Prop where
  | addrOf : IsAddressOf operand (.addrOf operand)
  | unary : IsAddressOf operand (.unary .addrOf operand)

/-- The expression assigns `right` to `left`. -/
inductive Expr.IsAssignment (left right : Expr) : Expr → Prop where
  | assign : IsAssignment left right (.assign left right)
  | binary : IsAssignment left right (.binary .assign left right)

def Expr.children : Expr → List Expr
  | .lit _ | .var _ => []
  | .assign left right | .binary _ left right => [left, right]
  | .addrOf e | .deref e | .unary _ e | .paren e | .member e _ _ => [e]
  | .call _ args _ => args

/-- Somewhere in the expression a place is overwritten. -/
inductive Expr.Writes (names : List String) : Expr → Place → Prop where
  | here {e left right : Expr} {p} (h : left.IsAssignment right e) (hleft : left.Denotes names p) :
      Writes names e p
  | inside {e child : Expr} {p} (hchild : child ∈ e.children) (h : Writes names child p) :
      Writes names e p

/-- The operands that an expression lends, in order. Operands that must be places lend nothing. -/
def Expr.lends : Expr → List Expr
  | .addrOf operand | .unary .addrOf operand => [operand]
  | .deref _ | .unary .deref _ => []
  | .unary _ e => e.lends
  | .assign left right | .binary _ left right => left.lends ++ right.lends
  | _ => []

/-! ### Statements and nodes -/

/-- The statement as a whole gives a place a value: it initialises a variable, or it is an
assignment. -/
inductive Stmt.Assigns (names : List String) : Stmt → Place → Expr → Prop where
  | decl {x ty init} : Assigns names (.decl x ty (some init)) (.var (nextVariable names x)) init
  | expr {e left right : Expr} {p} (h : left.IsAssignment right e) (hleft : left.Denotes names p) :
      Assigns names (.expr e) p right

/-- The statement overwrites a place, as a whole or somewhere in it. -/
inductive Stmt.Writes (names : List String) : Stmt → Place → Prop where
  | decl {x ty init} : Writes names (.decl x ty (some init)) (.var (nextVariable names x))
  | init {x ty init p} (h : init.Writes names p) : Writes names (.decl x ty (some init)) p
  | expr {e p} (h : e.Writes names p) : Writes names (.expr e) p

def Stmt.lends : Stmt → List Expr
  | decl _ _ init => init.toList.flatMap Expr.lends
  | expr e => e.lends
  | label _ => []

/-- The expression of a node that is no list of statements. -/
def Body.expr? : Body → Option Expr
  | branch e | loop e | switch e => some e
  | ret value => value
  | _ => none

def Body.lends (b : Body) : List Expr :=
  b.stmts.flatMap Stmt.lends ++ b.expr?.toList.flatMap Expr.lends

/-- One of the statements overwrites a place. -/
def Stmt.ListWrites (names : List String) (stmts : List Stmt) (p : Place) : Prop :=
  ∃ i stmt, stmts[i]? = some stmt ∧ Stmt.Writes (names ++ (stmts.take i).flatMap declares) stmt p

/-- A statement or the expression of a node overwrites a place. -/
def Body.Writes (names : List String) (b : Body) (p : Place) : Prop :=
  Stmt.ListWrites names b.stmts p ∨ ∃ e, b.expr? = some e ∧ e.Writes names p

/-- The node overwrites a place. -/
def Writes (f : Fixture) (n : NodeId) (p : Place) : Prop :=
  ∃ node, f.nodeAt? n = some node ∧ node.body.Writes (f.declaredAt n) p

/-- What is lent before statement `i` of a node is read. -/
def lentBefore (f : Fixture) (n : NodeId) (i : Nat) : List Expr :=
  (f.sortedNodes.take n).flatMap (·.body.lends) ++ ((f.stmtsAt n).take i).flatMap Stmt.lends

/-- The number of the first loan that statement `i` of a node makes, if it makes one. -/
def nextLoan (f : Fixture) (n : NodeId) (i : Nat) : LoanId := (f.lentBefore n i).length

/-- The variables that may hold the value given to `v`: itself, and those that are given the value
of one that may hold it, anywhere in the function. -/
inductive Holder (f : Fixture) (v : Variable) : Variable → Prop where
  | self : Holder f v v
  | passed {u w n i x} {stmt : Stmt} (hu : Holder f v u) (hstmt : (f.stmtsAt n)[i]? = some stmt)
      (hassign : stmt.Assigns (f.declaredBefore n i) (.var w) (.var x))
      (hx : Means (f.declaredBefore n i) x u) : Holder f v w

/-- Along the walk `w`, some holder of the value given to `v` is live at every node after the first,
and no node in between overwrites a place that `place` is reached from. -/
structure HeldAlong (f : Fixture) (v : Variable) (place : Place) (w : Nat → NodeId) (k : Nat) :
    Prop where
  pos : 0 < k
  walk : f.IsWalk w k
  live : ∀ j, 0 < j → j ≤ k → ∃ h, f.Holder v h ∧ h.name ∈ f.liveAt (w j)
  kept : ∀ j, 0 < j → j < k → ∀ p, f.Writes (w j) p → ¬ p.isPrefixOf place

end LoanScope.Fixture
