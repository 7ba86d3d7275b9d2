import LoanScope.Function

/-! Binding of names and numbering of parts. Nodes are taken in the order of their ids; a name means
the last declaration before its use in that order, and an initialiser comes before the name it
initialises. -/

namespace LoanScope

/-- Why a fixture is no function. -/
inductive FixtureError where
  /-- The ids of `count` nodes are not their positions once sorted; `found` is the first that is
  not. -/
  | nodeIds (count found : Nat)
  | unresolvedName (name : String) (node : NodeId)
  | graph (error : GraphError)
deriving DecidableEq, Repr

def FixtureError.message : FixtureError → String
  | nodeIds count found => s!"node ids must be 0..{count} without gaps, found {found}"
  | unresolvedName name node => s!"node {node}: `{name}` is not declared"
  | graph e => e.message

/-- The variables in scope, the latest declaration first. -/
abbrev Scope := List Variable

def Scope.resolve? (s : Scope) (name : String) : Option Variable := s.find? (·.name = name)

namespace Fixture

/-! ### Names in the order of reading -/

mutual

def Expr.names : Expr → List String
  | .lit _ => []
  | .var name => [name]
  | .assign left right => left.names ++ right.names
  | .binary _ left right => left.names ++ right.names
  | .addrOf operand => operand.names
  | .deref operand => operand.names
  | .unary _ operand => operand.names
  | .call callee args ty => callee :: Expr.listNames args ++ (ty.map CType.names).getD []
  | .paren inner => inner.names
  | .member base field _ => base.names ++ [field]

def Expr.listNames : List Expr → List String
  | [] => []
  | e :: rest => e.names ++ Expr.listNames rest

end

def Stmt.names : Stmt → List String
  | decl name ty init => ty.names ++ (init.map Expr.names).getD [] ++ [name]
  | expr e => e.names
  | label name => [name]

def Body.names : Body → List String
  | start | finish | jump => []
  | instructions stmts => stmts.flatMap Stmt.names
  | branch cond => cond.names
  | loop cond => cond.names
  | ret value => (value.map Expr.names).getD []
  | switch discriminant => discriminant.names

def Node.names (n : Node) : List String := n.body.names ++ n.liveIn ++ n.liveOut

/-! ### Binding -/

/-- Where an expression stands: its node, its span and the variables in scope. -/
structure Setting where
  node : NodeId
  span : FileSpan
  scope : Scope

mutual

def Expr.bind (here : Setting) (b : LoanScope.Body) :
    Expr → Except FixtureError (LoanScope.Expr × LoanScope.Body)
  | .lit value => .ok (b.addExpr (.lit · here.span value))
  | .var name =>
      match here.scope.resolve? name with
      | some v => .ok (b.addExpr (.var · here.span v))
      | none => .error (.unresolvedName name here.node)
  | .assign left right => do
      let (left, b) ← left.bind here b
      let (right, b) ← right.bind here b
      .ok (b.addExpr (.binary · here.span .assign left right))
  | .binary op left right => do
      let (left, b) ← left.bind here b
      let (right, b) ← right.bind here b
      .ok (b.addExpr (.binary · here.span op left right))
  | .addrOf operand => do
      let (operand, b) ← operand.bind here b
      .ok (b.addExpr (.unary · here.span .addrOf operand))
  | .deref operand => do
      let (operand, b) ← operand.bind here b
      .ok (b.addExpr (.unary · here.span .deref operand))
  | .unary op operand => do
      let (operand, b) ← operand.bind here b
      .ok (b.addExpr (.unary · here.span op operand))
  | .call callee args ty => do
      let (args, b) ← Expr.bindList here b args
      match ty with
      | none => .ok (b.addExpr (.call · here.span callee args none))
      | some ty =>
          let (ty, b) := b.addType ty
          .ok (b.addExpr (.call · here.span callee args (some ty)))
  | .paren inner => do
      let (inner, b) ← inner.bind here b
      .ok (b.addExpr (.paren · here.span inner))
  | .member base field arrow => do
      let (base, b) ← base.bind here b
      .ok (b.addExpr (.member · here.span base field arrow))

def Expr.bindList (here : Setting) (b : LoanScope.Body) :
    List Expr → Except FixtureError (List LoanScope.Expr × LoanScope.Body)
  | [] => .ok ([], b)
  | e :: rest => do
      let (e, b) ← e.bind here b
      let (rest, b) ← Expr.bindList here b rest
      .ok (e :: rest, b)

end

def Expr.bindOption (here : Setting) (b : LoanScope.Body) :
    Option Expr → Except FixtureError (Option LoanScope.Expr × LoanScope.Body)
  | none => .ok (none, b)
  | some e => do
      let (e, b) ← e.bind here b
      .ok (some e, b)

/-- The result of binding what may declare variables. -/
structure Bound (α : Type) where
  value : α
  scope : Scope
  body : LoanScope.Body

def Stmt.bind (here : Setting) (b : LoanScope.Body) :
    Stmt → Except FixtureError (Bound LoanScope.Stmt)
  | decl name ty init => do
      let (ty, b) := b.addType ty
      let (init, b) ← Expr.bindOption here b init
      let (d, b) := b.addDecl (⟨·, name, ty, init, false, here.span⟩)
      let (s, b) := b.addStmt (.decl · d)
      .ok ⟨s, d.variable :: here.scope, b⟩
  | expr e => do
      let (e, b) ← e.bind here b
      let (s, b) := b.addStmt (.expr · e)
      .ok ⟨s, here.scope, b⟩
  | label name =>
      let (s, b) := b.addStmt (.label · name here.span)
      .ok ⟨s, here.scope, b⟩

def Stmt.bindList (here : Setting) (b : LoanScope.Body) :
    List Stmt → Except FixtureError (Bound (List LoanScope.Stmt))
  | [] => .ok ⟨[], here.scope, b⟩
  | s :: rest => do
      let s ← s.bind here b
      let rest ← Stmt.bindList { here with scope := s.scope } s.body rest
      .ok ⟨s.value :: rest.value, rest.scope, rest.body⟩

def Body.bind (here : Setting) (b : LoanScope.Body) :
    Body → Except FixtureError (Bound Step)
  | start => .ok ⟨.start, here.scope, b⟩
  | finish => .ok ⟨.finish, here.scope, b⟩
  | instructions stmts => do
      let stmts ← Stmt.bindList here b stmts
      .ok ⟨.instructions stmts.value, stmts.scope, stmts.body⟩
  | branch cond => do
      let (cond, b) ← cond.bind here b
      .ok ⟨.branch cond, here.scope, b⟩
  | loop cond => do
      let (cond, b) ← cond.bind here b
      .ok ⟨.loop cond, here.scope, b⟩
  | ret value => do
      let (value, b) ← Expr.bindOption here b value
      .ok ⟨.ret value here.span, here.scope, b⟩
  | switch discriminant => do
      let (discriminant, b) ← discriminant.bind here b
      .ok ⟨.switch discriminant here.span, here.scope, b⟩
  | jump => .ok ⟨.jump, here.scope, b⟩

def Node.spanIn (n : Node) (file : FileId) : FileSpan := ⟨file, n.span.getD .detached⟩

def Node.bindList (file : FileId) (scope : Scope) (b : LoanScope.Body) :
    List Node → Except FixtureError (List LoanScope.Node × LoanScope.Body)
  | [] => .ok ([], b)
  | n :: rest => do
      let step ← n.body.bind ⟨n.id.toNat, n.spanIn file, scope⟩ b
      let (rest, b) ← Node.bindList file step.scope step.body rest
      .ok (⟨step.value, n.liveIn, n.liveOut⟩ :: rest, b)

def Param.bindList (file : FileId) (b : LoanScope.Body) :
    List Param → List Decl × LoanScope.Body
  | [] => ([], b)
  | p :: rest =>
      let (ty, b) := b.addType p.ty
      let (d, b) := b.addDecl (⟨·, p.name, ty, none, true, .detached file⟩)
      let (rest, b) := Param.bindList file b rest
      (d :: rest, b)

/-! ### The whole function -/

/-- The nodes by ascending id. -/
def sortedNodes (f : Fixture) : List Node := f.nodes.mergeSort fun m n => m.id ≤ n.id

/-- The first id in a list that is not its position, counting from `i`. -/
def misplacedId? (i : Nat) : List Nat → Option Nat
  | [] => none
  | id :: rest => if id = i then misplacedId? (i + 1) rest else some id

def names (f : Fixture) : List String :=
  f.name :: f.params.flatMap (fun p => p.ty.names ++ [p.name]) ++
    (f.returnTy.map CType.names).getD [] ++ f.sortedNodes.flatMap Node.names

/-- The edges by ascending source, each node's in the order given. -/
def edges (f : Fixture) : List Edge :=
  f.sortedNodes.flatMap fun n => n.succ.map fun m => (n.id.toNat, m.toNat)

/-- The graph with nodes of the given kinds. -/
def plan (f : Fixture) (kinds : List NodeKind) : Graph.Plan :=
  let unlinked := kinds.foldl Graph.Plan.addNode .empty
  (f.edges.foldl Graph.Plan.addEdge unlinked).setStart f.start.toNat

/-- The function of a fixture, with all its spans in `file`. -/
def toFunction (f : Fixture) (file : FileId) : Except FixtureError Function := do
  let nodes := f.sortedNodes
  match misplacedId? 0 (nodes.map (·.id.toNat)) with
  | some found => .error (.nodeIds nodes.length found)
  | none => do
      let (params, b) := Param.bindList file .empty f.params
      let (returnTy, b) :=
        match f.returnTy with
        | none => (none, b)
        | some ty => let (ty, b) := b.addType ty; (some ty, b)
      let (nodes, b) ← Node.bindList file (params.reverse.map Decl.variable) b nodes
      match (f.plan (nodes.map (·.step.kind))).build with
      | .error e => .error (.graph e)
      | .ok graph =>
          .ok { name := f.name, file, params, returnTy, nodes, graph, body := b
                names := .ofList f.names }

end Fixture

end LoanScope
