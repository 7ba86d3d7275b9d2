import LoanScope.Fixture
import LoanScope.Json.Decode
import LoanScope.Json.Reader

/-! The JSON form of fixtures. Writing fills in every field; reading accepts defaults, unknown
members, and records written as arrays. -/

namespace LoanScope

/-! ### Writing -/

def Span.toJson (s : Span) : Json :=
  .obj [("start", .int s.start.toNat), ("end", .int s.stop.toNat)]

def Qualifiers.toJson (q : Qualifiers) : Json :=
  .obj [("is_const", .bool q.isConst), ("is_restrict", .bool q.isRestrict),
    ("is_volatile", .bool q.isVolatile)]

def CType.toJson : CType → Json
  | builtin kind => .obj [("kind", .str "builtin"), ("name", .str kind.name)]
  | pointer pointee => .obj [("kind", .str "pointer"), ("pointee", pointee.toJson)]
  | qualified qualifiers inner =>
      .obj [("kind", .str "qualified"), ("qualifiers", qualifiers.toJson), ("inner", inner.toJson)]
  | typedef name underlying =>
      .obj [("kind", .str "typedef"), ("name", .str name), ("underlying", underlying.toJson)]
  | elaborated keyword name =>
      .obj [("kind", .str "elaborated"), ("keyword", .str keyword.name), ("name", .str name)]

def Literal.toJson : Literal → Json
  | int v => .obj [("kind", .str "int"), ("value", .int v.toInt)]
  | float v => .obj [("kind", .str "float"), ("value", .float v)]
  | bool v => .obj [("kind", .str "bool"), ("value", .bool v)]
  | char v => .obj [("kind", .str "char"), ("value", .str (String.ofList [v]))]

namespace Fixture

mutual

def Expr.toJson : Expr → Json
  | .lit value => value.toJson
  | .var name => .obj [("kind", .str "var"), ("name", .str name)]
  | .assign left right =>
      .obj [("kind", .str "assign"), ("left", left.toJson), ("right", right.toJson)]
  | .binary op left right =>
      .obj [("kind", .str "binary"), ("op", .str op.name), ("left", left.toJson),
        ("right", right.toJson)]
  | .addrOf operand => .obj [("kind", .str "addr_of"), ("operand", operand.toJson)]
  | .deref operand => .obj [("kind", .str "deref"), ("operand", operand.toJson)]
  | .unary op operand =>
      .obj [("kind", .str "unary"), ("op", .str op.name), ("operand", operand.toJson)]
  | .call callee args ty =>
      .obj [("kind", .str "call"), ("callee", .str callee), ("args", .arr (Expr.listToJson args)),
        ("ty", Json.ofOption CType.toJson ty)]
  | .paren inner => .obj [("kind", .str "paren"), ("inner", inner.toJson)]
  | .member base field arrow =>
      .obj [("kind", .str "member"), ("base", base.toJson), ("field", .str field),
        ("arrow", .bool arrow)]

def Expr.listToJson : List Expr → List Json
  | [] => []
  | e :: rest => e.toJson :: Expr.listToJson rest

end

def Stmt.toJson : Stmt → Json
  | decl name ty init =>
      .obj [("kind", .str "decl"), ("name", .str name), ("ty", ty.toJson),
        ("init", Json.ofOption Expr.toJson init)]
  | expr e => .obj [("kind", .str "expr"), ("expr", e.toJson)]
  | label name => .obj [("kind", .str "label"), ("name", .str name)]

/-- The members that say what a node does. -/
def Body.members : Body → Json.Fields
  | start => [("kind", .str "start")]
  | finish => [("kind", .str "end")]
  | instructions stmts => [("kind", .str "inst_list"), ("stmts", Json.ofList Stmt.toJson stmts)]
  | branch cond => [("kind", .str "if"), ("cond", cond.toJson)]
  | loop cond => [("kind", .str "loop"), ("cond", cond.toJson)]
  | ret value => [("kind", .str "return"), ("value", Json.ofOption Expr.toJson value)]
  | switch discriminant => [("kind", .str "switch"), ("discriminant", discriminant.toJson)]
  | jump => [("kind", .str "jump")]

def Node.toJson (n : Node) : Json :=
  .obj (("id", .int n.id.toNat) :: n.body.members ++
    [("succ", Json.ofList (fun i => .int i.toNat) n.succ), ("live_in", Json.strings n.liveIn),
      ("live_out", Json.strings n.liveOut), ("span", Json.ofOption Span.toJson n.span)])

def Param.toJson (p : Param) : Json := .obj [("name", .str p.name), ("ty", p.ty.toJson)]

def toJson (f : Fixture) : Json :=
  .obj [("name", .str f.name), ("params", Json.ofList Param.toJson f.params),
    ("return_ty", Json.ofOption CType.toJson f.returnTy), ("start", .int f.start.toNat),
    ("nodes", Json.ofList Node.toJson f.nodes)]

end Fixture

/-! ### Reading -/

def Span.ofJson? (j : Json) : Option Span := do
  let r ← j.record? ["start", "end"]
  some ⟨← r.need? "start" Json.uint32?, ← r.need? "end" Json.uint32?⟩

def Qualifiers.ofJson? (j : Json) : Option Qualifiers := do
  let r ← j.record? ["is_const", "is_restrict", "is_volatile"]
  some ⟨← r.getD? "is_const" false Json.bool?, ← r.getD? "is_restrict" false Json.bool?,
    ← r.getD? "is_volatile" false Json.bool?⟩

def CType.tags : List String := ["builtin", "pointer", "qualified", "typedef", "elaborated"]

/-- A type nested at most `depth` deep. Only the outermost type may have to be tagged by name. -/
def CType.ofJson? (positions : Bool) : (depth : Nat) → Json → Option CType
  | 0, _ => none
  | depth + 1, j => do
      let nested := CType.ofJson? true depth
      match ← j.tagged? positions CType.tags with
      | ("builtin", j) => do
          let r ← j.record? ["name"]
          some (.builtin (← r.need? "name" fun v => v.name?.bind Builtin.ofName?))
      | ("pointer", j) => do
          let r ← j.record? ["pointee"]
          some (.pointer (← r.need? "pointee" nested))
      | ("qualified", j) => do
          let r ← j.record? ["qualifiers", "inner"]
          some (.qualified (← r.need? "qualifiers" Qualifiers.ofJson?) (← r.need? "inner" nested))
      | ("typedef", j) => do
          let r ← j.record? ["name", "underlying"]
          some (.typedef (← r.need? "name" Json.string?) (← r.need? "underlying" nested))
      | ("elaborated", j) => do
          let r ← j.record? ["keyword", "name"]
          some (.elaborated (← r.need? "keyword" fun v => v.name?.bind TagKeyword.ofName?)
            (← r.need? "name" Json.string?))
      | _ => none

namespace Fixture

def Expr.tags : List String :=
  ["int", "float", "bool", "char", "var", "assign", "binary", "addr_of", "deref", "unary", "call",
    "paren", "member"]

/-- An expression nested at most `depth` deep. -/
def Expr.ofJson? : (depth : Nat) → Json → Option Expr
  | 0, _ => none
  | depth + 1, j => do
      let nested := Expr.ofJson? depth
      match ← j.tagged? true Expr.tags with
      | ("int", j) => do
          let r ← j.record? ["value"]
          some (.lit (.int (← r.need? "value" Json.int64?)))
      | ("float", j) => do
          let r ← j.record? ["value"]
          some (.lit (.float (← r.need? "value" Json.double?)))
      | ("bool", j) => do
          let r ← j.record? ["value"]
          some (.lit (.bool (← r.need? "value" Json.bool?)))
      | ("char", j) => do
          let r ← j.record? ["value"]
          some (.lit (.char (← r.need? "value" Json.char?)))
      | ("var", j) => do
          let r ← j.record? ["name"]
          some (.var (← r.need? "name" Json.string?))
      | ("assign", j) => do
          let r ← j.record? ["left", "right"]
          some (.assign (← r.need? "left" nested) (← r.need? "right" nested))
      | ("binary", j) => do
          let r ← j.record? ["op", "left", "right"]
          some (.binary (← r.need? "op" fun v => v.name?.bind BinaryOp.ofName?)
            (← r.need? "left" nested) (← r.need? "right" nested))
      | ("addr_of", j) => do
          let r ← j.record? ["operand"]
          some (.addrOf (← r.need? "operand" nested))
      | ("deref", j) => do
          let r ← j.record? ["operand"]
          some (.deref (← r.need? "operand" nested))
      | ("unary", j) => do
          let r ← j.record? ["op", "operand"]
          some (.unary (← r.need? "op" fun v => v.name?.bind UnaryOp.ofName?)
            (← r.need? "operand" nested))
      | ("call", j) => do
          let r ← j.record? ["callee", "args", "ty"]
          some (.call (← r.need? "callee" Json.string?) (← r.getD? "args" [] (Json.list? nested))
            (← r.opt? "ty" (CType.ofJson? true depth)))
      | ("paren", j) => do
          let r ← j.record? ["inner"]
          some (.paren (← r.need? "inner" nested))
      | ("member", j) => do
          let r ← j.record? ["base", "field", "arrow"]
          some (.member (← r.need? "base" nested) (← r.need? "field" Json.string?)
            (← r.getD? "arrow" false Json.bool?))
      | _ => none

def Stmt.tags : List String := ["decl", "expr", "label"]

def Stmt.ofJson? (depth : Nat) (j : Json) : Option Stmt := do
  match ← j.tagged? true Stmt.tags with
  | ("decl", j) => do
      let r ← j.record? ["name", "ty", "init"]
      some (.decl (← r.need? "name" Json.string?) (← r.need? "ty" (CType.ofJson? true depth))
        (← r.opt? "init" (Expr.ofJson? depth)))
  | ("expr", j) => do
      let r ← j.record? ["expr"]
      some (.expr (← r.need? "expr" (Expr.ofJson? depth)))
  | ("label", j) => do
      let r ← j.record? ["name"]
      some (.label (← r.need? "name" Json.string?))
  | _ => none

def Body.tags : List String :=
  ["start", "end", "inst_list", "if", "loop", "return", "switch", "jump"]

def Body.ofJson? (depth : Nat) (j : Json) : Option Body := do
  match ← j.tagged? true Body.tags with
  | ("start", _) => some .start
  | ("end", _) => some .finish
  | ("inst_list", j) => do
      let r ← j.record? ["stmts"]
      some (.instructions (← r.need? "stmts" (Json.list? (Stmt.ofJson? depth))))
  | ("if", j) => do
      let r ← j.record? ["cond"]
      some (.branch (← r.need? "cond" (Expr.ofJson? depth)))
  | ("loop", j) => do
      let r ← j.record? ["cond"]
      some (.loop (← r.need? "cond" (Expr.ofJson? depth)))
  | ("return", j) => do
      let r ← j.record? ["value"]
      some (.ret (← r.opt? "value" (Expr.ofJson? depth)))
  | ("switch", j) => do
      let r ← j.record? ["discriminant"]
      some (.switch (← r.need? "discriminant" (Expr.ofJson? depth)))
  | ("jump", _) => some .jump
  | _ => none

/-- A node is an object: its own members and those of its body stand side by side. -/
def Node.ofJson? (depth : Nat) (j : Json) : Option Node := do
  match j with
  | .obj _ => do
      let r ← j.record? ["id", "succ", "live_in", "live_out", "span"]
      some
        { id := ← r.need? "id" Json.uint32?
          body := ← Body.ofJson? depth j
          succ := ← r.getD? "succ" [] (Json.list? Json.uint32?)
          liveIn := ← r.getD? "live_in" [] (Json.list? Json.string?)
          liveOut := ← r.getD? "live_out" [] (Json.list? Json.string?)
          span := ← r.opt? "span" Span.ofJson? }
  | _ => none

def Param.ofJson? (depth : Nat) (j : Json) : Option Param := do
  let r ← j.record? ["name", "ty"]
  some ⟨← r.need? "name" Json.string?, ← r.need? "ty" (CType.ofJson? false depth)⟩

/-- The fixture of a JSON value; no part of a value is nested deeper than the value. -/
def ofJson? (j : Json) : Option Fixture := do
  let r ← j.record? ["name", "params", "return_ty", "start", "nodes"]
  some
    { name := ← r.need? "name" Json.string?
      params := ← r.getD? "params" [] (Json.list? (Param.ofJson? j.depth))
      returnTy := ← r.opt? "return_ty" (CType.ofJson? false j.depth)
      start := ← r.getD? "start" 0 Json.uint32?
      nodes := ← r.need? "nodes" (Json.list? (Node.ofJson? j.depth)) }

/-! ### Text -/

/-- Unknown members of the function, of a parameter and of a span are not looked into; those of a
node are, since they stand among the members of its body. -/
def shape : Json.Shape :=
  let span := .record [("start", .all), ("end", .all)] false
  .record
    [("name", .all),
      ("params", .each (.record [("name", .all), ("ty", .all)] false)),
      ("return_ty", .all),
      ("start", .all),
      ("nodes", .each (.record [("span", span)] true))]
    false

/-- Containers that may be open at once in a fixture's text. -/
def nestingLimit : Nat := 127

def parse? (text : String) : Option Fixture := do
  ofJson? (← Json.parse? nestingLimit shape text)

end Fixture

end LoanScope
