import LoanScope.Proofs.Function.Numbering

/-! Fetching a function by its numbers from its body, and its names by their symbols. In a
well-formed function every number and every name leads somewhere, and what is fetched are the trees
that the function holds. -/

namespace LoanScope

namespace NameTable

/-- The name that the symbol of a name stands for. -/
def fetch? (names : NameTable) (x : String) : Option String := names.get? x >>= names.resolve?

theorem Knows.fetch? {names : NameTable} {x : String} (h : names.Knows x) :
    names.fetch? x = some x := by
  obtain ⟨symbol, hsymbol, hx⟩ := h
  simp [NameTable.fetch?, hsymbol, hx]

end NameTable

/-- Fetches what may be there. -/
def fetchOption? {α : Type} (fetch? : α → Option α) : Option α → Option (Option α)
  | none => some none
  | some a => (fetch? a).map some

theorem fetchOption?_eq {α : Type} {fetch? : α → Option α} {value : Option α}
    (h : ∀ a, value = some a → fetch? a = some a) : fetchOption? fetch? value = some value := by
  cases value with
  | none => rfl
  | some a => rw [fetchOption?, h a rfl, Option.map_some]

/-! ### Types -/

namespace CType

/-- The type with its names fetched. -/
def fetchNames? (names : NameTable) : CType → Option CType
  | builtin kind => some (builtin kind)
  | pointer pointee => (pointee.fetchNames? names).map pointer
  | qualified qualifiers inner => (inner.fetchNames? names).map (qualified qualifiers)
  | typedef name underlying => do
      let name ← names.fetch? name
      let underlying ← underlying.fetchNames? names
      some (typedef name underlying)
  | elaborated keyword name => (names.fetch? name).map (elaborated keyword)

theorem fetchNames?_eq {table : NameTable} {t : CType} (h : ∀ x ∈ t.names, table.Knows x) :
    t.fetchNames? table = some t := by
  induction t with
  | builtin kind => rfl
  | pointer pointee ih => rw [fetchNames?, ih h, Option.map_some]
  | qualified qualifiers inner ih => rw [fetchNames?, ih h, Option.map_some]
  | typedef name underlying ih =>
      simp only [names, List.mem_cons] at h
      simp [fetchNames?, (h name (.inl rfl)).fetch?, ih fun x hx => h x (.inr hx)]
  | elaborated keyword name => rw [fetchNames?, (h name List.mem_cons_self).fetch?, Option.map_some]

end CType

namespace Body

section definitions

variable (names : NameTable) (b : Body)

def fetchTypeRef? (r : TypeRef) : Option TypeRef :=
  (b.typeAt? r.id >>= CType.fetchNames? names).map (TypeRef.mk r.id)

/-! ### Expressions, statements and nodes -/

/-- An expression with other children, and the rest of it fetched. A variable gets the name of its
declaration. -/
def refill? : Expr → List Expr → Option Expr
  | .lit id span value, [] => some (.lit id span value)
  | .var id span v, [] => do
      let d ← b.decls[v.decl]?
      let name ← names.fetch? d.name
      some (.var id span ⟨d.id, name⟩)
  | .binary id span op _ _, [left, right] => some (.binary id span op left right)
  | .unary id span op _, [e] => some (.unary id span op e)
  | .call id span callee _ ty, args => do
      let callee ← names.fetch? callee
      let ty ← fetchOption? (b.fetchTypeRef? names) ty
      some (.call id span callee args ty)
  | .paren id span _, [e] => some (.paren id span e)
  | .member id span _ field arrow, [e] => do
      let field ← names.fetch? field
      some (.member id span e field arrow)
  | _, _ => none

/-- The expression with a number, put together from those with the numbers of its children. These
have to be smaller. -/
def fetchExpr? (i : ExprId) : Option Expr :=
  b.exprs[i]? >>= fun e =>
    (e.children.mapM fun c => if c.id < i then fetchExpr? c.id else none) >>= b.refill? names e
termination_by i

def fetchDecl? (i : DeclId) : Option Decl := do
  let d ← b.decls[i]?
  let name ← names.fetch? d.name
  let ty ← b.fetchTypeRef? names d.ty
  let init ← fetchOption? (fun e => b.fetchExpr? names e.id) d.init
  some { d with name, ty, init }

def fetchStmt? (i : StmtId) : Option Stmt :=
  b.stmts[i]? >>= fun
    | .decl id d => (b.fetchDecl? names d.id).map (.decl id)
    | .expr id e => (b.fetchExpr? names e.id).map (.expr id)
    | .label id name span => (names.fetch? name).map fun name => .label id name span

def fetchStep? : Step → Option Step
  | .start => some .start
  | .finish => some .finish
  | .jump => some .jump
  | .instructions stmts => (stmts.mapM fun s => b.fetchStmt? names s.id).map .instructions
  | .branch cond => (b.fetchExpr? names cond.id).map .branch
  | .loop cond => (b.fetchExpr? names cond.id).map .loop
  | .ret value span => (fetchOption? (fun e => b.fetchExpr? names e.id) value).map (.ret · span)
  | .switch discriminant span => (b.fetchExpr? names discriminant.id).map (.switch · span)

def fetchNode? (node : Node) : Option Node := do
  let step ← b.fetchStep? names node.step
  let liveIn ← node.liveIn.mapM names.fetch?
  let liveOut ← node.liveOut.mapM names.fetch?
  some ⟨step, liveIn, liveOut⟩

end definitions

variable {names : NameTable} {b : Body}

theorem fetchTypeRef?_eq (hb : b.WellFormed names.Knows) {r : TypeRef}
    (hr : b.typeAt? r.id = some r.ty) : b.fetchTypeRef? names r = some r := by
  have hnames := CType.fetchNames?_eq fun x hx => hb.known_of_typeAt? hr hx
  rw [fetchTypeRef?, hr, Option.bind_eq_bind, Option.bind_some, hnames, Option.map_some]

/-- What an expression refers to is there, and so is what it is built from. -/
theorem refill?_children (hb : b.WellFormed names.Knows) {e : Expr}
    (he : e.StoredIn names.Knows b) : b.refill? names e e.children = some e := by
  cases e with
  | lit | binary | unary | paren => rfl
  | var id span v =>
      obtain ⟨d, hd, hname⟩ := he.target v rfl
      obtain ⟨hid, hstored⟩ := hb.decls v.decl d hd
      have hfetch := hstored.name.fetch?
      rw [hname] at hfetch
      simp [refill?, Expr.children, hd, hfetch, hid, hname]
  | call id span callee args ty =>
      have hcallee := (he.names callee List.mem_cons_self).fetch?
      have hty : fetchOption? (b.fetchTypeRef? names) ty = some ty :=
        fetchOption?_eq fun r hr => fetchTypeRef?_eq hb (he.type r hr)
      simp [refill?, Expr.children, hcallee, hty]
  | member id span base field arrow =>
      have hfield := (he.names field List.mem_cons_self).fetch?
      simp [refill?, Expr.children, hfield]

/-- By induction on the number: the children of an expression have smaller ones. -/
theorem fetchExpr?_eq (hb : b.WellFormed names.Knows) {i : ExprId} {e : Expr}
    (hi : b.exprs[i]? = some e) : b.fetchExpr? names i = some e := by
  induction i using Nat.strong_induction_on generalizing e with
  | _ i ih =>
      obtain ⟨rfl, hstored⟩ := hb.exprs i e hi
      have hchildren : (e.children.mapM fun c =>
          if c.id < e.id then b.fetchExpr? names c.id else none) = some e.children := by
        apply mapM_eq_some_self
        intro c hc
        obtain ⟨hlt, hfound⟩ := hstored.children c hc
        rw [if_pos hlt]
        exact ih c.id hlt hfound
      rw [fetchExpr?, hi, Option.bind_eq_bind, Option.bind_some, hchildren, Option.bind_eq_bind,
        Option.bind_some]
      exact refill?_children hb hstored

theorem fetchDecl?_eq (hb : b.WellFormed names.Knows) {i : DeclId} {d : Decl}
    (hi : b.decls[i]? = some d) : b.fetchDecl? names i = some d := by
  obtain ⟨-, hstored⟩ := hb.decls i d hi
  have hinit : fetchOption? (fun e => b.fetchExpr? names e.id) d.init = some d.init :=
    fetchOption?_eq fun e he => fetchExpr?_eq hb (hstored.init e he)
  simp [fetchDecl?, hi, hstored.name.fetch?, fetchTypeRef?_eq hb hstored.type, hinit]

theorem fetchStmt?_eq (hb : b.WellFormed names.Knows) {i : StmtId} {s : Stmt}
    (hi : b.stmts[i]? = some s) : b.fetchStmt? names i = some s := by
  obtain ⟨-, hstored⟩ := hb.stmts i s hi
  cases s with
  | decl id d => simp [fetchStmt?, hi, fetchDecl?_eq hb (hstored.decl d rfl)]
  | expr id e => simp [fetchStmt?, hi, fetchExpr?_eq hb (hstored.root e rfl)]
  | label id name span => simp [fetchStmt?, hi, (hstored.names name List.mem_cons_self).fetch?]

theorem fetchStep?_eq (hb : b.WellFormed names.Knows) {step : Step}
    (hstmts : ∀ s ∈ step.stmts, b.stmts[s.id]? = some s)
    (hexpr : ∀ e, step.expr? = some e → b.exprs[e.id]? = some e) :
    b.fetchStep? names step = some step := by
  cases step with
  | start | finish | jump => rfl
  | instructions stmts =>
      have hall : (stmts.mapM fun s => b.fetchStmt? names s.id) = some stmts :=
        mapM_eq_some_self fun s hs => fetchStmt?_eq hb (hstmts s hs)
      rw [fetchStep?, hall, Option.map_some]
  | branch cond | loop cond | switch cond =>
      rw [fetchStep?, fetchExpr?_eq hb (hexpr cond rfl), Option.map_some]
  | ret value span =>
      have hvalue : fetchOption? (fun e => b.fetchExpr? names e.id) value = some value :=
        fetchOption?_eq fun e he => fetchExpr?_eq hb (hexpr e he)
      rw [fetchStep?, hvalue, Option.map_some]

theorem fetchNode?_eq (hb : b.WellFormed names.Knows) {node : Node}
    (hnode : node.StoredIn names.Knows b) : b.fetchNode? names node = some node := by
  have hlive : ∀ x ∈ node.liveIn ++ node.liveOut, names.fetch? x = some x :=
    fun x hx => (hnode.live x hx).fetch?
  have hliveIn := mapM_eq_some_self fun x hx => hlive x (List.mem_append_left _ hx)
  have hliveOut := mapM_eq_some_self fun x hx => hlive x (List.mem_append_right _ hx)
  simp [fetchNode?, fetchStep?_eq hb hnode.stmts hnode.expr, hliveIn, hliveOut]

end Body

/-! ### The whole function -/

namespace Function

/-- The function with all that it holds fetched from its body and its names. -/
def fetch? (f : Function) : Option Function := do
  let name ← f.names.fetch? f.name
  let params ← f.params.mapM fun d => f.body.fetchDecl? f.names d.id
  let returnTy ← fetchOption? (f.body.fetchTypeRef? f.names) f.returnTy
  let nodes ← f.nodes.mapM (f.body.fetchNode? f.names)
  some { f with name, params, returnTy, nodes }

/-- Fetching by number finds everything, and gives the trees that the function holds. -/
theorem WellFormed.fetch? {f : Function} (h : f.WellFormed) : f.fetch? = some f := by
  have hparams : (f.params.mapM fun d => f.body.fetchDecl? f.names d.id) = some f.params :=
    mapM_eq_some_self fun d hd => Body.fetchDecl?_eq h.body (h.params d hd).2
  have hreturn : fetchOption? (f.body.fetchTypeRef? f.names) f.returnTy = some f.returnTy :=
    fetchOption?_eq fun r hr => Body.fetchTypeRef?_eq h.body (h.returnTy r hr)
  have hnodes : f.nodes.mapM (f.body.fetchNode? f.names) = some f.nodes :=
    mapM_eq_some_self fun node hnode => Body.fetchNode?_eq h.body (h.nodes node hnode)
  simp [Function.fetch?, h.name.fetch?, hparams, hreturn, hnodes]

end Function

end LoanScope
