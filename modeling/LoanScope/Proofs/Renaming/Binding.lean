import LoanScope.Proofs.Function.Outcome
import Mathlib.Data.List.Nodup
import Mathlib.Logic.Embedding.Basic

/-! Renaming of all names in a fixture. Names matter to binding only by being equal or not, so the
function of a fixture with its names changed one to one is the function with its names changed. -/

namespace LoanScope

/-! ### Outcomes -/

/-- Changes both what fails and what succeeds. -/
def mapBoth {ε ε' α β : Type} (g : ε → ε') (h : α → β) : Except ε α → Except ε' β
  | .error e => .error (g e)
  | .ok a => .ok (h a)

@[simp] theorem mapBoth_error {ε ε' α β : Type} (g : ε → ε') (h : α → β) (e : ε) :
    mapBoth g h (.error e) = .error (g e) := rfl

@[simp] theorem mapBoth_ok {ε ε' α β : Type} (g : ε → ε') (h : α → β) (a : α) :
    mapBoth g h (.ok a : Except ε α) = .ok (h a) := rfl

/-- Steps that are changed one by one are changed in sequence. -/
theorem bind_eq_mapBoth {ε ε' α α' β β' : Type} {g : ε → ε'} {h : α → α'} {h' : β → β'}
    {x : Except ε α} {x' : Except ε' α'} {next : α → Except ε β} {next' : α' → Except ε' β'}
    (hx : x' = mapBoth g h x) (hnext : ∀ a, next' (h a) = mapBoth g h' (next a)) :
    (x' >>= next') = mapBoth g h' (x >>= next) := by
  subst hx
  cases x with
  | error e => rfl
  | ok a => exact hnext a

theorem foldlM_eq_mapBoth {ε ε' σ σ' α α' : Type} {g : ε → ε'} {h : σ → σ'} {k : α → α'}
    {step : σ → α → Except ε σ} {step' : σ' → α' → Except ε' σ'}
    (hstep : ∀ s a, step' (h s) (k a) = mapBoth g h (step s a)) (as : List α) (s : σ) :
    (as.map k).foldlM step' (h s) = mapBoth g h (as.foldlM step s) := by
  induction as generalizing s with
  | nil => rfl
  | cons a rest ih =>
      rw [List.map_cons, List.foldlM_cons, List.foldlM_cons]
      exact bind_eq_mapBoth (hstep s a) ih

theorem mapM_eq_mapBoth {ε ε' α α' β β' : Type} {g : ε → ε'} {h : β → β'} {k : α → α'}
    {step : α → Except ε β} {step' : α' → Except ε' β'}
    (hstep : ∀ a, step' (k a) = mapBoth g h (step a)) (as : List α) :
    (as.map k).mapM step' = mapBoth g (List.map h) (as.mapM step) := by
  induction as with
  | nil => rfl
  | cons a rest ih =>
      rw [List.map_cons, List.mapM_cons, List.mapM_cons]
      exact bind_eq_mapBoth (hstep a) fun b => bind_eq_mapBoth ih fun _ => rfl

/-! ### Names in types, fixtures and functions -/

section definitions

variable (ρ : String → String)

def CType.rename : CType → CType
  | builtin kind => builtin kind
  | pointer t => pointer t.rename
  | qualified q t => qualified q t.rename
  | typedef name t => typedef (ρ name) t.rename
  | elaborated keyword name => elaborated keyword (ρ name)

namespace Fixture

mutual

def Expr.rename : Expr → Expr
  | .lit value => .lit value
  | .var x => .var (ρ x)
  | .assign left right => .assign left.rename right.rename
  | .binary op left right => .binary op left.rename right.rename
  | .addrOf e => .addrOf e.rename
  | .deref e => .deref e.rename
  | .unary op e => .unary op e.rename
  | .call callee args ty => .call (ρ callee) (Expr.listRename args) (ty.map (CType.rename ρ))
  | .paren e => .paren e.rename
  | .member e field arrow => .member e.rename (ρ field) arrow

def Expr.listRename : List Expr → List Expr
  | [] => []
  | e :: rest => e.rename :: Expr.listRename rest

end

def Stmt.rename : Stmt → Stmt
  | decl x ty init => decl (ρ x) (ty.rename ρ) (init.map (Expr.rename ρ))
  | expr e => expr (e.rename ρ)
  | label x => label (ρ x)

def Body.rename : Body → Body
  | instructions stmts => instructions (stmts.map (Stmt.rename ρ))
  | branch e => branch (e.rename ρ)
  | loop e => loop (e.rename ρ)
  | switch e => switch (e.rename ρ)
  | ret value => ret (value.map (Expr.rename ρ))
  | start => start
  | finish => finish
  | jump => jump

def Node.rename (n : Node) : Node :=
  { n with body := n.body.rename ρ, liveIn := n.liveIn.map ρ, liveOut := n.liveOut.map ρ }

def Param.rename (p : Param) : Param := ⟨ρ p.name, p.ty.rename ρ⟩

/-- The fixture with every name changed. -/
def rename (f : Fixture) : Fixture where
  name := ρ f.name
  params := f.params.map (Param.rename ρ)
  returnTy := f.returnTy.map (CType.rename ρ)
  start := f.start
  nodes := f.nodes.map (Node.rename ρ)

end Fixture

def FixtureError.rename : FixtureError → FixtureError
  | nodeIds count found => nodeIds count found
  | unresolvedName x n => unresolvedName (ρ x) n
  | graph e => graph e

def Variable.rename (v : Variable) : Variable := ⟨v.decl, ρ v.name⟩

def TypeRef.rename (r : TypeRef) : TypeRef := ⟨r.id, r.ty.rename ρ⟩

mutual

def Expr.rename : Expr → Expr
  | .lit id span value => .lit id span value
  | .var id span v => .var id span (v.rename ρ)
  | .binary id span op left right => .binary id span op left.rename right.rename
  | .unary id span op e => .unary id span op e.rename
  | .call id span callee args ty =>
      .call id span (ρ callee) (Expr.listRename args) (ty.map (TypeRef.rename ρ))
  | .paren id span e => .paren id span e.rename
  | .member id span e field arrow => .member id span e.rename (ρ field) arrow

def Expr.listRename : List Expr → List Expr
  | [] => []
  | e :: rest => e.rename :: Expr.listRename rest

end

def Decl.rename (d : Decl) : Decl :=
  { d with name := ρ d.name, ty := d.ty.rename ρ, init := d.init.map (Expr.rename ρ) }

def Stmt.rename : Stmt → Stmt
  | decl id d => decl id (d.rename ρ)
  | expr id e => expr id (e.rename ρ)
  | label id name span => label id (ρ name) span

def Step.rename : Step → Step
  | instructions stmts => instructions (stmts.map (Stmt.rename ρ))
  | branch e => branch (e.rename ρ)
  | loop e => loop (e.rename ρ)
  | switch e span => switch (e.rename ρ) span
  | ret value span => ret (value.map (Expr.rename ρ)) span
  | start => start
  | finish => finish
  | jump => jump

def Node.rename (n : Node) : Node := ⟨n.step.rename ρ, n.liveIn.map ρ, n.liveOut.map ρ⟩

def TypeEntry.rename : TypeEntry → TypeEntry
  | typedef name underlying => typedef (ρ name) underlying
  | elaborated keyword name => elaborated keyword (ρ name)
  | entry => entry

def Body.rename (b : Body) : Body where
  types := b.types.map (TypeEntry.rename ρ)
  exprs := b.exprs.map (Expr.rename ρ)
  decls := b.decls.map (Decl.rename ρ)
  stmts := b.stmts.map (Stmt.rename ρ)

namespace Fixture

def Setting.rename (here : Setting) : Setting :=
  { here with scope := here.scope.map (Variable.rename ρ) }

def Bound.rename {α : Type} (g : α → α) (bound : Bound α) : Bound α :=
  ⟨g bound.value, bound.scope.map (Variable.rename ρ), bound.body.rename ρ⟩

end Fixture

end definitions

/-- The table of the changed names. -/
def NameTable.rename (ρ : String ↪ String) (t : NameTable) : NameTable :=
  ⟨t.names.map ρ, List.Nodup.map ρ.injective t.nodup⟩

/-- The function with every name changed. -/
def Function.rename (ρ : String ↪ String) (f : Function) : Function where
  name := ρ f.name
  file := f.file
  params := f.params.map (Decl.rename ρ)
  returnTy := f.returnTy.map (TypeRef.rename ρ)
  nodes := f.nodes.map (Node.rename ρ)
  graph := f.graph
  body := f.body.rename ρ
  names := f.names.rename ρ

/-! ### Numbering -/

section numbering

variable {ρ : String → String}

namespace Body

theorem pushType_rename (b : Body) (entry : TypeEntry) :
    (b.rename ρ).pushType (entry.rename ρ) = Prod.map id (rename ρ) (b.pushType entry) := by
  simp [pushType, rename]

theorem placeType_rename (b : Body) (t : CType) :
    (b.rename ρ).placeType (t.rename ρ) = Prod.map id (rename ρ) (b.placeType t) := by
  induction t with
  | builtin kind => exact b.pushType_rename (.builtin kind)
  | elaborated keyword name => exact b.pushType_rename (.elaborated keyword name)
  | pointer pointee ih =>
      simp only [CType.rename, placeType, ih, Prod.map_fst, Prod.map_snd, id_eq]
      exact pushType_rename _ (.pointer _)
  | qualified qualifiers inner ih =>
      simp only [CType.rename, placeType, ih, Prod.map_fst, Prod.map_snd, id_eq]
      exact pushType_rename _ (.qualified qualifiers _)
  | typedef name underlying ih =>
      simp only [CType.rename, placeType, ih, Prod.map_fst, Prod.map_snd, id_eq]
      exact pushType_rename _ (.typedef name _)

theorem addType_rename (b : Body) (t : CType) :
    (b.rename ρ).addType (t.rename ρ) = Prod.map (TypeRef.rename ρ) (rename ρ) (b.addType t) := by
  simp [addType, placeType_rename, TypeRef.rename]

theorem addType?_rename (b : Body) (ty : Option CType) :
    (b.rename ρ).addType? (ty.map (CType.rename ρ)) =
      Prod.map (Option.map (TypeRef.rename ρ)) (rename ρ) (b.addType? ty) := by
  cases ty with
  | none => rfl
  | some t => simp [addType?, addType_rename]

theorem addExpr_rename (b : Body) {make make' : ExprId → Expr}
    (h : ∀ i, make' i = (make i).rename ρ) :
    (b.rename ρ).addExpr make' = Prod.map (Expr.rename ρ) (rename ρ) (b.addExpr make) := by
  simp [addExpr, rename, h]

theorem addDecl_rename (b : Body) {make make' : DeclId → Decl}
    (h : ∀ i, make' i = (make i).rename ρ) :
    (b.rename ρ).addDecl make' = Prod.map (Decl.rename ρ) (rename ρ) (b.addDecl make) := by
  simp [addDecl, rename, h]

theorem addStmt_rename (b : Body) {make make' : StmtId → Stmt}
    (h : ∀ i, make' i = (make i).rename ρ) :
    (b.rename ρ).addStmt make' = Prod.map (Stmt.rename ρ) (rename ρ) (b.addStmt make) := by
  simp [addStmt, rename, h]

end Body

end numbering

/-! ### Binding -/

section binding

variable {ρ : String ↪ String}

/-- A changed name is looked up as before. -/
theorem Scope.resolve?_rename (scope : Scope) (x : String) :
    resolve? (scope.map (Variable.rename ρ)) (ρ x) =
      (scope.resolve? x).map (Variable.rename ρ) := by
  induction scope with
  | nil => rfl
  | cons v rest ih =>
      by_cases hv : v.name = x
      · simp [resolve?, Variable.rename, hv]
      · simp_all [resolve?, Variable.rename]

namespace Fixture

mutual

theorem Expr.bind_rename (here : Setting) : ∀ (e : Expr) (b : LoanScope.Body),
    (e.rename ρ).bind (here.rename ρ) (b.rename ρ) =
      mapBoth (FixtureError.rename ρ) (Prod.map (LoanScope.Expr.rename ρ) (LoanScope.Body.rename ρ))
        (e.bind here b)
  | .lit value, b => congrArg Except.ok (b.addExpr_rename fun _ => rfl)
  | .var x, b => by
      simp only [Expr.rename, Expr.bind, Setting.rename, Scope.resolve?_rename]
      cases here.scope.resolve? x with
      | none => rfl
      | some v => exact congrArg Except.ok (b.addExpr_rename fun _ => rfl)
  | .assign left right, b => by
      refine bind_eq_mapBoth (Expr.bind_rename here left b) ?_
      rintro ⟨left', b₁⟩
      refine bind_eq_mapBoth (Expr.bind_rename here right b₁) ?_
      rintro ⟨right', b₂⟩
      exact congrArg Except.ok (b₂.addExpr_rename fun _ => rfl)
  | .binary op left right, b => by
      refine bind_eq_mapBoth (Expr.bind_rename here left b) ?_
      rintro ⟨left', b₁⟩
      refine bind_eq_mapBoth (Expr.bind_rename here right b₁) ?_
      rintro ⟨right', b₂⟩
      exact congrArg Except.ok (b₂.addExpr_rename fun _ => rfl)
  | .addrOf e, b => by
      refine bind_eq_mapBoth (Expr.bind_rename here e b) ?_
      rintro ⟨e', b₁⟩
      exact congrArg Except.ok (b₁.addExpr_rename fun _ => rfl)
  | .deref e, b => by
      refine bind_eq_mapBoth (Expr.bind_rename here e b) ?_
      rintro ⟨e', b₁⟩
      exact congrArg Except.ok (b₁.addExpr_rename fun _ => rfl)
  | .unary op e, b => by
      refine bind_eq_mapBoth (Expr.bind_rename here e b) ?_
      rintro ⟨e', b₁⟩
      exact congrArg Except.ok (b₁.addExpr_rename fun _ => rfl)
  | .call callee args ty, b => by
      refine bind_eq_mapBoth (Expr.bindList_rename here args b) ?_
      rintro ⟨args', b₁⟩
      cases ty with
      | none => exact congrArg Except.ok (b₁.addExpr_rename fun _ => rfl)
      | some t =>
          simp only [Prod.map, Option.map_some, LoanScope.Body.addType_rename]
          exact congrArg Except.ok (LoanScope.Body.addExpr_rename _ fun _ => rfl)
  | .paren e, b => by
      refine bind_eq_mapBoth (Expr.bind_rename here e b) ?_
      rintro ⟨e', b₁⟩
      exact congrArg Except.ok (b₁.addExpr_rename fun _ => rfl)
  | .member e field arrow, b => by
      refine bind_eq_mapBoth (Expr.bind_rename here e b) ?_
      rintro ⟨e', b₁⟩
      exact congrArg Except.ok (b₁.addExpr_rename fun _ => rfl)

theorem Expr.bindList_rename (here : Setting) : ∀ (es : List Expr) (b : LoanScope.Body),
    Expr.bindList (here.rename ρ) (b.rename ρ) (Expr.listRename ρ es) =
      mapBoth (FixtureError.rename ρ)
        (Prod.map (LoanScope.Expr.listRename ρ) (LoanScope.Body.rename ρ))
        (Expr.bindList here b es)
  | [], b => rfl
  | e :: rest, b => by
      refine bind_eq_mapBoth (Expr.bind_rename here e b) ?_
      rintro ⟨e', b₁⟩
      refine bind_eq_mapBoth (Expr.bindList_rename here rest b₁) ?_
      rintro ⟨rest', b₂⟩
      rfl

end

theorem Expr.bindOption_rename (here : Setting) (value : Option Expr) (b : LoanScope.Body) :
    Expr.bindOption (here.rename ρ) (b.rename ρ) (value.map (Expr.rename ρ)) =
      mapBoth (FixtureError.rename ρ)
        (Prod.map (Option.map (LoanScope.Expr.rename ρ)) (LoanScope.Body.rename ρ))
        (Expr.bindOption here b value) := by
  cases value with
  | none => rfl
  | some e =>
      refine bind_eq_mapBoth (Expr.bind_rename here e b) ?_
      rintro ⟨e', b₁⟩
      rfl

theorem Stmt.added_rename (scope : Scope) (b : LoanScope.Body) (make : StmtId → LoanScope.Stmt) :
    (⟨((b.rename ρ).addStmt fun i => (make i).rename ρ).1, scope.map (Variable.rename ρ),
        ((b.rename ρ).addStmt fun i => (make i).rename ρ).2⟩ : Bound LoanScope.Stmt) =
      Bound.rename ρ (LoanScope.Stmt.rename ρ) ⟨(b.addStmt make).1, scope, (b.addStmt make).2⟩ := by
  rw [LoanScope.Body.addStmt_rename b fun _ => rfl]
  rfl

theorem Stmt.bind_rename (here : Setting) (s : Stmt) (b : LoanScope.Body) :
    (s.rename ρ).bind (here.rename ρ) (b.rename ρ) =
      mapBoth (FixtureError.rename ρ) (Bound.rename ρ (LoanScope.Stmt.rename ρ))
        (s.bind here b) := by
  cases s with
  | decl x ty init =>
      simp only [Stmt.rename, Stmt.bind, LoanScope.Body.addType_rename]
      refine bind_eq_mapBoth (Expr.bindOption_rename here init _) fun bound => ?_
      have hdecl : (bound.2.rename ρ).addDecl
            (⟨·, ρ x, (b.addType ty).1.rename ρ, bound.1.map (LoanScope.Expr.rename ρ),
              false, here.span⟩) =
          Prod.map (Decl.rename ρ) (LoanScope.Body.rename ρ)
            (bound.2.addDecl (⟨·, x, (b.addType ty).1, bound.1, false, here.span⟩)) :=
        LoanScope.Body.addDecl_rename _ fun _ => rfl
      simp only [Prod.map, hdecl, Setting.rename]
      generalize bound.2.addDecl _ = added
      exact congrArg Except.ok (Stmt.added_rename (added.1.variable :: here.scope) added.2
        (.decl · added.1))
  | expr e =>
      refine bind_eq_mapBoth (Expr.bind_rename here e b) fun bound => ?_
      exact congrArg Except.ok (Stmt.added_rename here.scope bound.2 (.expr · bound.1))
  | label x => exact congrArg Except.ok (Stmt.added_rename here.scope b (.label · x here.span))

theorem Stmt.bindList_rename (here : Setting) (stmts : List Stmt) (b : LoanScope.Body) :
    Stmt.bindList (here.rename ρ) (b.rename ρ) (stmts.map (Stmt.rename ρ)) =
      mapBoth (FixtureError.rename ρ) (Bound.rename ρ (List.map (LoanScope.Stmt.rename ρ)))
        (Stmt.bindList here b stmts) := by
  induction stmts generalizing here b with
  | nil => rfl
  | cons s rest ih =>
      refine bind_eq_mapBoth (Stmt.bind_rename here s b) fun first => ?_
      exact bind_eq_mapBoth (ih { here with scope := first.scope } first.body) fun later => rfl

theorem Body.bind_rename (here : Setting) (body : Body) (b : LoanScope.Body) :
    (body.rename ρ).bind (here.rename ρ) (b.rename ρ) =
      mapBoth (FixtureError.rename ρ) (Bound.rename ρ (Step.rename ρ)) (body.bind here b) := by
  cases body with
  | start | finish | jump => rfl
  | instructions stmts => exact bind_eq_mapBoth (Stmt.bindList_rename here stmts b) fun bound => rfl
  | branch e => exact bind_eq_mapBoth (Expr.bind_rename here e b) fun bound => rfl
  | loop e => exact bind_eq_mapBoth (Expr.bind_rename here e b) fun bound => rfl
  | switch e => exact bind_eq_mapBoth (Expr.bind_rename here e b) fun bound => rfl
  | ret value => exact bind_eq_mapBoth (Expr.bindOption_rename here value b) fun bound => rfl

theorem Node.bindList_rename (file : FileId) (scope : Scope) (nodes : List Node)
    (b : LoanScope.Body) :
    Node.bindList file (scope.map (Variable.rename ρ)) (b.rename ρ) (nodes.map (Node.rename ρ)) =
      mapBoth (FixtureError.rename ρ)
        (Prod.map (List.map (LoanScope.Node.rename ρ)) (LoanScope.Body.rename ρ))
        (Node.bindList file scope b nodes) := by
  induction nodes generalizing scope b with
  | nil => rfl
  | cons node rest ih =>
      refine bind_eq_mapBoth
        (Body.bind_rename ⟨node.id.toNat, node.spanIn file, scope⟩ node.body b) fun step => ?_
      exact bind_eq_mapBoth (ih step.scope step.body) fun later => rfl

theorem Param.bindList_rename (file : FileId) (params : List Param) (b : LoanScope.Body) :
    Param.bindList file (b.rename ρ) (params.map (Param.rename ρ)) =
      Prod.map (List.map (Decl.rename ρ)) (LoanScope.Body.rename ρ)
        (Param.bindList file b params) := by
  induction params generalizing b with
  | nil => rfl
  | cons p rest ih =>
      have hdecl : ((b.addType p.ty).2.rename ρ).addDecl
            (⟨·, ρ p.name, (b.addType p.ty).1.rename ρ, none, true, .detached file⟩) =
          Prod.map (Decl.rename ρ) (LoanScope.Body.rename ρ) ((b.addType p.ty).2.addDecl
            (⟨·, p.name, (b.addType p.ty).1, none, true, .detached file⟩)) :=
        LoanScope.Body.addDecl_rename _ fun _ => rfl
      simp only [List.map_cons, Param.bindList, Param.rename, LoanScope.Body.addType_rename,
        Prod.map_fst, Prod.map_snd, hdecl, ih]
      rfl

/-! ### The whole fixture -/

theorem sortedNodes_rename (f : Fixture) :
    (f.rename ρ).sortedNodes = f.sortedNodes.map (Node.rename ρ) := by
  have h : (f.nodes.mergeSort fun m n => m.id ≤ n.id).map (Node.rename ρ) =
      (f.nodes.map (Node.rename ρ)).mergeSort fun m n => m.id ≤ n.id :=
    List.map_mergeSort fun _ _ _ _ => rfl
  exact h.symm

theorem ids_rename (f : Fixture) : (f.rename ρ).ids = f.ids := by
  simp [ids, rename, Node.rename]

theorem edges_rename (f : Fixture) : (f.rename ρ).edges = f.edges := by
  simp [edges, sortedNodes_rename, List.flatMap_map, Node.rename]

theorem checkIds_rename (f : Fixture) :
    (f.rename ρ).checkIds = mapBoth (FixtureError.rename ρ) id f.checkIds := by
  have hlength : (f.rename ρ).nodes.length = f.nodes.length := List.length_map _
  have hids : (f.rename ρ).sortedIds = f.sortedIds := by
    rw [sortedIds, ids_rename, sortedIds]
  rw [checkIds, hids, hlength, checkIds]
  cases misplacedId? 0 f.sortedIds <;> rfl

theorem boundParams_rename (f : Fixture) (file : FileId) :
    (f.rename ρ).boundParams file =
      Prod.map (List.map (Decl.rename ρ)) (LoanScope.Body.rename ρ) (f.boundParams file) := by
  have hempty : LoanScope.Body.rename ρ .empty = .empty := by
    simp [LoanScope.Body.rename, LoanScope.Body.empty]
  rw [boundParams, boundParams, ← Param.bindList_rename, hempty]
  rfl

theorem boundReturn_rename (f : Fixture) (file : FileId) :
    (f.rename ρ).boundReturn file =
      Prod.map (Option.map (TypeRef.rename ρ)) (LoanScope.Body.rename ρ) (f.boundReturn file) := by
  rw [boundReturn, boundParams_rename]
  exact LoanScope.Body.addType?_rename (f.boundParams file).2 f.returnTy

theorem variablesFrom_map (k : Nat) (names : List String) :
    variablesFrom k (names.map ρ) = (variablesFrom k names).map (Variable.rename ρ) := by
  induction names generalizing k with
  | nil => rfl
  | cons x rest ih => simp [variablesFrom, Variable.rename, ih]

theorem boundNodes_rename (f : Fixture) (file : FileId) :
    (f.rename ρ).boundNodes file =
      mapBoth (FixtureError.rename ρ)
        (Prod.map (List.map (LoanScope.Node.rename ρ)) (LoanScope.Body.rename ρ))
          (f.boundNodes file) := by
  have hscope : Scope.of ((f.rename ρ).params.map Param.name) =
      (Scope.of (f.params.map Param.name)).map (Variable.rename ρ) := by
    have hnames : (f.rename ρ).params.map Param.name = (f.params.map Param.name).map ρ := by
      simp [rename, Param.rename]
    rw [hnames, Scope.of, variablesFrom_map, Scope.of, List.map_reverse]
  rw [boundNodes, hscope, boundReturn_rename, sortedNodes_rename]
  exact Node.bindList_rename file _ f.sortedNodes (f.boundReturn file).2

/-! Every name is read as its changed self, in the same order. -/

theorem names_ctype_rename (t : CType) : (t.rename ρ).names = t.names.map ρ := by
  induction t <;> simp_all [CType.rename, CType.names]

mutual

theorem Expr.names_rename : ∀ e : Expr, (e.rename ρ).names = e.names.map ρ
  | .lit _ => rfl
  | .var _ => rfl
  | .assign left right => by
      simp [Expr.rename, Expr.names, Expr.names_rename left, Expr.names_rename right]
  | .binary _ left right => by
      simp [Expr.rename, Expr.names, Expr.names_rename left, Expr.names_rename right]
  | .addrOf e => Expr.names_rename e
  | .deref e => Expr.names_rename e
  | .unary _ e => Expr.names_rename e
  | .call _ args ty => by
      cases ty <;> simp [Expr.rename, Expr.names, Expr.listNames_rename args, names_ctype_rename]
  | .paren e => Expr.names_rename e
  | .member e _ _ => by simp [Expr.rename, Expr.names, Expr.names_rename e]

theorem Expr.listNames_rename :
    ∀ es : List Expr, Expr.listNames (Expr.listRename ρ es) = (Expr.listNames es).map ρ
  | [] => rfl
  | e :: rest => by
      simp [Expr.listRename, Expr.listNames, Expr.names_rename e, Expr.listNames_rename rest]

end

theorem Stmt.names_rename (s : Stmt) : (s.rename ρ).names = s.names.map ρ := by
  cases s with
  | decl x ty init => cases init <;> simp [rename, names, names_ctype_rename, Expr.names_rename]
  | expr e => exact Expr.names_rename e
  | label x => rfl

theorem Body.names_rename (body : Body) : (body.rename ρ).names = body.names.map ρ := by
  cases body with
  | instructions stmts =>
      simp [rename, names, List.flatMap_map, List.map_flatMap, Stmt.names_rename]
  | ret value => cases value <;> simp [rename, names, Expr.names_rename]
  | branch e | loop e | switch e => exact Expr.names_rename e
  | start | finish | jump => rfl

theorem names_rename (f : Fixture) : (f.rename ρ).names = f.names.map ρ := by
  have hreturn : (((f.rename ρ).returnTy.map CType.names).getD []) =
      ((f.returnTy.map CType.names).getD []).map ρ := by
    rw [rename]
    cases f.returnTy <;> simp [names_ctype_rename]
  rw [names, hreturn, sortedNodes_rename, names]
  simp [rename, Param.rename, Node.rename, Node.names, Body.names_rename, List.flatMap_map,
    List.map_flatMap, names_ctype_rename]

end Fixture

namespace NameTable

theorem mention_rename (t : NameTable) (x : String) :
    (t.rename ρ).mention (ρ x) = (t.mention x).rename ρ := by
  by_cases hx : x ∈ t.names
  · simp [mention, rename, hx]
  · simp [mention, rename, hx]

theorem ofList_map (names : List String) : ofList (names.map ρ) = (ofList names).rename ρ := by
  have hfold : ∀ t : NameTable, (names.map ρ).foldl mention (t.rename ρ) =
      (names.foldl mention t).rename ρ := by
    induction names with
    | nil => exact fun t => rfl
    | cons x rest ih =>
        intro t
        rw [List.map_cons, List.foldl_cons, mention_rename, ih, List.foldl_cons]
  exact hfold empty

end NameTable

namespace Fixture

theorem withNodes_rename (f : Fixture) (file : FileId)
    (bound : List LoanScope.Node × LoanScope.Body) :
    (f.rename ρ).withNodes file
        (Prod.map (List.map (LoanScope.Node.rename ρ)) (LoanScope.Body.rename ρ) bound) =
      mapBoth (FixtureError.rename ρ) (Function.rename ρ) (f.withNodes file bound) := by
  have hkind : ∀ step : Step, (step.rename ρ).kind = step.kind := fun step => by cases step <;> rfl
  have hkinds : (bound.1.map (LoanScope.Node.rename ρ)).map (·.step.kind) =
      bound.1.map (·.step.kind) := by
    simp [LoanScope.Node.rename, hkind]
  have hplan : ∀ kinds, (f.rename ρ).plan kinds = f.plan kinds := by
    intro kinds
    rw [plan, plan, edges_rename]
    rfl
  rw [withNodes, withNodes, Prod.map_fst, hkinds, hplan, names_rename, NameTable.ofList_map,
    boundParams_rename, boundReturn_rename]
  cases (f.plan (bound.1.map (·.step.kind))).build <;> rfl

/-- Binding a fixture with its names changed gives the function with its names changed. -/
theorem toFunction_rename (f : Fixture) (file : FileId) :
    (f.rename ρ).toFunction file =
      mapBoth (FixtureError.rename ρ) (Function.rename ρ) (f.toFunction file) := by
  rw [toFunction_eq, toFunction_eq]
  refine bind_eq_mapBoth f.checkIds_rename fun _ => ?_
  exact bind_eq_mapBoth (f.boundNodes_rename file) fun bound => f.withNodes_rename file bound

end Fixture

end binding

end LoanScope
