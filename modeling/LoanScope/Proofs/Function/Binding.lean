import LoanScope.Proofs.Fixture.Reading
import LoanScope.Proofs.Graph.Plan
import LoanScope.Proofs.Place
import Mathlib.Data.List.Induction

/-! The function of a fixture is the fixture with its names bound: every name to its last
declaration before it, and every declaration to its position among all of them. -/

namespace LoanScope

/-! ### Variables by position -/

theorem Variable.eq_of {v w : Variable} (hdecl : v.decl = w.decl) (hname : v.name = w.name) :
    v = w := by
  cases v
  cases w
  cases hdecl
  cases hname
  rfl

/-- The variables of declarations in a row, the first of them being number `k`. -/
def variablesFrom : Nat → List String → List Variable
  | _, [] => []
  | k, x :: rest => ⟨k, x⟩ :: variablesFrom (k + 1) rest

theorem variablesFrom_append (k : Nat) (xs ys : List String) :
    variablesFrom k (xs ++ ys) = variablesFrom k xs ++ variablesFrom (k + xs.length) ys := by
  induction xs generalizing k with
  | nil => rfl
  | cons x rest ih =>
      rw [List.cons_append, variablesFrom, ih, List.length_cons, Nat.add_right_comm, Nat.add_assoc]
      rfl

theorem mem_variablesFrom {k : Nat} {names : List String} {v : Variable} :
    v ∈ variablesFrom k names ↔ ∃ j, v.decl = k + j ∧ names[j]? = some v.name := by
  induction names generalizing k with
  | nil => simp [variablesFrom]
  | cons x rest ih =>
      rw [variablesFrom, List.mem_cons, ih]
      constructor
      · rintro (rfl | ⟨j, hj, hname⟩)
        · exact ⟨0, rfl, rfl⟩
        · exact ⟨j + 1, hj.trans (Nat.succ_add_eq_add_succ k j), hname⟩
      · rintro ⟨j, hj, hname⟩
        cases j with
        | zero => exact .inl (Variable.eq_of hj (Option.some.inj hname).symm)
        | succ j => exact .inr ⟨j, hj.trans (Nat.succ_add_eq_add_succ k j).symm, hname⟩

/-- The scope after some declarations, the last of them first. -/
def Scope.of (names : List String) : Scope := (variablesFrom 0 names).reverse

theorem Scope.of_concat (names : List String) (x : String) :
    Scope.of (names ++ [x]) = ⟨names.length, x⟩ :: Scope.of names := by
  rw [Scope.of, variablesFrom_append, List.reverse_append, Nat.zero_add]
  rfl

/-- Types are numbered apart from declarations. -/
@[simp] theorem Body.decls_addType (b : Body) (t : CType) : (b.addType t).2.decls = b.decls := by
  induction t with
  | builtin _ | elaborated _ _ => rfl
  | pointer _ ih | qualified _ _ ih | typedef _ _ ih => exact ih

namespace Fixture

theorem means_concat_self (names : List String) (x : String) :
    Means (names ++ [x]) x (nextVariable names x) := by
  refine ⟨rfl, by simp [nextVariable], ?_⟩
  intro j hj
  have hlong : (names ++ [x]).length ≤ j := by
    rw [List.length_append]
    exact hj
  simp [List.getElem?_eq_none hlong]

theorem means_concat_of_ne {names : List String} {x y : String} (hne : y ≠ x) {v : Variable} :
    Means (names ++ [y]) x v ↔ Means names x v := by
  have hsame : ∀ j : Nat, (names ++ [y])[j]? = some x ↔ names[j]? = some x := by
    intro j
    rcases Nat.lt_trichotomy j names.length with hlt | rfl | hgt
    · rw [List.getElem?_append_left hlt]
    · simp [hne]
    · have hlong : (names ++ [y]).length ≤ j := by
        rw [List.length_append]
        exact hgt
      rw [List.getElem?_eq_none hlong, List.getElem?_eq_none (Nat.le_of_lt hgt)]
  constructor
  · rintro ⟨hname, hdeclared, hlast⟩
    exact ⟨hname, (hsame _).mp hdeclared, fun j hj h => hlast j hj ((hsame j).mpr h)⟩
  · rintro ⟨hname, hdeclared, hlast⟩
    exact ⟨hname, (hsame _).mpr hdeclared, fun j hj h => hlast j hj ((hsame j).mp h)⟩

/-- Two variables that one name means are the same. -/
theorem Means.unique {names : List String} {x : String} {v w : Variable} (hv : Means names x v)
    (hw : Means names x w) : v = w := by
  have hdecl : v.decl = w.decl := by
    rcases Nat.lt_trichotomy v.decl w.decl with hlt | heq | hgt
    · exact absurd hw.declared (hv.last _ hlt)
    · exact heq
    · exact absurd hv.declared (hw.last _ hgt)
  exact Variable.eq_of hdecl (hv.name_eq.trans hw.name_eq.symm)

/-- A name is looked up as what it means. -/
theorem resolve?_of {names : List String} {x : String} {v : Variable} :
    (Scope.of names).resolve? x = some v ↔ Means names x v := by
  induction names using List.reverseRecOn with
  | nil =>
      constructor
      · intro h
        simp [Scope.of, variablesFrom, Scope.resolve?] at h
      · intro h
        simpa using h.declared
  | append_singleton names y ih =>
      rw [Scope.of_concat, Scope.resolve?, List.find?_cons]
      by_cases hy : y = x
      · subst hy
        simp only [decide_true, Option.some.injEq]
        exact ⟨fun h => h ▸ means_concat_self names y,
          fun h => (means_concat_self names y).unique h⟩
      · simp only [hy, decide_false, means_concat_of_ne hy]
        exact ih

/-! ### Expressions -/

/-- The second expression is the first one with its names bound. -/
inductive Expr.BoundTo (names : List String) : Expr → LoanScope.Expr → Prop where
  | lit {value id span} : BoundTo names (.lit value) (.lit id span value)
  | var {x v id span} (h : Means names x v) : BoundTo names (.var x) (.var id span v)
  | assign {left right left' right' id span} (hleft : BoundTo names left left')
      (hright : BoundTo names right right') :
      BoundTo names (.assign left right) (.binary id span .assign left' right')
  | binary {op left right left' right' id span} (hleft : BoundTo names left left')
      (hright : BoundTo names right right') :
      BoundTo names (.binary op left right) (.binary id span op left' right')
  | addrOf {e e' id span} (h : BoundTo names e e') :
      BoundTo names (.addrOf e) (.unary id span .addrOf e')
  | deref {e e' id span} (h : BoundTo names e e') :
      BoundTo names (.deref e) (.unary id span .deref e')
  | unary {op e e' id span} (h : BoundTo names e e') :
      BoundTo names (.unary op e) (.unary id span op e')
  | call {callee args args' ty ty' id span} :
      BoundTo names (.call callee args ty) (.call id span callee args' ty')
  | paren {e e' id span} (h : BoundTo names e e') : BoundTo names (.paren e) (.paren id span e')
  | member {e e' field arrow id span} (h : BoundTo names e e') :
      BoundTo names (.member e field arrow) (.member id span e' field arrow)

mutual

/-- An expression is bound as it reads, and declares nothing. -/
theorem Expr.bind_boundTo {names : List String} {here : Setting}
    (hscope : here.scope = Scope.of names) :
    ∀ (e : Expr) {b b' : LoanScope.Body} {e' : LoanScope.Expr},
      e.bind here b = .ok (e', b') → e.BoundTo names e' ∧ b'.decls = b.decls
  | .lit value, b, b', e', h => by
      rw [Expr.bind] at h
      cases h
      exact ⟨.lit, rfl⟩
  | .var x, b, b', e', h => by
      rw [Expr.bind, hscope] at h
      cases hx : (Scope.of names).resolve? x with
      | none => simp [hx] at h
      | some v =>
          simp only [hx] at h
          cases h
          exact ⟨.var (resolve?_of.mp hx), rfl⟩
  | .assign left right, b, b', e', h => by
      rw [Expr.bind] at h
      obtain ⟨⟨left', b₁⟩, hleft, hrest⟩ := bind_eq_ok.mp h
      obtain ⟨⟨right', b₂⟩, hright, hend⟩ := bind_eq_ok.mp hrest
      obtain ⟨hl, hdecls₁⟩ := Expr.bind_boundTo hscope left hleft
      obtain ⟨hr, hdecls₂⟩ := Expr.bind_boundTo hscope right hright
      cases hend
      exact ⟨.assign hl hr, hdecls₂.trans hdecls₁⟩
  | .binary op left right, b, b', e', h => by
      rw [Expr.bind] at h
      obtain ⟨⟨left', b₁⟩, hleft, hrest⟩ := bind_eq_ok.mp h
      obtain ⟨⟨right', b₂⟩, hright, hend⟩ := bind_eq_ok.mp hrest
      obtain ⟨hl, hdecls₁⟩ := Expr.bind_boundTo hscope left hleft
      obtain ⟨hr, hdecls₂⟩ := Expr.bind_boundTo hscope right hright
      cases hend
      exact ⟨.binary hl hr, hdecls₂.trans hdecls₁⟩
  | .addrOf e, b, b', e', h => by
      rw [Expr.bind] at h
      obtain ⟨⟨e₁, b₁⟩, he, hend⟩ := bind_eq_ok.mp h
      obtain ⟨hbound, hdecls⟩ := Expr.bind_boundTo hscope e he
      cases hend
      exact ⟨.addrOf hbound, hdecls⟩
  | .deref e, b, b', e', h => by
      rw [Expr.bind] at h
      obtain ⟨⟨e₁, b₁⟩, he, hend⟩ := bind_eq_ok.mp h
      obtain ⟨hbound, hdecls⟩ := Expr.bind_boundTo hscope e he
      cases hend
      exact ⟨.deref hbound, hdecls⟩
  | .unary op e, b, b', e', h => by
      rw [Expr.bind] at h
      obtain ⟨⟨e₁, b₁⟩, he, hend⟩ := bind_eq_ok.mp h
      obtain ⟨hbound, hdecls⟩ := Expr.bind_boundTo hscope e he
      cases hend
      exact ⟨.unary hbound, hdecls⟩
  | .call callee args ty, b, b', e', h => by
      rw [Expr.bind] at h
      obtain ⟨⟨args', b₁⟩, hargs, hend⟩ := bind_eq_ok.mp h
      have hdecls := Expr.decls_bindList hscope args hargs
      cases ty with
      | none =>
          cases hend
          exact ⟨.call, hdecls⟩
      | some ty =>
          cases hend
          exact ⟨.call, (b₁.decls_addType ty).trans hdecls⟩
  | .paren e, b, b', e', h => by
      rw [Expr.bind] at h
      obtain ⟨⟨e₁, b₁⟩, he, hend⟩ := bind_eq_ok.mp h
      obtain ⟨hbound, hdecls⟩ := Expr.bind_boundTo hscope e he
      cases hend
      exact ⟨.paren hbound, hdecls⟩
  | .member e field arrow, b, b', e', h => by
      rw [Expr.bind] at h
      obtain ⟨⟨e₁, b₁⟩, he, hend⟩ := bind_eq_ok.mp h
      obtain ⟨hbound, hdecls⟩ := Expr.bind_boundTo hscope e he
      cases hend
      exact ⟨.member hbound, hdecls⟩

theorem Expr.decls_bindList {names : List String} {here : Setting}
    (hscope : here.scope = Scope.of names) :
    ∀ (es : List Expr) {b b' : LoanScope.Body} {es' : List LoanScope.Expr},
      Expr.bindList here b es = .ok (es', b') → b'.decls = b.decls
  | [], b, b', es', h => by
      rw [Expr.bindList] at h
      cases h
      rfl
  | e :: rest, b, b', es', h => by
      rw [Expr.bindList] at h
      obtain ⟨⟨e', b₁⟩, he, hmore⟩ := bind_eq_ok.mp h
      obtain ⟨⟨rest', b₂⟩, hrest, hend⟩ := bind_eq_ok.mp hmore
      cases hend
      exact (Expr.decls_bindList hscope rest hrest).trans (Expr.bind_boundTo hscope e he).2

end

/-- A bound expression names the place that the expression denotes. -/
theorem Expr.BoundTo.place?_iff {names : List String} {e : Expr} {e' : LoanScope.Expr}
    (h : e.BoundTo names e') {p : Place} : e'.place? = .ok (some p) ↔ e.Denotes names p := by
  induction h generalizing p with
  | lit | assign _ _ | binary _ _ | addrOf _ | call =>
      constructor
      · intro h
        simp [LoanScope.Expr.place?] at h
      · intro h
        cases h
  | @var x v id span hv =>
      constructor
      · intro h
        cases h
        exact .var hv
      · intro h
        cases h with
        | var hmeans => rw [LoanScope.Expr.place?, hv.unique hmeans]
  | deref _ ih =>
      rw [LoanScope.Expr.place?_deref]
      constructor
      · rintro ⟨q, hq, rfl⟩
        exact .deref (ih.mp hq)
      · intro h
        cases h with
        | deref hq => exact ⟨_, ih.mpr hq, rfl⟩
  | @unary op e e' id span _ ih =>
      by_cases hop : op = .deref
      · subst hop
        rw [LoanScope.Expr.place?_deref]
        constructor
        · rintro ⟨q, hq, rfl⟩
          exact .unaryDeref (ih.mp hq)
        · intro h
          cases h with
          | unaryDeref hq => exact ⟨_, ih.mpr hq, rfl⟩
      · constructor
        · intro h
          cases op <;> simp_all [LoanScope.Expr.place?]
        · intro h
          cases h with
          | unaryDeref _ => exact absurd rfl hop
  | paren _ ih =>
      rw [LoanScope.Expr.place?]
      constructor
      · intro h
        exact .paren (ih.mp h)
      · intro h
        cases h with
        | paren hq => exact ih.mpr hq
  | @member e e' field arrow id span _ ih =>
      rw [LoanScope.Expr.place?_member]
      constructor
      · rintro ⟨q, hq, rfl⟩
        cases arrow
        · exact .dot (ih.mp hq)
        · exact .arrow (ih.mp hq)
      · intro h
        cases h with
        | dot hq => exact ⟨_, ih.mpr hq, rfl⟩
        | arrow hq => exact ⟨_, ih.mpr hq, rfl⟩

/-! ### Statements -/

/-- The second statement is the first one with its names bound. -/
inductive Stmt.BoundTo (names : List String) : Stmt → LoanScope.Stmt → Prop where
  | decl {x ty id d} (hvar : d.variable = nextVariable names x) (hinit : d.init = none) :
      BoundTo names (.decl x ty none) (.decl id d)
  | init {x ty init init' id d} (hvar : d.variable = nextVariable names x)
      (hinit : d.init = some init') (h : init.BoundTo names init') :
      BoundTo names (.decl x ty (some init)) (.decl id d)
  | expr {e e' id} (h : e.BoundTo names e') : BoundTo names (.expr e) (.expr id e')
  | label {name id span} : BoundTo names (.label name) (.label id name span)

theorem Expr.bindOption_boundTo {names : List String} {here : Setting}
    (hscope : here.scope = Scope.of names) {b b' : LoanScope.Body} {value : Option Expr}
    {value' : Option LoanScope.Expr} (h : Expr.bindOption here b value = .ok (value', b')) :
    Option.Rel (Expr.BoundTo names) value value' ∧ b'.decls = b.decls := by
  cases value with
  | none =>
      cases h
      exact ⟨.none, rfl⟩
  | some e =>
      obtain ⟨⟨e', b₁⟩, he, hend⟩ := bind_eq_ok.mp h
      obtain ⟨hbound, hdecls⟩ := Expr.bind_boundTo hscope e he
      cases hend
      exact ⟨.some hbound, hdecls⟩

theorem Stmt.bind_boundTo {names : List String} {here : Setting} {b : LoanScope.Body} {stmt : Stmt}
    {bound : Bound LoanScope.Stmt} (hscope : here.scope = Scope.of names)
    (hsize : b.decls.size = names.length) (h : stmt.bind here b = .ok bound) :
    stmt.BoundTo names bound.value ∧ bound.scope = Scope.of (names ++ stmt.declares) ∧
      bound.body.decls.size = (names ++ stmt.declares).length := by
  cases stmt with
  | decl x ty init =>
      rw [Stmt.bind] at h
      obtain ⟨⟨init', b₁⟩, hinit, hend⟩ := bind_eq_ok.mp h
      obtain ⟨hbound, hdecls⟩ := Expr.bindOption_boundTo hscope hinit
      have hnext : b₁.decls.size = names.length := by
        rw [hdecls.trans (b.decls_addType ty), hsize]
      cases hend
      refine ⟨?_, ?_, by simp [declares, hnext]⟩
      · cases hbound with
        | none => exact .decl (by simp [Decl.variable, nextVariable, hnext]) rfl
        | some hbound => exact .init (by simp [Decl.variable, nextVariable, hnext]) rfl hbound
      · simp [Decl.variable, declares, Scope.of_concat, hscope, hnext]
  | expr e =>
      rw [Stmt.bind] at h
      obtain ⟨⟨e', b₁⟩, he, hend⟩ := bind_eq_ok.mp h
      obtain ⟨hbound, hdecls⟩ := Expr.bind_boundTo hscope e he
      cases hend
      exact ⟨.expr hbound, by simpa [declares] using hscope, by simp [declares, hdecls, hsize]⟩
  | label name =>
      cases h
      exact ⟨.label, by simpa [declares] using hscope, by simpa [declares] using hsize⟩

/-- Statements in a row, each bound with the names declared before it. -/
inductive Stmt.ListBoundTo : List String → List Stmt → List LoanScope.Stmt → Prop where
  | nil {names} : ListBoundTo names [] []
  | cons {names stmt stmt' rest rest'} (h : stmt.BoundTo names stmt')
      (hrest : ListBoundTo (names ++ stmt.declares) rest rest') :
      ListBoundTo names (stmt :: rest) (stmt' :: rest')

theorem Stmt.bindList_boundTo {names : List String} {here : Setting} {b : LoanScope.Body}
    {stmts : List Stmt} {bound : Bound (List LoanScope.Stmt)} (hscope : here.scope = Scope.of names)
    (hsize : b.decls.size = names.length) (h : Stmt.bindList here b stmts = .ok bound) :
    Stmt.ListBoundTo names stmts bound.value ∧
      bound.scope = Scope.of (names ++ stmts.flatMap Stmt.declares) ∧
      bound.body.decls.size = (names ++ stmts.flatMap Stmt.declares).length := by
  induction stmts generalizing names here b bound with
  | nil =>
      cases h
      exact ⟨.nil, by simpa using hscope, by simpa using hsize⟩
  | cons stmt rest ih =>
      obtain ⟨first, hfirst, hmore⟩ := bind_eq_ok.mp h
      obtain ⟨later, hlater, hend⟩ := bind_eq_ok.mp hmore
      obtain ⟨hbound, hscope₁, hsize₁⟩ := Stmt.bind_boundTo hscope hsize hfirst
      obtain ⟨hrest, hscope₂, hsize₂⟩ := ih hscope₁ hsize₁ hlater
      cases hend
      rw [List.append_assoc, ← List.flatMap_cons] at hscope₂ hsize₂
      exact ⟨.cons hbound hrest, hscope₂, hsize₂⟩

/-! ### Nodes -/

/-- What a node does, with its names bound. -/
inductive Body.BoundTo (names : List String) : Body → Step → Prop where
  | start : BoundTo names .start .start
  | finish : BoundTo names .finish .finish
  | jump : BoundTo names .jump .jump
  | instructions {stmts stmts'} (h : Stmt.ListBoundTo names stmts stmts') :
      BoundTo names (.instructions stmts) (.instructions stmts')
  | branch {e e'} (h : e.BoundTo names e') : BoundTo names (.branch e) (.branch e')
  | loop {e e'} (h : e.BoundTo names e') : BoundTo names (.loop e) (.loop e')
  | switch {e e' span} (h : e.BoundTo names e') : BoundTo names (.switch e) (.switch e' span)
  | leave {span} : BoundTo names (.ret none) (.ret none span)
  | ret {e e' span} (h : e.BoundTo names e') : BoundTo names (.ret (some e)) (.ret (some e') span)

theorem Body.bind_boundTo {names : List String} {here : Setting} {b : LoanScope.Body} {body : Body}
    {bound : Bound Step} (hscope : here.scope = Scope.of names)
    (hsize : b.decls.size = names.length) (h : body.bind here b = .ok bound) :
    body.BoundTo names bound.value ∧ bound.scope = Scope.of (names ++ body.declares) ∧
      bound.body.decls.size = (names ++ body.declares).length := by
  -- What is no list of statements declares nothing.
  have hkeep : ∀ {b' : LoanScope.Body}, body.stmts = [] → b'.decls = b.decls →
      here.scope = Scope.of (names ++ body.declares) ∧
        b'.decls.size = (names ++ body.declares).length := by
    intro b' hstmts hdecls
    simp [declares, hstmts, hscope, hdecls, hsize]
  cases body with
  | start =>
      cases h
      exact ⟨.start, hkeep rfl rfl⟩
  | finish =>
      cases h
      exact ⟨.finish, hkeep rfl rfl⟩
  | jump =>
      cases h
      exact ⟨.jump, hkeep rfl rfl⟩
  | instructions list =>
      obtain ⟨bound', hlist, hend⟩ := bind_eq_ok.mp h
      obtain ⟨hbound, hscope', hsize'⟩ := Stmt.bindList_boundTo hscope hsize hlist
      cases hend
      exact ⟨.instructions hbound, hscope', hsize'⟩
  | branch e =>
      obtain ⟨⟨e', b'⟩, he, hend⟩ := bind_eq_ok.mp h
      obtain ⟨hbound, hdecls⟩ := Expr.bind_boundTo hscope e he
      cases hend
      exact ⟨.branch hbound, hkeep rfl hdecls⟩
  | loop e =>
      obtain ⟨⟨e', b'⟩, he, hend⟩ := bind_eq_ok.mp h
      obtain ⟨hbound, hdecls⟩ := Expr.bind_boundTo hscope e he
      cases hend
      exact ⟨.loop hbound, hkeep rfl hdecls⟩
  | switch e =>
      obtain ⟨⟨e', b'⟩, he, hend⟩ := bind_eq_ok.mp h
      obtain ⟨hbound, hdecls⟩ := Expr.bind_boundTo hscope e he
      cases hend
      exact ⟨.switch hbound, hkeep rfl hdecls⟩
  | ret value =>
      obtain ⟨⟨value', b'⟩, hvalue, hend⟩ := bind_eq_ok.mp h
      obtain ⟨hbound, hdecls⟩ := Expr.bindOption_boundTo hscope hvalue
      cases hend
      cases hbound with
      | none => exact ⟨.leave, hkeep rfl hdecls⟩
      | some hbound => exact ⟨.ret hbound, hkeep rfl hdecls⟩

/-- Nodes in a row, each bound with the names declared before it. -/
inductive Node.ListBoundTo : List String → List Node → List LoanScope.Node → Prop where
  | nil {names} : ListBoundTo names [] []
  | cons {names node node' rest rest'} (h : node.body.BoundTo names node'.step)
      (hlive : node'.liveIn = node.liveIn)
      (hrest : ListBoundTo (names ++ node.body.declares) rest rest') :
      ListBoundTo names (node :: rest) (node' :: rest')

theorem Node.bindList_boundTo {names : List String} {file : FileId} {scope : Scope}
    {b b' : LoanScope.Body} {nodes : List Node} {nodes' : List LoanScope.Node}
    (hscope : scope = Scope.of names) (hsize : b.decls.size = names.length)
    (h : Node.bindList file scope b nodes = .ok (nodes', b')) :
    Node.ListBoundTo names nodes nodes' := by
  induction nodes generalizing names scope b b' nodes' with
  | nil =>
      cases h
      exact .nil
  | cons node rest ih =>
      obtain ⟨step, hstep, hmore⟩ := bind_eq_ok.mp h
      obtain ⟨⟨rest', b₁⟩, hrest, hend⟩ := bind_eq_ok.mp hmore
      obtain ⟨hbound, hscope₁, hsize₁⟩ := Body.bind_boundTo hscope hsize hstep
      cases hend
      exact .cons hbound rfl (ih hscope₁ hsize₁ hrest)

theorem Node.ListBoundTo.length_eq {names : List String} {nodes : List Node}
    {nodes' : List LoanScope.Node} (h : Node.ListBoundTo names nodes nodes') :
    nodes'.length = nodes.length := by
  induction h with
  | nil => rfl
  | cons _ _ _ ih => simp [ih]

theorem Node.ListBoundTo.getElem? {names : List String} {nodes : List Node}
    {nodes' : List LoanScope.Node} (h : Node.ListBoundTo names nodes nodes') {n : Nat} {node : Node}
    (hn : nodes[n]? = some node) :
    ∃ node', nodes'[n]? = some node' ∧ node'.liveIn = node.liveIn ∧
      node.body.BoundTo (names ++ (nodes.take n).flatMap (·.body.declares)) node'.step := by
  induction h generalizing n with
  | nil => simp at hn
  | @cons names first first' rest rest' hfirst hlive _ ih =>
      cases n with
      | zero =>
          cases hn
          exact ⟨first', rfl, hlive, by simpa using hfirst⟩
      | succ n =>
          obtain ⟨node', hnode', hlive', hbound⟩ := ih hn
          refine ⟨node', hnode', hlive', ?_⟩
          rwa [List.take_succ_cons, List.flatMap_cons, ← List.append_assoc]

/-- The declarations of bound statements are the variables next in number. -/
theorem Stmt.ListBoundTo.map_variable {names : List String} {stmts : List Stmt}
    {stmts' : List LoanScope.Stmt} (h : Stmt.ListBoundTo names stmts stmts') :
    (Step.instructions stmts').decls.map Decl.variable =
      variablesFrom names.length (stmts.flatMap Stmt.declares) := by
  induction h with
  | nil => rfl
  | @cons names stmt stmt' rest rest' hstmt _ ih =>
      rw [List.length_append] at ih
      rw [List.flatMap_cons, variablesFrom_append, ← ih]
      cases hstmt with
      | decl hvar _ => simp [Step.decls, declares, variablesFrom, hvar, nextVariable]
      | init hvar _ _ => simp [Step.decls, declares, variablesFrom, hvar, nextVariable]
      | expr _ => simp [Step.decls, declares, variablesFrom]
      | label => simp [Step.decls, declares, variablesFrom]

theorem Body.BoundTo.map_variable {names : List String} {body : Body} {step : Step}
    (h : body.BoundTo names step) :
    step.decls.map Decl.variable = variablesFrom names.length body.declares := by
  cases h with
  | instructions h => exact h.map_variable
  | _ => rfl

theorem Node.ListBoundTo.map_variable {names : List String} {nodes : List Node}
    {nodes' : List LoanScope.Node} (h : Node.ListBoundTo names nodes nodes') :
    (nodes'.flatMap (·.step.decls)).map Decl.variable =
      variablesFrom names.length (nodes.flatMap (·.body.declares)) := by
  induction h with
  | nil => rfl
  | @cons names node node' rest rest' hnode _ _ ih =>
      rw [List.length_append] at ih
      rw [List.flatMap_cons, List.map_append, List.flatMap_cons, variablesFrom_append, ← ih,
        hnode.map_variable]

/-! ### The whole function -/

theorem Param.bindList_spec (file : FileId) (params : List Param) (b : LoanScope.Body) :
    (Param.bindList file b params).1.map Decl.variable =
        variablesFrom b.decls.size (params.map Param.name) ∧
      (Param.bindList file b params).2.decls.size = b.decls.size + params.length := by
  induction params generalizing b with
  | nil => exact ⟨rfl, rfl⟩
  | cons p rest ih =>
      let next := ((b.addType p.ty).2.addDecl
        (⟨·, p.name, (b.addType p.ty).1, none, true, .detached file⟩)).2
      have hnext : next.decls.size = b.decls.size + 1 := by
        simp [next, LoanScope.Body.addDecl]
      have hfirst : (b.addType p.ty).2.decls.size = b.decls.size := by rw [b.decls_addType]
      obtain ⟨hvars, hsize⟩ := ih next
      rw [hnext] at hvars hsize
      refine ⟨congrArg₂ (fun i => List.cons (⟨i, p.name⟩ : Variable)) hfirst hvars,
        hsize.trans ?_⟩
      rw [List.length_cons, Nat.add_right_comm, Nat.add_assoc]

theorem plan_build {f : Fixture} {kinds : List NodeKind} {g : Graph}
    (h : (f.plan kinds).build = .ok g) :
    g.start = f.start.toNat ∧ (∀ e, e ∈ g.edges ↔ e ∈ f.edges) ∧ g.size = kinds.length := by
  obtain ⟨hkinds, hstart, hedges⟩ := Graph.Plan.build_eq_ok h
  obtain ⟨hnodes, hnone⟩ := Graph.Plan.foldl_addNode kinds .empty
  obtain ⟨hsame, hall⟩ := Graph.Plan.foldl_addEdge f.edges (kinds.foldl Graph.Plan.addNode .empty)
  refine ⟨(Option.some.inj hstart).symm, ?_, ?_⟩
  · intro e
    have hmem := hall e
    rw [hnone] at hmem
    rw [hedges]
    exact hmem.trans (by simp [Graph.Plan.empty])
  · rw [Graph.size, hkinds]
    exact congrArg List.length (hsame.trans hnodes)

theorem misplacedId?_eq_none {i : Nat} {ids : List Nat} (h : misplacedId? i ids = none) {m id : Nat}
    (hm : ids[m]? = some id) : id = i + m := by
  induction ids generalizing i m with
  | nil => simp at hm
  | cons first rest ih =>
      rw [misplacedId?] at h
      split at h
      · rename_i hfirst
        cases m with
        | zero =>
            cases hm
            exact hfirst
        | succ m => exact (ih h hm).trans (Nat.succ_add_eq_add_succ i m)
      · cases h

/-- If ids are positions, the node with an id is the one at this position. -/
theorem nodeAt?_eq {f : Fixture} (hids : misplacedId? 0 (f.sortedNodes.map (·.id.toNat)) = none)
    (n : NodeId) : f.nodeAt? n = f.sortedNodes[n]? := by
  have hid : ∀ (m : Nat) (node : Node), f.sortedNodes[m]? = some node → node.id.toNat = m := by
    intro m node hm
    have hsame := misplacedId?_eq_none hids (m := m) (by rw [List.getElem?_map, hm]; rfl)
    rwa [Nat.zero_add] at hsame
  have hmem : ∀ node ∈ f.nodes, f.sortedNodes[node.id.toNat]? = some node := by
    intro node hnode
    obtain ⟨m, hm⟩ := List.mem_iff_getElem?.mp (List.mem_mergeSort.mpr hnode)
    rwa [hid m node hm]
  cases hfind : f.nodeAt? n with
  | some node =>
      have hn : node.id.toNat = n := by simpa using List.find?_some hfind
      rw [← hn, hmem node (List.mem_of_find?_eq_some hfind)]
  | none =>
      cases hn : f.sortedNodes[n]? with
      | none => rfl
      | some node =>
          have hnode : node ∈ f.nodes := List.mem_mergeSort.mp (List.mem_of_getElem? hn)
          have hnot := List.find?_eq_none.mp hfind node hnode
          simp [hid n node hn] at hnot

/-- What the function of a fixture has to do with it. -/
structure FunctionOf (f : Fixture) (function : Function) : Prop where
  nodeAt?_eq : ∀ n, f.nodeAt? n = f.sortedNodes[n]?
  params : function.params.map Decl.variable = variablesFrom 0 (f.params.map Param.name)
  nodes : Node.ListBoundTo (f.params.map Param.name) f.sortedNodes function.nodes
  start : function.graph.start = f.start.toNat
  edges : ∀ e, e ∈ function.graph.edges ↔ e ∈ f.edges
  size : function.graph.size = function.nodes.length

theorem toFunction_functionOf {f : Fixture} {file : FileId} {function : Function}
    (h : f.toFunction file = .ok function) : f.FunctionOf function := by
  rw [toFunction] at h
  split at h
  · cases h
  · rename_i hids
    obtain ⟨⟨nodes', b⟩, hnodes, hend⟩ := bind_eq_ok.mp h
    obtain ⟨hvars, hsize⟩ := Param.bindList_spec file f.params .empty
    -- The return type is numbered but declares nothing.
    obtain ⟨b₀, hnodes, hdecls⟩ : ∃ b₀, Node.bindList file
        ((Param.bindList file .empty f.params).1.reverse.map Decl.variable) b₀ f.sortedNodes =
          .ok (nodes', b) ∧ b₀.decls = (Param.bindList file .empty f.params).2.decls := by
      cases hreturn : f.returnTy with
      | none =>
          simp only [hreturn] at hnodes
          exact ⟨_, hnodes, rfl⟩
      | some ty =>
          simp only [hreturn] at hnodes
          exact ⟨_, hnodes, LoanScope.Body.decls_addType _ ty⟩
    have hbound : Node.ListBoundTo (f.params.map Param.name) f.sortedNodes nodes' := by
      refine Node.bindList_boundTo ?_ ?_ hnodes
      · rw [List.map_reverse, hvars]
        rfl
      · rw [hdecls, hsize, List.length_map]
        exact Nat.zero_add _
    cases hgraph : (f.plan (nodes'.map (·.step.kind))).build with
    | error e => simp [hgraph] at hend
    | ok graph =>
        simp only [hgraph] at hend
        cases hend
        obtain ⟨hstart, hedges, hlength⟩ := plan_build hgraph
        exact ⟨nodeAt?_eq hids, hvars, hbound, hstart, hedges, hlength.trans (List.length_map _)⟩

end Fixture

end LoanScope
